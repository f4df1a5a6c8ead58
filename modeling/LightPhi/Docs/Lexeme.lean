import LightPhi.Docs.Lexer

/-! C++ texts as sequences of lexemes, with no line splices: the reference for the lexer of the
documentation. Lexemes are maximal, so what stands directly behind one is restricted. -/
namespace LightPhi.Docs
open Base

/-- The letters of identifiers, fixed on ASCII. -/
class CppCharacters where
  isIdentifier : Char → Bool
  isIdentifier_ascii : ∀ c : Char, c.toNat < 128 → isIdentifier c = (c.isAlphanum || c == '_')

/-- A character of a literal, alone or behind a backslash. -/
inductive LiteralChar where
  | plain (c : Char)
  | escape (c : Char)
  deriving DecidableEq

def LiteralChar.text : LiteralChar → List Char
  | .plain c => [c]
  | .escape c => ['\\', c]

inductive Lexeme where
  | whitespace (c : Char)
  | identifier (name : List Char)
  | number (digits : List Char)
  | punctuation (c : Char)
  | quoted (encoding : List Char) (quote : Char) (content : List LiteralChar) (suffix : List Char)
  | raw (encoding delimiter content suffix : List Char)
  | lineComment (content : List Char)
  | blockComment (content : List Char)
  deriving DecidableEq

def encodings : List (List Char) := [[], ['u', '8'], ['u'], ['U'], ['L']]

theorem encodings_letters : ∀ encoding ∈ encodings, ∀ c ∈ encoding,
    c ≠ '"' ∧ c ≠ '\'' ∧ c ≠ '/' ∧ c ≠ 'R' ∧ c ≠ '\\' ∧ c ≠ '\n' := by
  have hletters : ∀ encoding ∈ encodings, encoding.Forall fun c =>
      c ≠ '"' ∧ c ≠ '\'' ∧ c ≠ '/' ∧ c ≠ 'R' ∧ c ≠ '\\' ∧ c ≠ '\n' := by decide
  exact fun encoding h => List.forall_iff_forall_mem.mp (hletters encoding h)

def whitespaceCharacters : List Char := [' ', '\t', '\n', '\x0b', '\x0c', '\r']

def punctuationCharacters : List Char := "{}[]#()<>%:;.?*+-/^&|~!=,".toList

/-- A separator stands before a digit or a letter, a sign behind the letter of an exponent. -/
def NumberPair (c d : Char) : Prop :=
  (c = '\'' → d.isAlphanum ∨ d = '_') ∧
    (d = '+' ∨ d = '-' → c = 'e' ∨ c = 'E' ∨ c = 'p' ∨ c = 'P')

instance : DecidableRel NumberPair := fun c d => by
  unfold NumberPair
  infer_instance

def isHexDigit (c : Char) : Bool := c.isDigit || ('a' ≤ c && c ≤ 'f') || ('A' ≤ c && c ≤ 'F')

/-- Whether a universal character name goes on like this behind its backslash. -/
def namesUniversal : List Char → Bool
  | 'u' :: rest => (rest.take 4).length = 4 && (rest.take 4).all isHexDigit
  | 'U' :: rest => (rest.take 8).length = 8 && (rest.take 8).all isHexDigit
  | _ => false

/-- Whether every backslash in a word begins a universal character name. -/
def escapesNamed : List Char → Bool
  | [] => true
  | c :: rest => (c != '\\' || namesUniversal rest) && escapesNamed rest

/-- A digit, or a point and a digit. -/
def startsNumber : List Char → Bool
  | '.' :: c :: _ => c.isDigit
  | c :: _ => c.isDigit
  | [] => false

namespace Lexeme

def text : Lexeme → List Char
  | .whitespace c => [c]
  | .identifier name => name
  | .number digits => digits
  | .punctuation c => [c]
  | .quoted encoding quote content suffix =>
    encoding ++ quote :: (content.flatMap LiteralChar.text ++ quote :: suffix)
  | .raw encoding delimiter content suffix =>
    encoding ++ 'R' :: '"' :: (delimiter ++ '(' :: (content ++ ')' :: (delimiter ++ '"' :: suffix)))
  | .lineComment content => '/' :: '/' :: content
  | .blockComment content => '/' :: '*' :: (content ++ ['*', '/'])

def kind : Lexeme → RegionKind
  | .lineComment _ => .line
  | .blockComment _ => .block
  | _ => .code

def isLiteral : Lexeme → Bool
  | .quoted _ _ _ _ | .raw _ _ _ _ => true
  | _ => false

/-- The kind of each character. -/
def kinds (l : Lexeme) : List RegionKind := List.replicate l.text.length l.kind

variable [CppCharacters]

/-- The letters of a word, universal names among them. -/
def IsLetters (word : List Char) : Prop :=
  (∀ c ∈ word, CppCharacters.isIdentifier c ∨ c = '\\') ∧ escapesNamed word

def IsName (name : List Char) : Prop :=
  (∃ first rest, name = first :: rest ∧ ¬ first.isDigit) ∧ IsLetters name

/-- The lexeme itself is one of C++. A suffix belongs to its literal. -/
def Valid : Lexeme → Prop
  | .whitespace c => c ∈ whitespaceCharacters
  | .identifier name => IsName name
  | .number digits =>
    startsNumber digits ∧
      (∀ c ∈ digits, CppCharacters.isIdentifier c ∨ c ∈ ['.', '+', '-', '\'', '\\']) ∧
      escapesNamed digits ∧ digits.IsChain NumberPair ∧ digits.getLast? ≠ some '\''
  | .punctuation c => c ∈ punctuationCharacters
  | .quoted encoding quote content suffix =>
    encoding ∈ encodings ∧ (quote = '"' ∨ quote = '\'' ∧ content ≠ []) ∧
      (∀ c, .plain c ∈ content → c ≠ quote ∧ c ≠ '\\' ∧ c ≠ '\n') ∧ .escape '\n' ∉ content ∧
      (suffix = [] ∨ IsName suffix)
  | .raw encoding delimiter content suffix =>
    encoding ∈ encodings ∧ delimiter.length ≤ 16 ∧
      (∀ c ∈ delimiter, c ∉ [' ', '(', ')', '\\', '\t', '\x0b', '\x0c', '\n']) ∧
      ¬ ')' :: (delimiter ++ ['"']) <:+: content ∧ (suffix = [] ∨ IsName suffix)
  | .lineComment content => '\n' ∉ content
  | .blockComment content => ¬ ['*', '/'] <:+: content ∧ ¬ ['\\', '\n'] <:+: content

/-- The text does not go on with a letter. -/
def NoLetter (next : List Char) : Prop :=
  ∀ c ∈ next.head?, ¬ CppCharacters.isIdentifier c ∧ c ≠ '\\'

/-- The text does not go on with a letter that is no digit. -/
def NoName (next : List Char) : Prop :=
  ∀ c ∈ next.head?, (CppCharacters.isIdentifier c → c.isDigit) ∧ c ≠ '\\'

/-- Where the second text follows it directly, the lexeme does not go on. -/
def Ends (l : Lexeme) (next : List Char) : Prop :=
  match l with
  | .whitespace _ | .blockComment _ => True
  | .identifier name =>
    NoLetter next ∧ (name ∈ encodings.map (· ++ ['R']) → next.head? ≠ some '"') ∧
      (name ∈ encodings → next.head? ≠ some '"' ∧ next.head? ≠ some '\'')
  | .number digits =>
    NoLetter next ∧ next.head? ≠ some '.' ∧
      (∀ c ∈ digits.getLast?, c = 'e' ∨ c = 'E' ∨ c = 'p' ∨ c = 'P' →
        next.head? ≠ some '+' ∧ next.head? ≠ some '-') ∧
      (next.head? = some '\'' → ∀ c ∈ next.tail.head?, ¬ (c.isAlphanum ∨ c = '_'))
  | .punctuation c =>
    (c = '/' → next.head? ≠ some '/' ∧ next.head? ≠ some '*') ∧
      (c = '.' → ∀ d ∈ next.head?, ¬ d.isDigit)
  | .quoted _ _ _ suffix | .raw _ _ _ suffix =>
    (suffix = [] → NoName next) ∧ (suffix ≠ [] → NoLetter next)
  -- a backslash there would carry the comment on to the next line
  | .lineComment content => ∀ c ∈ next.head?, c = '\n' ∧ content.getLast? ≠ some '\\'

theorem Valid.text_ne_nil {l : Lexeme} (h : l.Valid) : l.text ≠ [] := by
  cases l with
  | identifier name =>
    obtain ⟨⟨first, rest, rfl, -⟩, -⟩ := h
    exact List.cons_ne_nil _ _
  | number digits =>
    intro hempty
    obtain rfl : digits = [] := hempty
    exact Bool.noConfusion h.1
  | whitespace _ | punctuation _ | quoted _ _ _ _ | raw _ _ _ _ | lineComment _ | blockComment _ =>
    simp [Lexeme.text]

omit [CppCharacters] in
/-- A comment begins with a slash. -/
theorem text_of_comment {l : Lexeme} (h : l.kind ≠ .code) : ∃ more, l.text = '/' :: more := by
  cases l with
  | lineComment content => exact ⟨_, rfl⟩
  | blockComment content => exact ⟨_, rfl⟩
  | whitespace _ | identifier _ | number _ | punctuation _ | quoted _ _ _ _ | raw _ _ _ _ =>
    exact absurd rfl h

end Lexeme

def textOf (lexemes : List Lexeme) : List Char := lexemes.flatMap Lexeme.text

def kindsOf (lexemes : List Lexeme) : List RegionKind := lexemes.flatMap Lexeme.kinds

theorem textOf_cons (l : Lexeme) (ls : List Lexeme) : textOf (l :: ls) = l.text ++ textOf ls :=
  List.flatMap_cons

theorem kindsOf_cons (l : Lexeme) (ls : List Lexeme) : kindsOf (l :: ls) = l.kinds ++ kindsOf ls :=
  List.flatMap_cons

variable [CppCharacters]

/-- Each lexeme ends where the next one begins. -/
def Separated : List Lexeme → Prop
  | [] => True
  | l :: ls => l.Ends (textOf ls) ∧ Separated ls

/-- A C++ text. -/
structure CppText where
  lexemes : List Lexeme
  valid : ∀ l ∈ lexemes, l.Valid
  separated : Separated lexemes

def CppText.text (t : CppText) : List Char := textOf t.lexemes

/-- The lexer finds the comments of the text: a character lies in a span of that kind if and only
if it lies in a comment of that kind. -/
def CppText.FindsComments [PythonCharacters] (t : CppText) : Prop :=
  ∃ spans, regions t.text = some spans ∧ ∀ kind, kind ≠ .code → ∀ i,
    (∃ span ∈ spans, span.kind = kind ∧ span.start ≤ i ∧ i < span.stop) ↔
      (kindsOf t.lexemes)[i]? = some kind

end LightPhi.Docs
