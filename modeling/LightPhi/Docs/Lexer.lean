import LightPhi.Base.Search
import LightPhi.Base.Tiling

/-! The lexer of the API documentation: it splits a source text into code and comments. A place in
the text is given by the characters from there on, and by the one before it. -/
namespace LightPhi.Docs
open Base

/-- Python's `str.isalnum`, fixed on ASCII. -/
class PythonCharacters where
  isalnum : Char → Bool
  isalnum_ascii : ∀ c : Char, c.toNat < 128 → isalnum c = c.isAlphanum

inductive RegionKind where
  | code
  | block
  | line
  deriving DecidableEq

/-- How far the literal behind its opening quote goes. -/
def skipQuoted (quote : Char) : List Char → Nat
  | [] => 0
  | c :: rest =>
    if c = '\\' then
      match rest with
      | [] => 1
      | _ :: rest => skipQuoted quote rest + 2
    else if c = quote then 1
    -- an unterminated character literal is not one: it ends before the end of its line
    else if c = '\n' ∧ quote = '\'' then 0
    else skipQuoted quote rest + 1

theorem skipQuoted_escaped (quote c : Char) (rest : List Char) :
    skipQuoted quote ('\\' :: c :: rest) = skipQuoted quote rest + 2 := by
  simp [skipQuoted]

theorem skipQuoted_cons {c : Char} (h : c ≠ '\\') (quote : Char) (rest : List Char) :
    skipQuoted quote (c :: rest) =
      if c = quote then 1 else if c = '\n' ∧ quote = '\'' then 0
      else skipQuoted quote rest + 1 := by
  cases rest with
  | nil => simp [skipQuoted, h]
  | cons _ _ => simp [skipQuoted, h]

section Lexer
variable [PythonCharacters]

/-- Whether the R opens a raw string rather than ending an identifier. -/
def isRawStringPrefix (previous : Option Char) (character : Char) : Bool :=
  match previous with
  | some c => if PythonCharacters.isalnum c || c == '_' then false else character == 'R'
  | none => character == 'R'

theorem isRawStringPrefix_of_ne {c : Char} (h : c ≠ 'R') (previous : Option Char) :
    isRawStringPrefix previous c = false := by
  cases previous with
  | none => simpa [isRawStringPrefix] using h
  | some p => simp [isRawStringPrefix, h]

/-- The length of the raw string that starts here, if one does. -/
def rawString (previous : Option Char) (character : Char) (following : List Char) : Option Nat :=
  if (character = 'r' ∨ character = 'R') ∧ following.head? = some '"' ∧
      isRawStringPrefix previous character then do
    let text := character :: following
    let closing ← find ['('] text
    let quote ← find ['"'] text
    let terminator := ')' :: (slice text (quote + 1) closing ++ ['"'])
    match find terminator (text.drop closing) with
    | none => some text.length
    | some distance => some (closing + distance + terminator.length)
  else none

/-- One turn of the loop: the kind of what starts here, and its length. -/
def turn (previous : Option Char) : List Char → RegionKind × Nat
  | [] => (.code, 0)
  | character :: following =>
    match rawString previous character following with
    | some length => (.code, length)
    | none =>
      if character = '"' ∨ character = '\'' then (.code, skipQuoted character following + 1)
      else if character = '/' ∧ following.head? = some '/' then
        (.line, (find ['\n'] (character :: following)).getD (following.length + 1))
      else if character = '/' ∧ following.head? = some '*' then
        (.block, match find ['*', '/'] following.tail with
          | none => following.length + 1
          | some distance => distance + 4)
      else (.code, 1)

/-- The loop, with the spans recorded so far; nothing where it has not ended within the turns. -/
def scan (source : List Char) : Nat → Nat → Nat → List (Span RegionKind) →
    Option (List (Span RegionKind))
  | turns, index, codeStart, spans =>
    if index < source.length then
      match turns with
      | 0 => none
      | turns + 1 =>
        match turn (source.take index).getLast? (source.drop index) with
        | (.code, length) => scan source turns (index + length) codeStart spans
        | (kind, length) => scan source turns (index + length) (index + length)
          (spans ++ [⟨.code, codeStart, index⟩, ⟨kind, index, index + length⟩])
    else some (spans ++ [⟨.code, codeStart, source.length⟩])

section Loop
variable {source : List Char} {index codeStart length : Nat} {spans : List (Span RegionKind)}

theorem scan_ended (turns : Nat) (h : ¬ index < source.length) :
    scan source turns index codeStart spans =
      some (spans ++ [⟨.code, codeStart, source.length⟩]) := by
  cases turns with
  | zero => simp [scan, h]
  | succ turns => simp [scan, h]

theorem scan_code (turns : Nat) (h : index < source.length)
    (hturn : turn (source.take index).getLast? (source.drop index) = (.code, length)) :
    scan source (turns + 1) index codeStart spans =
      scan source turns (index + length) codeStart spans := by
  rw [scan, if_pos h, hturn]

theorem scan_comment (turns : Nat) (h : index < source.length) {kind : RegionKind}
    (hkind : kind ≠ .code)
    (hturn : turn (source.take index).getLast? (source.drop index) = (kind, length)) :
    scan source (turns + 1) index codeStart spans =
      scan source turns (index + length) (index + length)
        (spans ++ [⟨.code, codeStart, index⟩, ⟨kind, index, index + length⟩]) := by
  rw [scan, if_pos h, hturn]
  cases kind with
  | code => exact absurd rfl hkind
  | block => rfl
  | line => rfl

end Loop

/-- The spans of a text; no text takes more turns than it has characters. -/
def regions (source : List Char) : Option (List (Span RegionKind)) :=
  (scan source source.length 0 0 []).map fun spans =>
    spans.filter fun span => span.start < span.stop

/-- What `re.sub` puts for a character of a comment. -/
def blankCharacter (c : Char) : Char := if c = '\n' then c else ' '

def blankComments (source : List Char) : Option (List Char) :=
  (regions source).map fun spans =>
    spans.flatMap fun span =>
      let text := slice source span.start span.stop
      if span.kind = .code then text else text.map blankCharacter

end Lexer
end LightPhi.Docs
