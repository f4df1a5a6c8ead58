import LightPhi.Docs.Lexeme
import LightPhi.Docs.Reading
import Mathlib.Data.List.Induction

/-! Which comments the lexer finds. A digit separator opens a quote for it, and it takes only an R
that no letter precedes for that of a raw string. -/
namespace LightPhi.Docs
open Base

/-- How the lexer stands between two lexemes: the quote that a digit separator opened may still be
open. -/
inductive Standing where
  | code
  | separator
  deriving DecidableEq

def Standing.flip : Standing → Standing
  | .code => .separator
  | .separator => .code

/-- Behind the digits of a number. -/
def Standing.behind : Standing → List Char → Standing
  | s, [] => s
  | s, c :: digits => (if c = '\'' then s.flip else s).behind digits

/-- What is known of the comments of a text. -/
inductive Verdict where
  | found
  | lost
  | unknown
  deriving DecidableEq

section Verdict
variable [PythonCharacters]

/-- Whether the end of a text is taken for the R of a raw string. -/
def opensRaw (text next : List Char) : Bool :=
  next.head? = some '"' && next.contains '(' &&
    text.getLast?.any (isRawStringPrefix text.dropLast.getLast?)

/-- Whether a character of a literal is nothing but itself for the lexer, inside and outside. -/
def LiteralChar.isInert : LiteralChar → Bool
  | .plain c => c != '"' && c != '/'
  | .escape _ => false

omit [PythonCharacters] in
/-- How the lexer stands behind a lexeme, where it has not taken a part of it for something else. -/
def Lexeme.passes : Standing → Lexeme → Option Standing
  | s, .number digits => some (s.behind digits)
  | .code, .raw encoding delimiter content _ =>
    if encoding = [] ∨ ('"' ∉ delimiter ∧ '"' ∉ content) then some .code else none
  | .code, _ => some .code
  | .separator, .whitespace c => if c = '\n' then some .code else some .separator
  | .separator, .identifier _ | .separator, .punctuation _ => some .separator
  | .separator, .quoted _ quote content _ =>
    if (if quote = '"' then .plain '\'' ∉ content else content.all LiteralChar.isInert) then
      some .separator
    else none
  | .separator, .raw _ delimiter content _ =>
    if '\'' ∉ delimiter ∧ '\'' ∉ content ∧ '\n' ∉ content then some .separator else none
  | .separator, .lineComment _ | .separator, .blockComment _ => none

/-- The same, where the end of the lexeme is not taken for the start of a raw string either. -/
def Lexeme.reading (next : List Char) (s : Standing) (l : Lexeme) : Option Standing :=
  (l.passes s).filter fun s' => s' = .separator || !opensRaw l.text next

/-- A comment is lost where it begins behind an open quote. -/
def verdict : Standing → List Lexeme → Verdict
  | _, [] => .found
  | s, l :: ls =>
    if s = .separator ∧ l.kind ≠ .code then .lost
    else
      match l.reading (textOf ls) s with
      | some s' => verdict s' ls
      | none => .unknown

/-- What the lexer reads off a text, by how it stands before it. -/
def Scans : Standing → Option Char → List Char → List RegionKind → Prop
  | .code => Reads
  | .separator => Continues '\''

end Verdict

/-- The last character of a text behind another one. -/
theorem getLast?_cons_or (c : Char) (word : List Char) (previous : Option Char) :
    (c :: word).getLast?.or previous = word.getLast?.or (some c) := by
  rw [List.getLast?_cons]
  cases word.getLast? with
  | none => rfl
  | some _ => rfl

/-- No backslash hides a single quote, or the end. -/
def HidesNoQuote : List Char → Prop
  | [] => True
  | c :: rest => (c = '\\' → rest ≠ [] ∧ rest.head? ≠ some '\'') ∧ HidesNoQuote rest

theorem hidesNoQuote_of_not_mem {letters : List Char} (h : '\\' ∉ letters) :
    HidesNoQuote letters := by
  induction letters with
  | nil => trivial
  | cons c letters ih =>
    obtain ⟨hc, hlater⟩ := not_or.mp (mt List.mem_cons.mpr h)
    exact ⟨fun hescape => absurd hescape.symm hc, ih hlater⟩

theorem hidesNoQuote_of_named {letters : List Char} (h : escapesNamed letters) :
    HidesNoQuote letters := by
  induction letters with
  | nil => trivial
  | cons c letters ih =>
    rw [escapesNamed, Bool.and_eq_true] at h
    refine ⟨fun hescape => ?_, ih h.2⟩
    have hnamed : namesUniversal letters := by simpa [hescape] using h.1
    cases letters with
    | nil => exact Bool.noConfusion hnamed
    | cons d letters =>
      refine ⟨List.cons_ne_nil _ _, fun hquote => ?_⟩
      obtain rfl : d = '\'' := Option.some.inj hquote
      exact Bool.noConfusion hnamed

theorem Standing.behind_of_not_mem {letters : List Char} (h : '\'' ∉ letters) (s : Standing) :
    s.behind letters = s := by
  induction letters with
  | nil => rfl
  | cons c letters ih =>
    obtain ⟨hc, hlater⟩ := not_or.mp (mt List.mem_cons.mpr h)
    rw [Standing.behind, if_neg (Ne.symm hc), ih hlater]

section Words
variable [PythonCharacters] {previous : Option Char} {letters rest : List Char}
  {kinds : List RegionKind}

/-- Inside a literal, characters that do not close it. -/
theorem Continues.word {quote : Char}
    (hplain : ∀ c ∈ letters, c ≠ quote ∧ ¬ (c = '\n' ∧ quote = '\''))
    (hlast : letters.getLast? ≠ some '\\')
    (h : Continues quote (letters.getLast?.or previous) rest kinds) :
    Continues quote previous (letters ++ rest) (List.replicate letters.length .code ++ kinds) := by
  induction letters using List.twoStepInduction generalizing previous with
  | nil => exact h
  | singleton c =>
    obtain ⟨hquote, hline⟩ := hplain c (List.mem_cons_self ..)
    exact .plain (fun hc => hlast (by rw [hc]; rfl)) hquote hline h
  | cons_cons c d letters hskipped hnext =>
    obtain ⟨hquote, hline⟩ := hplain c (List.mem_cons_self ..)
    rw [List.getLast?_cons_cons] at hlast
    rw [getLast?_cons_or] at h
    by_cases hc : c = '\\'
    · subst hc
      rw [getLast?_cons_or] at h
      refine .escaped (hskipped (fun e he => hplain e (by simp [he])) ?_ h)
      cases letters with
      | nil => simp
      | cons e letters => rwa [List.getLast?_cons_cons] at hlast
    · exact .plain hc hquote hline
        (hnext d (fun e he => hplain e (List.mem_cons_of_mem c he)) hlast h)

/-- The inside of a literal, whatever it escapes. -/
theorem Continues.content {quote : Char} {content : List LiteralChar}
    (hplain : ∀ c, .plain c ∈ content → c ≠ '\\' ∧ c ≠ quote ∧ ¬ (c = '\n' ∧ quote = '\''))
    (h : Continues quote ((content.flatMap LiteralChar.text).getLast?.or previous) rest kinds) :
    Continues quote previous (content.flatMap LiteralChar.text ++ rest)
      (List.replicate (content.flatMap LiteralChar.text).length .code ++ kinds) := by
  induction content generalizing previous with
  | nil => exact h
  | cons c content ih =>
    have hlater : ∀ d, .plain d ∈ content → d ≠ '\\' ∧ d ≠ quote ∧ ¬ (d = '\n' ∧ quote = '\'') :=
      fun d hd => hplain d (List.mem_cons_of_mem c hd)
    cases c with
    | plain c =>
      obtain ⟨hescape, hquote, hline⟩ := hplain c (List.mem_cons_self ..)
      simp only [List.flatMap_cons, LiteralChar.text, List.cons_append, List.nil_append] at h ⊢
      rw [getLast?_cons_or] at h
      exact .plain hescape hquote hline (ih hlater h)
    | escape c =>
      simp only [List.flatMap_cons, LiteralChar.text, List.cons_append, List.nil_append] at h ⊢
      rw [getLast?_cons_or, getLast?_cons_or] at h
      exact .escaped (ih hlater h)

/-- Every single quote among the characters opens a quote or closes it. The last of them opens no
raw string. -/
theorem Scans.word {s : Standing} (hplain : ∀ c ∈ letters, c ≠ '"' ∧ c ≠ '/' ∧ c ≠ '\n')
    (hhides : HidesNoQuote letters)
    (hraw : s.behind letters = .code → rest.head? = some '"' → '(' ∈ rest →
      ∀ c ∈ letters.getLast?, isRawStringPrefix (letters.dropLast.getLast?.or previous) c = false)
    (h : Scans (s.behind letters) (letters.getLast?.or previous) rest kinds) :
    Scans s previous (letters ++ rest) (List.replicate letters.length .code ++ kinds) := by
  induction letters using List.twoStepInduction generalizing s previous with
  | nil => exact h
  | singleton c =>
    obtain ⟨hdouble, hslash, hline⟩ := hplain c (List.mem_cons_self ..)
    have hescape : c ≠ '\\' := fun hc => (hhides.1 hc).1 rfl
    rw [Standing.behind] at h hraw
    by_cases hc : c = '\''
    · subst hc
      rw [if_pos rfl] at h
      cases s with
      | code => exact Reads.quoted (Or.inr rfl) h
      | separator => exact .closed h
    · rw [if_neg hc] at h hraw
      cases s with
      | code =>
        refine Reads.plain ?_ ⟨hdouble, hc⟩ (fun h => absurd h hslash) h
        rintro ⟨-, hquote, hparen, hbegins⟩
        exact absurd hbegins (by simpa using hraw rfl hquote hparen c rfl)
      | separator => exact .plain hescape hc (fun h => hline h.1) h
  | cons_cons c d letters hskipped hnext =>
    obtain ⟨hdouble, hslash, hline⟩ := hplain c (List.mem_cons_self ..)
    have hlater := fun e he => hplain e (List.mem_cons_of_mem c he)
    have hnot : ¬ (c = 'R' ∧ (d :: (letters ++ rest)).head? = some '"' ∧
        '(' ∈ d :: (letters ++ rest) ∧ isRawStringPrefix previous c) :=
      fun hraw => (hlater d (List.mem_cons_self ..)).1 (Option.some.inj hraw.2.1)
    rw [Standing.behind] at h hraw
    rw [getLast?_cons_or] at h
    rw [List.getLast?_cons_cons, List.dropLast_cons_cons, getLast?_cons_or] at hraw
    have hsteps := hnext d hlater hhides.2 hraw h
    by_cases hc : c = '\''
    · subst hc
      rw [if_pos rfl] at hsteps
      cases s with
      | code => exact Reads.quoted (Or.inr rfl) hsteps
      | separator => exact .closed hsteps
    · rw [if_neg hc] at hsteps h hraw
      cases s with
      | code => exact Reads.plain hnot ⟨hdouble, hc⟩ (fun h => absurd h hslash) hsteps
      | separator =>
        by_cases hescape : c = '\\'
        · subst hescape
          have hd : d ≠ '\'' := fun hd => (hhides.1 rfl).2 (by rw [hd]; rfl)
          rw [Standing.behind, if_neg hd] at h hraw
          rw [getLast?_cons_or] at h
          refine .escaped (hskipped (fun e he => hlater e (List.mem_cons_of_mem d he))
            hhides.2.2 ?_ h)
          intro hcode hquote hparen e he
          cases letters with
          | nil => simp at he
          | cons f letters =>
            have hlast := hraw hcode hquote hparen e (by simpa using he)
            rwa [List.dropLast_cons_cons, getLast?_cons_or] at hlast
        · exact .plain hescape hc (fun h => hline h.1) hsteps

end Words

/-- The kinds of a text that is code. -/
def codeKinds (text : List Char) : List RegionKind := List.replicate text.length .code

theorem codeKinds_append (text text' : List Char) :
    codeKinds (text ++ text') = codeKinds text ++ codeKinds text' := by
  rw [codeKinds, List.length_append, List.replicate_add]
  rfl

theorem codeKinds_cons (c : Char) (text : List Char) :
    codeKinds (c :: text) = .code :: codeKinds text := rfl

theorem codeKinds_nil : codeKinds [] = [] := rfl

theorem getLast?_append_cons_or (front : List Char) (c : Char) (word : List Char) :
    (front ++ c :: word).getLast? = word.getLast?.or (some c) := by
  have hlast := getLast?_cons_or c word none
  rw [Option.or_none] at hlast
  rw [List.getLast?_append_of_ne_nil _ (List.cons_ne_nil _ _), hlast]

section Lexemes
variable [PythonCharacters] [CppCharacters] {previous : Option Char} {rest : List Char}
  {kinds : List RegionKind} {s s' : Standing}

omit [PythonCharacters] in
/-- No letter of an identifier is a sign. -/
theorem identifier_ne {c sign : Char} (hc : CppCharacters.isIdentifier c)
    (hascii : sign.toNat < 128) (hsign : (sign.isAlphanum || sign == '_') = false) : c ≠ sign := by
  intro h
  subst h
  rw [CppCharacters.isIdentifier_ascii c hascii, hsign] at hc
  exact Bool.noConfusion hc

omit [PythonCharacters] in
theorem letters_ne {word : List Char} (h : Lexeme.IsLetters word) :
    ∀ c ∈ word, (c ≠ '"' ∧ c ≠ '/' ∧ c ≠ '\n') ∧ c ≠ '\'' := by
  intro c hc
  rcases h.1 c hc with hletter | rfl
  · exact ⟨⟨identifier_ne hletter (by decide) (by decide),
      identifier_ne hletter (by decide) (by decide),
      identifier_ne hletter (by decide) (by decide)⟩,
      identifier_ne hletter (by decide) (by decide)⟩
  · decide

omit [PythonCharacters] in
theorem number_ne {digits : List Char} (h : (Lexeme.number digits).Valid) :
    ∀ c ∈ digits, c ≠ '"' ∧ c ≠ '/' ∧ c ≠ '\n' := by
  intro c hc
  rcases h.2.1 c hc with hletter | hsign
  · exact ⟨identifier_ne hletter (by decide) (by decide),
      identifier_ne hletter (by decide) (by decide),
      identifier_ne hletter (by decide) (by decide)⟩
  · have hsigns : ∀ c ∈ ['.', '+', '-', '\'', '\\'], c ≠ '"' ∧ c ≠ '/' ∧ c ≠ '\n' :=
      List.forall_iff_forall_mem.mp (by decide)
    exact hsigns c hsign

omit [CppCharacters] in
theorem not_opensRaw {text : List Char} (h : opensRaw text rest = false)
    (hquote : rest.head? = some '"') (hparen : '(' ∈ rest) :
    ∀ c ∈ text.getLast?, isRawStringPrefix text.dropLast.getLast? c = false := by
  intro c hc
  rw [opensRaw, hquote, List.contains_iff_mem.mpr hparen] at h
  simpa [Option.mem_def.mp hc] using h

omit [CppCharacters] in
/-- One letter alone opens no raw string there, whatever stands before it. -/
theorem isRawStringPrefix_or {before : Option Char} {c : Char}
    (h : isRawStringPrefix before c = false) (previous : Option Char) :
    isRawStringPrefix (before.or previous) c = false := by
  cases before with
  | some p => exact h
  | none => exact isRawStringPrefix_of_ne (by simpa [isRawStringPrefix] using h) _

/-- An identifier. -/
theorem Scans.letters {word : List Char} (hletters : Lexeme.IsLetters word)
    (hraw : s = .code → rest.head? = some '"' → '(' ∈ rest →
      ∀ c ∈ word.getLast?, isRawStringPrefix (word.dropLast.getLast?.or previous) c = false)
    (h : Scans s (word.getLast?.or previous) rest kinds) :
    Scans s previous (word ++ rest) (codeKinds word ++ kinds) := by
  have hsame : s.behind word = s :=
    Standing.behind_of_not_mem (fun hmem => (letters_ne hletters _ hmem).2 rfl) s
  refine Scans.word (fun c hc => (letters_ne hletters c hc).1)
    (hidesNoQuote_of_named hletters.2) ?_ ?_
  · rwa [hsame]
  · rwa [hsame]

/-- The suffix of a literal. -/
theorem Scans.suffix {front suffix : List Char} {quote : Char}
    (hsuffix : suffix = [] ∨ Lexeme.IsName suffix)
    (hraw : s = .code → opensRaw (front ++ quote :: suffix) rest = false)
    (h : Scans s (suffix.getLast?.or (some quote)) rest kinds) :
    Scans s (some quote) (suffix ++ rest) (codeKinds suffix ++ kinds) := by
  rcases hsuffix with rfl | hname
  · exact h
  · refine .letters hname.2 (fun hcode hquote hparen c hc => ?_) h
    have hlast := not_opensRaw (hraw hcode) hquote hparen c
    obtain ⟨⟨first, more, rfl, -⟩, -⟩ := hname
    rw [getLast?_append_cons_or, Option.mem_def.mp hc,
      List.dropLast_append_of_ne_nil (List.cons_ne_nil _ _), List.dropLast_cons_cons,
      getLast?_append_cons_or] at hlast
    exact hlast rfl

omit [CppCharacters] in
theorem Scans.whitespace {c : Char} (hc : c ∈ whitespaceCharacters)
    (hpasses : (Lexeme.whitespace c).passes s = some s')
    (h : Scans s' (some c) rest kinds) : Scans s previous (c :: rest) (.code :: kinds) := by
  have hplain : ∀ c ∈ whitespaceCharacters, c ≠ '"' ∧ c ≠ '\'' ∧ c ≠ '/' ∧ c ≠ 'R' ∧ c ≠ '\\' :=
    List.forall_iff_forall_mem.mp (by decide)
  obtain ⟨hdouble, hsingle, hslash, hletter, hescape⟩ := hplain c hc
  have hreads (h : Reads (some c) rest kinds) : Reads previous (c :: rest) (.code :: kinds) :=
    .plain (fun hraw => hletter hraw.1) ⟨hdouble, hsingle⟩ (fun h => absurd h hslash) h
  cases s with
  | code =>
    obtain rfl := Option.some.inj hpasses
    exact hreads h
  | separator =>
    rw [Lexeme.passes] at hpasses
    split_ifs at hpasses with hline
    · subst hline
      obtain rfl := Option.some.inj hpasses
      exact .cut rfl (hreads h)
    · obtain rfl := Option.some.inj hpasses
      exact .plain hescape hsingle (fun h => hline h.1) h

omit [CppCharacters] in
theorem Scans.punctuation {c : Char} (hc : c ∈ punctuationCharacters)
    (hslash : c = '/' → rest.head? ≠ some '/' ∧ rest.head? ≠ some '*')
    (hpasses : (Lexeme.punctuation c).passes s = some s')
    (h : Scans s' (some c) rest kinds) : Scans s previous (c :: rest) (.code :: kinds) := by
  have hplain : ∀ c ∈ punctuationCharacters,
      c ≠ '"' ∧ c ≠ '\'' ∧ c ≠ 'R' ∧ c ≠ '\\' ∧ c ≠ '\n' :=
    List.forall_iff_forall_mem.mp (by decide)
  obtain ⟨hdouble, hsingle, hletter, hescape, hline⟩ := hplain c hc
  cases s with
  | code =>
    obtain rfl := Option.some.inj hpasses
    exact Reads.plain (fun hraw => hletter hraw.1) ⟨hdouble, hsingle⟩ hslash h
  | separator =>
    obtain rfl := Option.some.inj hpasses
    exact .plain hescape hsingle (fun h => hline h.1) h

omit [CppCharacters] in
/-- The prefix of a literal opens nothing. -/
theorem Scans.encoding {encoding : List Char} (hencoding : encoding ∈ encodings)
    (h : Scans s (encoding.getLast?.or previous) rest kinds) :
    Scans s previous (encoding ++ rest) (codeKinds encoding ++ kinds) := by
  have hletters := encodings_letters encoding hencoding
  have hsame : s.behind encoding = s :=
    Standing.behind_of_not_mem (fun hmem => (hletters _ hmem).2.1 rfl) s
  refine Scans.word (fun c hc => ?_) (hidesNoQuote_of_not_mem fun hmem => ?_) ?_ (by rwa [hsame])
  · obtain ⟨hdouble, -, hslash, -, -, hline⟩ := hletters c hc
    exact ⟨hdouble, hslash, hline⟩
  · exact (hletters _ hmem).2.2.2.2.1 rfl
  · intro _ _ _ c hc
    exact isRawStringPrefix_of_ne (hletters c (List.mem_of_getLast? hc)).2.2.2.1 _

omit [PythonCharacters] [CppCharacters] in
theorem plain_of_inert {content : List LiteralChar} (h : content.all LiteralChar.isInert) {c : Char}
    (hc : c ∈ content.flatMap LiteralChar.text) : .plain c ∈ content ∧ c ≠ '"' ∧ c ≠ '/' := by
  obtain ⟨entry, hentry, hc⟩ := List.mem_flatMap.mp hc
  have hinert := List.all_eq_true.mp h entry hentry
  cases entry with
  | plain d =>
    obtain rfl := List.mem_singleton.mp hc
    exact ⟨hentry, by simpa [LiteralChar.isInert] using hinert⟩
  | escape _ => exact Bool.noConfusion hinert

theorem Scans.quoted {encoding : List Char} {quote : Char} {content : List LiteralChar}
    {suffix : List Char} (hvalid : (Lexeme.quoted encoding quote content suffix).Valid)
    (hpasses : (Lexeme.quoted encoding quote content suffix).passes s = some s')
    (hraw : s' = .code → opensRaw (Lexeme.quoted encoding quote content suffix).text rest = false)
    (h : Scans s' (suffix.getLast?.or (some quote)) rest kinds) :
    Scans s previous ((Lexeme.quoted encoding quote content suffix).text ++ rest)
      (codeKinds (Lexeme.quoted encoding quote content suffix).text ++ kinds) := by
  obtain ⟨hencoding, hquote, hcontent, -, hsuffix⟩ := hvalid
  have hsign : quote = '"' ∨ quote = '\'' := hquote.imp id And.left
  set inside := content.flatMap LiteralChar.text with hinside
  have hfront : (Lexeme.quoted encoding quote content suffix).text =
      (encoding ++ quote :: inside) ++ quote :: suffix := by simp [Lexeme.text, hinside]
  have htext : (Lexeme.quoted encoding quote content suffix).text ++ rest =
      encoding ++ (quote :: (inside ++ quote :: (suffix ++ rest))) := by simp [hfront]
  have hkinds : codeKinds (Lexeme.quoted encoding quote content suffix).text ++ kinds =
      codeKinds encoding ++
        (.code :: (codeKinds inside ++ .code :: (codeKinds suffix ++ kinds))) := by
    simp only [hfront, codeKinds_append, codeKinds_cons, List.append_assoc, List.cons_append]
  have hbehind : Scans s' (some quote) (suffix ++ rest) (codeKinds suffix ++ kinds) := by
    rw [hfront] at hraw
    exact .suffix hsuffix hraw h
  cases s with
  | code =>
    obtain rfl := Option.some.inj hpasses
    rw [htext, hkinds]
    refine .encoding hencoding (Reads.quoted hsign (.content (fun c hc => ?_) (.closed hbehind)))
    obtain ⟨hne, hescape, hline⟩ := hcontent c hc
    exact ⟨hescape, hne, fun h => hline h.1⟩
  | separator =>
    rw [Lexeme.passes] at hpasses
    split_ifs at hpasses with hdouble hharmless hinert
    · subst hdouble
      obtain rfl := Option.some.inj hpasses
      have hclosing (previous : Option Char) : Continues '\'' previous ('"' :: (suffix ++ rest))
          (.code :: (codeKinds suffix ++ kinds)) :=
        .plain (by decide) (by decide) (by decide) hbehind
      rw [htext, hkinds]
      refine .encoding hencoding
        (.plain (by decide) (by decide) (by decide) (.content (fun c hc => ?_) (hclosing _)))
      obtain ⟨-, hescape, hline⟩ := hcontent c hc
      exact ⟨hescape, fun h => hharmless (h ▸ hc), fun h => hline h.1⟩
    · obtain rfl := hsign.resolve_left hdouble
      obtain rfl := Option.some.inj hpasses
      -- the literal closes the open quote and opens another
      have hopens : Reads ((inside.getLast?).or (some '\'')) ('\'' :: (suffix ++ rest))
          (.code :: (codeKinds suffix ++ kinds)) := .quoted (Or.inr rfl) hbehind
      have hplain : ∀ c ∈ inside, (c ≠ '"' ∧ c ≠ '/' ∧ c ≠ '\n') ∧ c ≠ '\'' ∧ c ≠ '\\' := by
        intro c hc
        obtain ⟨hplain, hdouble, hslash⟩ := plain_of_inert hinert hc
        obtain ⟨hsingle, hescape, hline⟩ := hcontent c hplain
        exact ⟨⟨hdouble, hslash, hline⟩, hsingle, hescape⟩
      have hsame : Standing.code.behind inside = .code :=
        Standing.behind_of_not_mem (fun hmem => (hplain _ hmem).2.1 rfl) _
      have hword : Scans .code (some '\'') (inside ++ '\'' :: (suffix ++ rest))
          (codeKinds inside ++ .code :: (codeKinds suffix ++ kinds)) :=
        .word (fun c hc => (hplain c hc).1)
          (hidesNoQuote_of_not_mem fun hmem => (hplain _ hmem).2.2 rfl)
          (fun _ hdouble => absurd hdouble (by simp)) (by rwa [hsame])
      rw [htext, hkinds]
      exact .encoding hencoding (.closed hword)

omit [CppCharacters] in
/-- The R behind an encoding is taken for a letter. -/
theorem Scans.rawPrefix {encoding : List Char} (hencoding : encoding ∈ encodings)
    (hne : s = .code → encoding ≠ []) (h : Scans s (some 'R') rest kinds) :
    Scans s previous ((encoding ++ ['R']) ++ rest) (codeKinds (encoding ++ ['R']) ++ kinds) := by
  have hletters := encodings_letters encoding hencoding
  have hletter : ∀ c ∈ encoding ++ ['R'],
      (c ≠ '"' ∧ c ≠ '/' ∧ c ≠ '\n') ∧ c ≠ '\'' ∧ c ≠ '\\' := by
    intro c hc
    rcases List.mem_append.mp hc with hc | hc
    · obtain ⟨hdouble, hsingle, hslash, -, hescape, hline⟩ := hletters c hc
      exact ⟨⟨hdouble, hslash, hline⟩, hsingle, hescape⟩
    · rw [List.mem_singleton.mp hc]
      decide
  have hsame : s.behind (encoding ++ ['R']) = s :=
    Standing.behind_of_not_mem (fun hmem => (hletter _ hmem).2.1 rfl) s
  refine .word (fun c hc => (hletter c hc).1)
    (hidesNoQuote_of_not_mem fun hmem => (hletter _ hmem).2.2 rfl) ?_ ?_
  · rw [hsame]
    intro hcode _ _ c _
    obtain ⟨p, hp⟩ := Option.isSome_iff_exists.mp (List.getLast?_isSome.mpr (hne hcode))
    have halnum : ∀ encoding ∈ encodings, encoding.Forall fun p =>
        p.toNat < 128 ∧ p.isAlphanum := by decide
    obtain ⟨hascii, hletter⟩ :=
      List.forall_iff_forall_mem.mp (halnum encoding hencoding) p (List.mem_of_getLast? hp)
    rw [List.dropLast_concat, hp, Option.some_or, isRawStringPrefix,
      PythonCharacters.isalnum_ascii p hascii, hletter]
    rfl
  · rw [hsame, List.getLast?_concat]
    exact h

/-- A raw string is taken as one behind nothing that is a letter, and for a string elsewhere. -/
theorem Scans.raw {encoding delimiter content suffix : List Char}
    (hvalid : (Lexeme.raw encoding delimiter content suffix).Valid)
    (hprevious : ['R', '"'] <+: (Lexeme.raw encoding delimiter content suffix).text →
      isRawStringPrefix previous 'R')
    (hpasses : (Lexeme.raw encoding delimiter content suffix).passes s = some s')
    (hraw : s' = .code →
      opensRaw (Lexeme.raw encoding delimiter content suffix).text rest = false)
    (h : Scans s' (suffix.getLast?.or (some '"')) rest kinds) :
    Scans s previous ((Lexeme.raw encoding delimiter content suffix).text ++ rest)
      (codeKinds (Lexeme.raw encoding delimiter content suffix).text ++ kinds) := by
  obtain ⟨hencoding, -, hdelimiter, hcontent, hsuffix⟩ := hvalid
  have hescape : '\\' ∉ delimiter := fun hmem => hdelimiter _ hmem (by decide)
  set inside := delimiter ++ '(' :: (content ++ ')' :: delimiter) with hinside
  have hends : inside.getLast? ≠ some '\\' := by
    have hsplit : inside = (delimiter ++ '(' :: content) ++ ')' :: delimiter := by simp [hinside]
    rw [hsplit, getLast?_append_cons_or]
    intro hlast
    rcases Option.or_eq_some_iff.mp hlast with hlast | ⟨-, hlast⟩
    · exact hescape (List.mem_of_getLast? hlast)
    · cases hlast
  have hfront : (Lexeme.raw encoding delimiter content suffix).text =
      (encoding ++ 'R' :: '"' :: inside) ++ '"' :: suffix := by simp [Lexeme.text, hinside]
  have htext : (Lexeme.raw encoding delimiter content suffix).text ++ rest =
      (encoding ++ ['R']) ++ ('"' :: (inside ++ '"' :: (suffix ++ rest))) := by simp [hfront]
  have hkinds : codeKinds (Lexeme.raw encoding delimiter content suffix).text ++ kinds =
      codeKinds (encoding ++ ['R']) ++
        (.code :: (codeKinds inside ++ .code :: (codeKinds suffix ++ kinds))) := by
    simp only [hfront, codeKinds_append, codeKinds_cons, codeKinds_nil, List.append_assoc,
      List.cons_append, List.nil_append]
  have hbehind : Scans s' (some '"') (suffix ++ rest) (codeKinds suffix ++ kinds) := by
    rw [hfront] at hraw
    exact .suffix hsuffix hraw h
  cases s with
  | code =>
    rw [Lexeme.passes] at hpasses
    split_ifs at hpasses with hharmless
    obtain rfl := Option.some.inj hpasses
    by_cases hempty : encoding = []
    · subst hempty
      have hopen : '(' ∉ delimiter := fun hmem => hdelimiter _ hmem (by decide)
      have hclose : ')' ∉ delimiter := fun hmem => hdelimiter _ hmem (by decide)
      have hreads := Reads.raw hopen hclose hcontent (hprevious ⟨_, rfl⟩) hbehind
      have hlength : 2 * delimiter.length + content.length + 5 =
          (['R', '"'] ++ (inside ++ ['"'])).length := by
        simp only [hinside, List.length_cons, List.length_append, List.length_nil]
        omega
      have hpiece : codeKinds (Lexeme.raw [] delimiter content suffix).text =
          codeKinds (['R', '"'] ++ (inside ++ ['"'])) ++ codeKinds suffix := by
        rw [← codeKinds_append, hfront]
        simp
      rw [hpiece, List.append_assoc, codeKinds, ← hlength]
      change Reads previous _ _
      simpa [Lexeme.text, rawTerminator] using hreads
    · obtain ⟨hdelimiterQuote, hcontentQuote⟩ := hharmless.resolve_left hempty
      have hletters : ∀ c ∈ inside, c ≠ '"' ∧ ¬ (c = '\n' ∧ '"' = '\'') := by
        intro c hc
        refine ⟨fun h => ?_, by simp⟩
        subst h
        simp [hinside, hdelimiterQuote, hcontentQuote] at hc
      rw [htext, hkinds]
      exact .rawPrefix hencoding (fun _ => hempty)
        (Reads.quoted (Or.inl rfl) (.word hletters hends (.closed hbehind)))
  | separator =>
    rw [Lexeme.passes] at hpasses
    split_ifs at hpasses with hharmless
    obtain ⟨hdelimiterQuote, hcontentQuote, hcontentLine⟩ := hharmless
    obtain rfl := Option.some.inj hpasses
    have hline : '\n' ∉ delimiter := fun hmem => hdelimiter _ hmem (by decide)
    have hletters : ∀ c ∈ inside, c ≠ '\'' ∧ ¬ (c = '\n' ∧ '\'' = '\'') := by
      intro c hc
      refine ⟨fun h => ?_, fun h => ?_⟩
      · subst h
        simp [hinside, hdelimiterQuote, hcontentQuote] at hc
      · obtain ⟨rfl, -⟩ := h
        simp [hinside, hline, hcontentLine] at hc
    have hclosing (previous : Option Char) : Continues '\'' previous ('"' :: (suffix ++ rest))
        (.code :: (codeKinds suffix ++ kinds)) :=
      .plain (by decide) (by decide) (by decide) hbehind
    rw [htext, hkinds]
    exact .rawPrefix hencoding (by simp)
      (.plain (by decide) (by decide) (by decide) (.word hletters hends (hclosing _)))

/-- One lexeme more in front of a text. -/
theorem Scans.lexeme {l : Lexeme} (hvalid : l.Valid) (hends : l.Ends rest)
    (hprevious : ['R', '"'] <+: l.text ++ rest → isRawStringPrefix previous 'R')
    (hreading : l.reading rest s = some s')
    (h : Scans s' (l.text.getLast?.or previous) rest kinds) :
    Scans s previous (l.text ++ rest) (l.kinds ++ kinds) := by
  obtain ⟨hpasses, hkept⟩ := Option.filter_eq_some_iff.mp hreading
  have hraw : s' = .code → opensRaw l.text rest = false := by
    rintro rfl
    simpa using hkept
  cases l with
  | whitespace c => exact .whitespace hvalid hpasses h
  | identifier name =>
    obtain rfl : s = s' := by
      cases s with
      | code => exact Option.some.inj hpasses
      | separator => exact Option.some.inj hpasses
    refine .letters hvalid.2 (fun hcode hquote hparen c hc => ?_) h
    exact isRawStringPrefix_or (not_opensRaw (hraw hcode) hquote hparen c hc) previous
  | number digits =>
    obtain rfl : s.behind digits = s' := by
      cases s with
      | code => exact Option.some.inj hpasses
      | separator => exact Option.some.inj hpasses
    refine .word (number_ne hvalid) (hidesNoQuote_of_named hvalid.2.2.1)
      (fun hcode hquote hparen c hc => ?_) h
    exact isRawStringPrefix_or (not_opensRaw (hraw hcode) hquote hparen c hc) previous
  | punctuation c => exact .punctuation hvalid hends.1 hpasses h
  | quoted encoding quote content suffix =>
    refine .quoted hvalid hpasses hraw ?_
    have hlast : (Lexeme.quoted encoding quote content suffix).text.getLast?.or previous =
        suffix.getLast?.or (some quote) := by
      rw [Lexeme.text, ← List.cons_append, ← List.append_assoc, getLast?_append_cons_or,
        Option.or_assoc, Option.some_or]
    rwa [hlast] at h
  | raw encoding delimiter content suffix =>
    refine .raw hvalid (fun hbegins => hprevious (hbegins.trans (List.prefix_append _ _)))
      hpasses hraw ?_
    have hlast : (Lexeme.raw encoding delimiter content suffix).text.getLast?.or previous =
        suffix.getLast?.or (some '"') := by
      have hfront : (Lexeme.raw encoding delimiter content suffix).text =
          (encoding ++ 'R' :: '"' :: (delimiter ++ '(' :: (content ++ ')' :: delimiter))) ++
            '"' :: suffix := by simp [Lexeme.text]
      rw [hfront, getLast?_append_cons_or, Option.or_assoc, Option.some_or]
    rwa [hlast] at h
  | lineComment content =>
    cases s with
    | separator => cases hpasses
    | code =>
      obtain rfl := Option.some.inj hpasses
      have hrest : rest = [] ∨ rest.head? = some '\n' := by
        cases rest with
        | nil => exact Or.inl rfl
        | cons c rest => exact Or.inr (by rw [List.head?_cons, (hends c rfl).1])
      have hlast : (Lexeme.lineComment content).text.getLast?.or previous =
          some (content.getLast?.getD '/') := by
        simp [Lexeme.text, List.getLast?_cons]
      rw [hlast] at h
      exact Reads.line hvalid hrest h
  | blockComment content =>
    cases s with
    | separator => cases hpasses
    | code =>
      obtain rfl := Option.some.inj hpasses
      have hlast : (Lexeme.blockComment content).text.getLast? = some '/' := by
        simp [Lexeme.text, List.getLast?_cons, List.getLast?_append]
      rw [hlast] at h
      have htext : (Lexeme.blockComment content).text ++ rest =
          '/' :: '*' :: (content ++ '*' :: '/' :: rest) := by simp [Lexeme.text]
      have hlength : (Lexeme.blockComment content).text.length = content.length + 4 := by
        simp [Lexeme.text]
      rw [htext, Lexeme.kinds, hlength]
      exact Reads.block hvalid.1 h

/-- What may stand before a raw string is no letter. -/
theorem Lexeme.Ends.raw {l : Lexeme} (hvalid : l.Valid) (hends : l.Ends rest)
    (h : ['R', '"'] <+: rest) : isRawStringPrefix l.text.getLast? 'R' := by
  obtain ⟨more, rfl⟩ := h
  have hletter : CppCharacters.isIdentifier 'R' :=
    CppCharacters.isIdentifier_ascii 'R' (by decide)
  have hsign {c : Char} (hascii : c.toNat < 128) (hsign : (c.isAlphanum || c == '_') = false) :
      isRawStringPrefix (some c) 'R' := by
    rw [isRawStringPrefix, PythonCharacters.isalnum_ascii c hascii, hsign]
    rfl
  have hsuffix {suffix : List Char} (h : (suffix = [] → NoName (['R', '"'] ++ more)) ∧
      (suffix ≠ [] → NoLetter (['R', '"'] ++ more))) : False := by
    by_cases hempty : suffix = []
    · exact absurd ((h.1 hempty 'R' rfl).1 hletter) (by decide)
    · exact (h.2 hempty 'R' rfl).1 hletter
  cases l with
  | whitespace c =>
    have hplain : ∀ c ∈ whitespaceCharacters,
        c.toNat < 128 ∧ (c.isAlphanum || c == '_') = false :=
      List.forall_iff_forall_mem.mp (by decide)
    exact hsign (hplain c hvalid).1 (hplain c hvalid).2
  | punctuation c =>
    have hplain : ∀ c ∈ punctuationCharacters,
        c.toNat < 128 ∧ (c.isAlphanum || c == '_') = false :=
      List.forall_iff_forall_mem.mp (by decide)
    exact hsign (hplain c hvalid).1 (hplain c hvalid).2
  | identifier name => exact absurd hletter (hends.1 'R' rfl).1
  | number digits => exact absurd hletter (hends.1 'R' rfl).1
  | quoted encoding quote content suffix => exact (hsuffix hends).elim
  | raw encoding delimiter content suffix => exact (hsuffix hends).elim
  | lineComment content => exact absurd (hends 'R' rfl).1 (by decide)
  | blockComment content =>
    have hlast : (Lexeme.blockComment content).text.getLast? = some '/' := by
      simp [Lexeme.text, List.getLast?_cons, List.getLast?_append]
    rw [hlast]
    exact hsign (by decide) (by decide)

end Lexemes
section Texts
variable [PythonCharacters] [CppCharacters]

/-- What stands before the rest of a text allows for a raw string there. -/
def RawStarts (previous : Option Char) (text : List Char) : Prop :=
  ['R', '"'] <+: text → isRawStringPrefix previous 'R'

theorem Lexeme.rawStarts {l : Lexeme} {rest : List Char} (hvalid : l.Valid) (hends : l.Ends rest)
    (previous : Option Char) : RawStarts (l.text.getLast?.or previous) rest := by
  intro h
  rw [Option.or_of_isSome (List.getLast?_isSome.mpr hvalid.text_ne_nil)]
  exact hends.raw hvalid h

theorem scans_of_found {ls : List Lexeme} {s : Standing} {previous : Option Char}
    (hvalid : ∀ l ∈ ls, l.Valid) (hseparated : Separated ls)
    (hstarts : RawStarts previous (textOf ls)) (h : verdict s ls = .found) :
    Scans s previous (textOf ls) (kindsOf ls) := by
  induction ls generalizing s previous with
  | nil =>
    cases s with
    | code => exact Reads.done
    | separator => exact Continues.ended
  | cons l ls ih =>
    obtain ⟨hends, hlater⟩ := hseparated
    have hl := hvalid l (List.mem_cons_self ..)
    rw [verdict] at h
    split_ifs at h with hlost
    split at h
    · rw [textOf_cons] at hstarts ⊢
      rw [kindsOf_cons]
      refine .lexeme hl hends hstarts ‹_› ?_
      exact ih (fun l hmem => hvalid l (List.mem_cons_of_mem _ hmem)) hlater
        (Lexeme.rawStarts hl hends previous) h
    · cases h

/-- Where a comment is lost, its first character is read as code. -/
theorem scans_of_lost {ls : List Lexeme} {s : Standing} {previous : Option Char}
    (hvalid : ∀ l ∈ ls, l.Valid) (hseparated : Separated ls)
    (hstarts : RawStarts previous (textOf ls)) (h : verdict s ls = .lost) :
    ∃ (kinds : List RegionKind) (i : Nat) (kind : RegionKind),
      Scans s previous (textOf ls) kinds ∧ kind ≠ .code ∧ (kindsOf ls)[i]? = some kind ∧
        kinds[i]? = some .code := by
  induction ls generalizing s previous with
  | nil => cases h
  | cons l ls ih =>
    obtain ⟨hends, hlater⟩ := hseparated
    have hl := hvalid l (List.mem_cons_self ..)
    rw [verdict] at h
    rw [textOf_cons] at hstarts ⊢
    rw [kindsOf_cons]
    split_ifs at h with hlost
    · obtain ⟨rfl, hkind⟩ := hlost
      obtain ⟨more, htext⟩ := l.text_of_comment hkind
      obtain ⟨kinds, hmore⟩ := exists_continues '\'' (some '/') (more ++ textOf ls)
      refine ⟨.code :: kinds, 0, l.kind, ?_, hkind, ?_, rfl⟩
      · rw [htext, List.cons_append]
        exact .plain (by decide) (by decide) (by decide) hmore
      · rw [Lexeme.kinds, htext]
        rfl
    · split at h
      · obtain ⟨kinds, i, kind, hscans, hkind, hat, hcode⟩ :=
          ih (fun l hmem => hvalid l (List.mem_cons_of_mem _ hmem)) hlater
            (Lexeme.rawStarts hl hends previous) h
        refine ⟨l.kinds ++ kinds, l.kinds.length + i, kind,
          .lexeme hl hends hstarts ‹_› hscans, hkind, ?_, ?_⟩
        · rwa [List.getElem?_append_right (Nat.le_add_right _ _), Nat.add_sub_cancel_left]
        · rwa [List.getElem?_append_right (Nat.le_add_right _ _), Nat.add_sub_cancel_left]
      · cases h

/-- The lexer finds the comments when it reads every lexeme for what it is, and misses one that
begins behind the open quote of a digit separator. -/
theorem finds_comments (t : CppText) :
    (verdict .code t.lexemes = .found → t.FindsComments) ∧
      (verdict .code t.lexemes = .lost → ¬ t.FindsComments) := by
  have hstarts : RawStarts none (textOf t.lexemes) := fun _ => rfl
  constructor
  · intro h
    have hreads : Reads none t.text (kindsOf t.lexemes) :=
      scans_of_found t.valid t.separated hstarts h
    obtain ⟨spans, hregions, htiles⟩ := regions_of_reads hreads
    refine ⟨spans, hregions, fun kind _ i => ?_⟩
    simpa using htiles.covered_iff kind i
  · intro h hall
    obtain ⟨spans, hregions, hfinds⟩ := hall
    obtain ⟨kinds, i, kind, hreads, hkind, hat, hcode⟩ :=
      scans_of_lost t.valid t.separated hstarts h
    obtain ⟨spans', hregions', htiles⟩ := regions_of_reads hreads
    obtain rfl := Option.some.inj (hregions.symm.trans hregions')
    have hcovered := (htiles.covered_iff kind i).mp ((hfinds kind hkind i).mpr hat)
    rw [Nat.sub_zero, hcode] at hcovered
    exact hkind (Option.some.inj hcovered.2).symm

end Texts

/-- Characters beyond ASCII left out. -/
@[reducible] def asciiPython : PythonCharacters := ⟨Char.isAlphanum, fun _ _ => rfl⟩

@[reducible] def asciiCpp : CppCharacters := ⟨fun c => c.isAlphanum || c == '_', fun _ _ => rfl⟩

section Misread
attribute [local instance] asciiPython asciiCpp

/-- A separator, and a comment on its line. -/
def separatedText : CppText where
  lexemes := [.number ['1', '\'', '0'], .lineComment ['c']]
  valid := List.forall_mem_cons.mpr ⟨⟨by decide,
    List.forall_iff_forall_mem.mp (by decide), by decide, by decide, by decide⟩,
    List.forall_mem_cons.mpr ⟨by simp [Lexeme.Valid], by simp⟩⟩
  separated := ⟨by simp [Lexeme.Ends, Lexeme.NoLetter, textOf, Lexeme.text,
      CppCharacters.isIdentifier],
    by simp [textOf, Lexeme.Ends], trivial⟩

/-- A prefixed raw string with a quote in it. -/
def prefixedText : CppText where
  lexemes := [.raw ['u', '8'] [] ['"'] [], .lineComment ['c']]
  valid := List.forall_mem_cons.mpr ⟨⟨by decide, by decide, by simp, by decide, Or.inl rfl⟩,
    List.forall_mem_cons.mpr ⟨by simp [Lexeme.Valid], by simp⟩⟩
  separated := ⟨by simp [textOf, Lexeme.Ends, Lexeme.NoName, Lexeme.text,
      CppCharacters.isIdentifier],
    by simp [textOf, Lexeme.Ends], trivial⟩

/-- A number with two separators and a suffix, and a literal that looks like a comment. -/
def pairedText : CppText where
  lexemes := [.number ['1', '\'', '0', '\'', '0', 'm', 's'], .punctuation ',',
    .quoted ['u', '8'] '"' [.plain '/', .plain '/'] ['s'], .lineComment ['c']]
  valid := List.forall_mem_cons.mpr ⟨⟨by decide,
    List.forall_iff_forall_mem.mp (by decide), by decide, by decide, by decide⟩,
    List.forall_mem_cons.mpr ⟨(by decide : ',' ∈ punctuationCharacters),
      List.forall_mem_cons.mpr ⟨⟨by decide, by decide, by simp, by decide,
          Or.inr ⟨⟨'s', [], rfl, by decide⟩, List.forall_iff_forall_mem.mp (by decide), rfl⟩⟩,
        List.forall_mem_cons.mpr ⟨by simp [Lexeme.Valid], by simp⟩⟩⟩⟩
  separated := ⟨by simp [Lexeme.Ends, Lexeme.NoLetter, textOf, Lexeme.text,
      CppCharacters.isIdentifier],
    by simp [Lexeme.Ends], by simp [textOf, Lexeme.Ends, Lexeme.NoLetter, Lexeme.text,
      CppCharacters.isIdentifier],
    by simp [textOf, Lexeme.Ends], trivial⟩

theorem finds_comments_paired : pairedText.FindsComments ∧ ¬ separatedText.FindsComments :=
  ⟨(finds_comments pairedText).1 (by decide), (finds_comments separatedText).2 (by decide)⟩

theorem finds_comments_misread : ¬ separatedText.FindsComments ∧ ¬ prefixedText.FindsComments := by
  have hsingle : regions separatedText.text = some [⟨.code, 0, 6⟩] := by decide
  have hraw : regions prefixedText.text = some [⟨.code, 0, 11⟩] := by decide
  constructor
  · intro hall
    obtain ⟨spans, hregions, hfinds⟩ := hall
    obtain rfl := Option.some.inj (hsingle.symm.trans hregions)
    have h := (hfinds .line (by decide) 3).mpr (by decide)
    simp at h
  · intro hall
    obtain ⟨spans, hregions, hfinds⟩ := hall
    obtain rfl := Option.some.inj (hraw.symm.trans hregions)
    have h := (hfinds .line (by decide) 9).mpr (by decide)
    simp at h

end Misread
end LightPhi.Docs
