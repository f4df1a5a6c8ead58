import LightPhi.Base.Brackets
import LightPhi.Docs.Comments

/-! Bodies of declarations. They are looked for in a text whose comments are blanked, but whose
literals are not. -/
namespace LightPhi.Docs
open Base

/-- The loop over the characters from the opening brace on. -/
def closingBrace : Int → List Char → Option Nat
  | _, [] => none
  | depth, c :: rest =>
    if c = '{' then (closingBrace (depth + 1) rest).map (· + 1)
    else if c = '}' then
      if depth - 1 = 0 then some 0 else (closingBrace (depth - 1) rest).map (· + 1)
    else (closingBrace depth rest).map (· + 1)

/-- The bounds of the body that follows a declaration. -/
def bodySpan (blanked : List Char) (offset : Nat) : Option (Nat × Nat) := do
  let distance ← find ['{'] (blanked.drop offset)
  let opening := offset + distance
  let length ← closingBrace 0 (blanked.drop opening)
  some (opening + 1, opening + length)

def weight (c : Char) : Int := if c = '{' then 1 else if c = '}' then -1 else 0

theorem weight_eq_one_iff {c : Char} : weight c = 1 ↔ c = '{' := by
  rw [weight]
  split_ifs with hopen hclose
  · simp [hopen]
  · simp [hclose]
  · simp [hopen]

theorem weight_eq_neg_one_iff {c : Char} : weight c = -1 ↔ c = '}' := by
  rw [weight]
  split_ifs with hopen hclose
  · simp [hopen]
  · simp [hclose]
  · simp [hclose]

theorem neg_one_le_weight (c : Char) : -1 ≤ weight c := by
  rw [weight]
  split_ifs
  · decide
  · decide
  · decide

/-- A character on which the loop does not stop. -/
theorem closingBrace_step (depth : Int) (c : Char) (rest : List Char) (k : Nat)
    (ih : ∀ j, closingBrace (depth + weight c) rest = some j ↔
      rest[j]? = some '}' ∧ depth + weight c + height weight rest (j + 1) = 0 ∧
        ∀ i < j, rest[i]? = some '}' → depth + weight c + height weight rest (i + 1) ≠ 0)
    (hgoes : c = '}' → depth + weight c ≠ 0) :
    (closingBrace (depth + weight c) rest).map (· + 1) = some k ↔
      (c :: rest)[k]? = some '}' ∧ depth + height weight (c :: rest) (k + 1) = 0 ∧
        ∀ i < k, (c :: rest)[i]? = some '}' → depth + height weight (c :: rest) (i + 1) ≠ 0 := by
  simp only [height_cons_succ, ← Int.add_assoc]
  rw [Option.map_eq_some_iff]
  constructor
  · intro ⟨j, hj, hk⟩
    subst hk
    obtain ⟨hat, hzero, hfirst⟩ := (ih j).mp hj
    refine ⟨by simpa using hat, hzero, fun i hi hclose => ?_⟩
    cases i with
    | zero => simpa using hgoes (by simpa using hclose)
    | succ i => exact hfirst i (Nat.lt_of_succ_lt_succ hi) (by simpa using hclose)
  · intro ⟨hat, hzero, hfirst⟩
    cases k with
    | zero => exact absurd (by simpa using hzero) (hgoes (by simpa using hat))
    | succ j =>
      refine ⟨j, (ih j).mpr ⟨by simpa using hat, hzero, fun i hi hclose => ?_⟩, rfl⟩
      exact hfirst (i + 1) (Nat.succ_lt_succ hi) (by simpa using hclose)

/-- The loop stops at the first closing brace that brings the depth to zero. -/
theorem closingBrace_eq_some_iff {depth : Int} {text : List Char} {k : Nat} :
    closingBrace depth text = some k ↔
      text[k]? = some '}' ∧ depth + height weight text (k + 1) = 0 ∧
        ∀ i < k, text[i]? = some '}' → depth + height weight text (i + 1) ≠ 0 := by
  induction text generalizing depth k with
  | nil => simp [closingBrace]
  | cons c rest ih =>
    have hstep := closingBrace_step depth c rest k fun j => ih
    rw [closingBrace]
    split_ifs with hopen hclose hzero
    · subst hopen
      exact hstep (by simp)
    · subst hclose
      rw [Option.some.injEq]
      constructor
      · intro hk
        subst hk
        refine ⟨rfl, ?_, by simp⟩
        rw [height_cons_succ, height_zero, Int.add_zero]
        exact hzero
      · intro ⟨_, _, hfirst⟩
        by_contra hne
        refine hfirst 0 (Nat.pos_of_ne_zero (Ne.symm hne)) rfl ?_
        rw [height_cons_succ, height_zero, Int.add_zero]
        exact hzero
    · subst hclose
      exact hstep fun _ => hzero
    · have hweight : weight c = 0 := by rw [weight, if_neg hopen, if_neg hclose]
      rw [hweight, Int.add_zero] at hstep
      exact hstep fun h => absurd h hclose

/-- The bounds are those of the first opening brace, and of the first closing brace that takes the
height back to where it was. -/
theorem bodySpan_eq_some_iff {blanked : List Char} {offset opening closing : Nat}
    (hoffset : offset ≤ opening) (hlt : opening ≤ closing) :
    bodySpan blanked offset = some (opening + 1, closing) ↔
      blanked[opening]? = some '{' ∧
        (∀ i < opening, offset ≤ i → blanked[i]? ≠ some '{') ∧
        blanked[closing]? = some '}' ∧
        height weight blanked (closing + 1) = height weight blanked opening ∧
        ∀ i < closing, opening ≤ i → blanked[i]? = some '}' →
          height weight blanked (i + 1) ≠ height weight blanked opening := by
  obtain ⟨distance, rfl⟩ := Nat.exists_eq_add_of_le hoffset
  obtain ⟨length, rfl⟩ := Nat.exists_eq_add_of_le hlt
  have hfind : find ['{'] (blanked.drop offset) = some distance ↔
      blanked[offset + distance]? = some '{' ∧
        ∀ i < offset + distance, offset ≤ i → blanked[i]? ≠ some '{' := by
    rw [find_singleton_eq_some_iff, List.getElem?_drop]
    refine and_congr_right fun _ => ⟨fun hfirst i hi hle => ?_, fun hfirst j hj => ?_⟩
    · obtain ⟨j, rfl⟩ := Nat.exists_eq_add_of_le hle
      simpa using hfirst j (by omega)
    · simpa using hfirst (offset + j) (by omega) (by omega)
  have hclosing : closingBrace 0 (blanked.drop (offset + distance)) = some length ↔
      blanked[offset + distance + length]? = some '}' ∧
        height weight blanked (offset + distance + length + 1) =
          height weight blanked (offset + distance) ∧
        ∀ i < offset + distance + length, offset + distance ≤ i → blanked[i]? = some '}' →
          height weight blanked (i + 1) ≠ height weight blanked (offset + distance) := by
    rw [closingBrace_eq_some_iff, List.getElem?_drop, height_drop, Int.zero_add, Int.sub_eq_zero,
      ← Nat.add_assoc]
    refine and_congr_right fun _ => and_congr_right fun _ =>
      ⟨fun hfirst i hi hle => ?_, fun hfirst j hj => ?_⟩
    · obtain ⟨j, rfl⟩ := Nat.exists_eq_add_of_le hle
      have h := hfirst j (by omega)
      rwa [List.getElem?_drop, height_drop, Int.zero_add, Ne, Int.sub_eq_zero,
        ← Nat.add_assoc] at h
    · rw [List.getElem?_drop, height_drop, Int.zero_add, Ne, Int.sub_eq_zero, ← Nat.add_assoc]
      exact hfirst (offset + distance + j) (by omega) (by omega)
  rw [bodySpan]
  constructor
  · intro h
    obtain ⟨distance', hfound, h⟩ := Option.bind_eq_some_iff.mp h
    obtain ⟨length', hclosed, h⟩ := Option.bind_eq_some_iff.mp h
    obtain ⟨hopening, hlength⟩ := Prod.mk.inj (Option.some.inj h)
    obtain rfl : distance' = distance := by omega
    obtain rfl : length' = length := by omega
    obtain ⟨hopen, hbefore⟩ := hfind.mp hfound
    exact ⟨hopen, hbefore, hclosing.mp hclosed⟩
  · intro ⟨hopen, hbefore, hrest⟩
    rw [hfind.mpr ⟨hopen, hbefore⟩]
    simp only [Option.bind_eq_bind, Option.bind_some, hclosing.mpr hrest]

/-- Only the characters up to the closing brace matter. -/
theorem bodySpan_congr {blanked blanked' : List Char} {offset opening closing : Nat}
    (hoffset : offset ≤ opening) (hlt : opening ≤ closing)
    (h : ∀ i ≤ closing, blanked[i]? = blanked'[i]?) :
    bodySpan blanked offset = some (opening + 1, closing) ↔
      bodySpan blanked' offset = some (opening + 1, closing) := by
  have hheight : ∀ k ≤ closing + 1, height weight blanked k = height weight blanked' k := by
    intro k hk
    have htake : blanked.take k = blanked'.take k := by
      apply List.ext_getElem?
      intro i
      rw [List.getElem?_take, List.getElem?_take]
      split_ifs with hi
      · exact h i (by omega)
      · rfl
    rw [height, height, htake]
  rw [bodySpan_eq_some_iff hoffset hlt, bodySpan_eq_some_iff hoffset hlt, h opening hlt,
    h closing le_rfl, hheight (closing + 1) le_rfl, hheight opening (by omega)]
  refine and_congr_right fun _ => and_congr ?_ ?_
  · refine forall₃_congr fun i hi _ => ?_
    rw [h i (by omega)]
  · refine and_congr_right fun _ => and_congr_right fun _ => forall₃_congr fun i hi _ => ?_
    rw [h i hi.le, hheight (i + 1) (by omega)]

/-- Each brace of the third text is one of the first or one of the second. -/
inductive Merges : List Char → List Char → List Char → Prop
  | nil : Merges [] [] []
  | cons {a b c as bs cs} (hsum : weight c = weight a + weight b)
      (hone : weight a = 0 ∨ weight b = 0) (h : Merges as bs cs) :
      Merges (a :: as) (b :: bs) (c :: cs)

namespace Merges
variable {as bs cs as' bs' cs' : List Char}

theorem append (h : Merges as bs cs) (h' : Merges as' bs' cs') :
    Merges (as ++ as') (bs ++ bs') (cs ++ cs') := by
  induction h with
  | nil => exact h'
  | cons hsum hone _ ih => exact .cons hsum hone ih

theorem height_eq (h : Merges as bs cs) (k : Nat) :
    height weight cs k = height weight as k + height weight bs k := by
  induction h generalizing k with
  | nil => simp [height]
  | cons hsum _ _ ih =>
    cases k with
    | zero => simp
    | succ k =>
      simp only [height_cons_succ]
      rw [ih, hsum]
      omega

theorem brace_iff (h : Merges as bs cs) {brace : Char} (hbrace : brace = '{' ∨ brace = '}')
    (i : Nat) : cs[i]? = some brace ↔ as[i]? = some brace ∨ bs[i]? = some brace := by
  induction h generalizing i with
  | nil => simp
  | @cons a b c _ _ _ hsum hone _ ih =>
    cases i with
    | succ i => simpa using ih i
    | zero =>
      simp only [List.getElem?_cons_zero, Option.some.injEq]
      cases hbrace with
      | inl hbrace =>
        subst hbrace
        simp only [← weight_eq_one_iff]
        omega
      | inr hbrace =>
        subst hbrace
        simp only [← weight_eq_neg_one_iff]
        omega

theorem left (text : List Char) : Merges text (List.replicate text.length ' ') text := by
  induction text with
  | nil => exact .nil
  | cons c text ih => exact .cons (Int.add_zero _).symm (Or.inr rfl) ih

theorem right (text : List Char) : Merges (List.replicate text.length ' ') text text := by
  induction text with
  | nil => exact .nil
  | cons c text ih => exact .cons (Int.zero_add _).symm (Or.inl rfl) ih

/-- No brace is left of a comment. -/
theorem blank (text : List Char) : Merges (List.replicate text.length ' ')
    (List.replicate text.length ' ') (text.map blankCharacter) := by
  induction text with
  | nil => exact .nil
  | cons c text ih =>
    refine .cons ?_ (Or.inl rfl) ih
    rw [blankCharacter]
    split_ifs with hc
    · rw [hc]
      rfl
    · rfl

end Merges

/-- The text of the lexemes of one sort, each at its place; the others are blank. -/
def partOf (sort : Lexeme → Bool) (lexemes : List Lexeme) : List Char :=
  lexemes.flatMap fun l => if sort l then l.text else List.replicate l.text.length ' '

/-- What stands outside comments and literals. -/
def outsideOf : List Lexeme → List Char := partOf fun l => l.kind = .code && !l.isLiteral

def literalsOf : List Lexeme → List Char := partOf Lexeme.isLiteral

/-- A blanked text has the braces outside comments and literals, and those in literals. -/
theorem merges_blanked (ls : List Lexeme) :
    Merges (outsideOf ls) (literalsOf ls) (List.zipWith blankAt (kindsOf ls) (textOf ls)) := by
  induction ls with
  | nil => exact .nil
  | cons l ls ih =>
    rw [kindsOf_cons, textOf_cons, List.zipWith_append (by simp [Lexeme.kinds])]
    refine Merges.append ?_ ih
    have hblank : List.zipWith blankAt l.kinds l.text = l.text.map (blankAt l.kind) := by
      rw [Lexeme.kinds, ← List.map_const', List.zipWith_map_left, List.zipWith_self]
    rw [hblank]
    by_cases hkind : l.kind = .code
    · have hsame : l.text.map (blankAt l.kind) = l.text := by
        rw [hkind]
        exact List.map_id' _
      rw [hsame]
      cases hliteral : l.isLiteral with
      | true => simpa [hkind, hliteral] using Merges.right l.text
      | false => simpa [hkind, hliteral] using Merges.left l.text
    · have hliteral : l.isLiteral = false := by
        cases l with
        | lineComment _ | blockComment _ => rfl
        | whitespace _ | identifier _ | number _ | punctuation _ | quoted _ _ _ _ | raw _ _ _ _ =>
          exact absurd rfl hkind
      have hsame : l.text.map (blankAt l.kind) = l.text.map blankCharacter :=
        List.map_congr_left fun c _ => by rw [blankAt, if_neg hkind]
      rw [hsame]
      simpa [hkind, hliteral] using Merges.blank l.text

/-- The next brace from `offset` on is an opening one, and it is matched at `closing`. -/
structure IsBody (outside : List Char) (offset opening closing : Nat) : Prop where
  offset_le : offset ≤ opening
  first : ∀ i < opening, offset ≤ i → outside[i]? ≠ some '{' ∧ outside[i]? ≠ some '}'
  opens : outside[opening]? = some '{'
  closes : outside[closing]? = some '}'
  lt : opening < closing
  inside : ∀ i < closing, opening ≤ i →
    height weight outside opening < height weight outside (i + 1)
  balanced : height weight outside (closing + 1) = height weight outside opening

/-- No literal before the body has an opening brace; those in the body have as many of both, and
never close as many levels as are open. -/
structure HarmlessLiterals (outside literals : List Char) (offset opening closing : Nat) :
    Prop where
  before : ∀ i < opening, offset ≤ i → literals[i]? ≠ some '{'
  inside : ∀ i < closing, opening ≤ i →
    height weight outside opening + height weight literals opening <
      height weight outside (i + 1) + height weight literals (i + 1)
  balanced : height weight literals (closing + 1) = height weight literals opening

theorem IsBody.bodySpan_iff {outside literals blanked : List Char} {offset opening closing : Nat}
    (h : IsBody outside offset opening closing) (hmerges : Merges outside literals blanked) :
    bodySpan blanked offset = some (opening + 1, closing) ↔
      HarmlessLiterals outside literals offset opening closing := by
  have hopen : blanked[opening]? = some '{' :=
    (hmerges.brace_iff (Or.inl rfl) opening).mpr (Or.inl h.opens)
  have hclose : blanked[closing]? = some '}' :=
    (hmerges.brace_iff (Or.inr rfl) closing).mpr (Or.inl h.closes)
  rw [bodySpan_eq_some_iff h.offset_le h.lt.le]
  constructor
  · intro ⟨_, hbefore, _, hbalanced, hinside⟩
    have hup : height weight blanked opening < height weight blanked (opening + 1) := by
      rw [height_succ weight hopen]
      exact Int.lt_succ _
    refine ⟨fun i hi hle hliteral => ?_, fun i hi hle => ?_, ?_⟩
    · exact hbefore i hi hle ((hmerges.brace_iff (Or.inl rfl) i).mpr (Or.inr hliteral))
    · have hdeep := lt_height weight closing neg_one_le_weight hup
        (fun k hk hlt c hc hclosing => hinside k hlt (Nat.le_of_succ_le hk)
          (hc.trans (congrArg some (weight_eq_neg_one_iff.mp hclosing))))
        (Nat.succ_le_succ hle) hi
      rwa [hmerges.height_eq, hmerges.height_eq] at hdeep
    · have hbody := h.balanced
      rw [hmerges.height_eq, hmerges.height_eq] at hbalanced
      omega
  · intro hharmless
    refine ⟨hopen, fun i hi hle hbrace => ?_, hclose, ?_, fun i hi hle _ => ?_⟩
    · cases (hmerges.brace_iff (Or.inl rfl) i).mp hbrace with
      | inl houtside => exact (h.first i hi hle).1 houtside
      | inr hliteral => exact hharmless.before i hi hle hliteral
    · rw [hmerges.height_eq, hmerges.height_eq, h.balanced, hharmless.balanced]
    · rw [hmerges.height_eq, hmerges.height_eq]
      exact (hharmless.inside i hi hle).ne'

/-- No raw string, and no number with a digit separator. -/
def Lexeme.Plain : Lexeme → Prop
  | .raw _ _ _ _ => False
  | .number digits => '\'' ∉ digits
  | _ => True

theorem Lexeme.Plain.passes {l : Lexeme} (h : l.Plain) : l.passes .code = some .code := by
  cases l with
  | number digits => exact congrArg some (Standing.behind_of_not_mem h .code)
  | raw _ _ _ _ => exact h.elim
  | whitespace _ | identifier _ | punctuation _ | quoted _ _ _ _ | lineComment _
  | blockComment _ => rfl

section Plain
variable [PythonCharacters]

/-- No word that ends before the place is taken for the start of a raw string. -/
def UnmistakenTo : Nat → List Lexeme → Prop
  | _, [] => True
  | place, l :: ls => opensRaw l.text (textOf ls) = false ∧
    (l.text.length ≤ place → UnmistakenTo (place - l.text.length) ls)

variable [CppCharacters]

/-- Up to the place the text is read for what it is. -/
theorem reads_unmistaken {ls : List Lexeme} (hplain : ∀ l ∈ ls, l.Plain)
    (hvalid : ∀ l ∈ ls, l.Valid) (hseparated : Separated ls) {previous : Option Char}
    (hstarts : RawStarts previous (textOf ls)) {place : Nat} (h : UnmistakenTo place ls) :
    ∃ kinds, Reads previous (textOf ls) kinds ∧ ∀ i ≤ place, kinds[i]? = (kindsOf ls)[i]? := by
  induction ls generalizing previous place with
  | nil => exact ⟨[], .done, fun _ _ => rfl⟩
  | cons l ls ih =>
    obtain ⟨hends, hlater⟩ := hseparated
    obtain ⟨hopens, hrest⟩ := h
    have hl := hvalid l (List.mem_cons_self ..)
    have hreading : l.reading (textOf ls) .code = some .code := by
      rw [Lexeme.reading, (hplain l (List.mem_cons_self ..)).passes, hopens]
      rfl
    have hstep {kinds : List RegionKind}
        (hreads : Reads (l.text.getLast?.or previous) (textOf ls) kinds) :
        Reads previous (textOf (l :: ls)) (l.kinds ++ kinds) := by
      rw [textOf_cons] at hstarts ⊢
      exact Scans.lexeme hl hends hstarts hreading hreads
    have hlength : l.kinds.length = l.text.length := List.length_replicate
    by_cases hplace : l.text.length ≤ place
    · obtain ⟨kinds, hreads, hsame⟩ :=
        ih (fun l hmem => hplain l (List.mem_cons_of_mem _ hmem))
          (fun l hmem => hvalid l (List.mem_cons_of_mem _ hmem)) hlater
          (Lexeme.rawStarts hl hends previous) (hrest hplace)
      refine ⟨l.kinds ++ kinds, hstep hreads, fun i hi => ?_⟩
      rw [kindsOf_cons]
      by_cases hhere : i < l.kinds.length
      · rw [List.getElem?_append_left hhere, List.getElem?_append_left hhere]
      · have hbehind := not_lt.mp hhere
        rw [List.getElem?_append_right hbehind, List.getElem?_append_right hbehind]
        exact hsame _ (by omega)
    · obtain ⟨kinds, hreads⟩ := exists_reads (l.text.getLast?.or previous) (textOf ls)
      refine ⟨l.kinds ++ kinds, hstep hreads, fun i hi => ?_⟩
      have hhere : i < l.kinds.length := by omega
      rw [kindsOf_cons, List.getElem?_append_left hhere, List.getElem?_append_left hhere]

/-- In a text without raw strings and digit separators the bounds of a body are found when the
braces in literals do no harm, and only then, as long as no word before the end of the body is
taken for the start of a raw string. -/
theorem body_found_iff (t : CppText) (hplain : ∀ l ∈ t.lexemes, l.Plain)
    {offset opening closing : Nat} (h : IsBody (outsideOf t.lexemes) offset opening closing)
    (hwords : UnmistakenTo closing t.lexemes) :
    (blankComments t.text).bind (fun blanked => bodySpan blanked offset) =
        some (opening + 1, closing) ↔
      HarmlessLiterals (outsideOf t.lexemes) (literalsOf t.lexemes) offset opening closing := by
  have hstarts : RawStarts none (textOf t.lexemes) := fun _ => rfl
  obtain ⟨kinds, hreads, hsame⟩ := reads_unmistaken hplain t.valid t.separated hstarts hwords
  have hblanked : blankComments t.text = some (List.zipWith blankAt kinds t.text) :=
    blankComments_of_reads hreads
  have hagree : ∀ i ≤ closing, (List.zipWith blankAt kinds t.text)[i]? =
      (List.zipWith blankAt (kindsOf t.lexemes) (textOf t.lexemes))[i]? := by
    intro i hi
    rw [List.getElem?_zipWith, List.getElem?_zipWith, hsame i hi]
    rfl
  rw [hblanked, Option.bind_some, bodySpan_congr h.offset_le h.lt.le hagree]
  exact h.bodySpan_iff (merges_blanked t.lexemes)

end Plain

section Literals
attribute [local instance] asciiPython asciiCpp

/-- A body with one literal. -/
def bodyText (content : List LiteralChar) (h : (Lexeme.quoted [] '"' content []).Valid) :
    CppText where
  lexemes := [.punctuation '{', .quoted [] '"' content [], .punctuation '}']
  valid := by
    have hbraces : '{' ∈ punctuationCharacters ∧ '}' ∈ punctuationCharacters := by decide
    refine List.forall_mem_cons.mpr ⟨hbraces.1, List.forall_mem_cons.mpr ⟨h, ?_⟩⟩
    exact List.forall_mem_singleton.mpr hbraces.2
  separated := ⟨by simp [Lexeme.Ends], by simp [textOf, Lexeme.Ends, Lexeme.NoName, Lexeme.text,
      CppCharacters.isIdentifier],
    by simp [Lexeme.Ends], trivial⟩

theorem bodyText_plain {content : List LiteralChar}
    (h : (Lexeme.quoted [] '"' content []).Valid) :
    ∀ l ∈ (bodyText content h).lexemes, l.Plain := by
  intro l hmem
  simp only [bodyText, List.mem_cons, List.not_mem_nil, or_false] at hmem
  rcases hmem with rfl | rfl | rfl
  · trivial
  · trivial
  · trivial

/-- Both braces stand in the literal. -/
def balancedText : CppText :=
  bodyText [.plain '{', .plain '}'] (by simp [Lexeme.Valid, encodings])

theorem body_found_iff_balanced :
    (blankComments balancedText.text).bind (fun blanked => bodySpan blanked 0) = some (1, 5) ↔
      HarmlessLiterals (outsideOf balancedText.lexemes) (literalsOf balancedText.lexemes) 0 0 5 :=
  body_found_iff balancedText (bodyText_plain _)
    ⟨by decide, by decide, by decide, by decide, by decide, by decide, by decide⟩
    ⟨by decide, fun _ => ⟨by decide, fun _ => ⟨by decide, fun _ => trivial⟩⟩⟩

/-- Only the closing one does. -/
def closingText : CppText := bodyText [.plain '}'] (by simp [Lexeme.Valid, encodings])

theorem body_not_found : (∀ l ∈ closingText.lexemes, l.Plain) ∧
    IsBody (outsideOf closingText.lexemes) 0 0 4 ∧
    (blankComments closingText.text).bind (fun blanked => bodySpan blanked 0) ≠ some (1, 4) :=
  ⟨bodyText_plain _,
    ⟨by decide, by decide, by decide, by decide, by decide, by decide, by decide⟩, by decide⟩

end Literals
end LightPhi.Docs
