import LightPhi.Docs.Lexer

/-! The kinds the lexer reads off a text, turn by turn and character by character. -/
namespace LightPhi.Docs
open Base
variable [PythonCharacters]

/-- The lexer, with `previous` before the text, gives its characters these kinds. -/
inductive Reads : Option Char → List Char → List RegionKind → Prop
  | done {previous} : Reads previous [] []
  | step {previous rest kind kinds} (piece : List Char)
      (hturn : turn previous (piece ++ rest) = (kind, piece.length)) (hne : piece ≠ [])
      (h : Reads piece.getLast? rest kinds) :
      Reads previous (piece ++ rest) (List.replicate piece.length kind ++ kinds)

/-- Behind an opened quote, up to where the literal ends. -/
inductive Continues (quote : Char) : Option Char → List Char → List RegionKind → Prop
  | ended {previous} : Continues quote previous [] []
  | closed {previous rest kinds} (h : Reads (some quote) rest kinds) :
      Continues quote previous (quote :: rest) (.code :: kinds)
  | cut {previous rest kinds} (hquote : quote = '\'') (h : Reads previous ('\n' :: rest) kinds) :
      Continues quote previous ('\n' :: rest) kinds
  | plain {previous c rest kinds} (hescape : c ≠ '\\') (hquote : c ≠ quote)
      (hline : ¬ (c = '\n' ∧ quote = '\'')) (h : Continues quote (some c) rest kinds) :
      Continues quote previous (c :: rest) (.code :: kinds)
  | escaped {previous c rest kinds} (h : Continues quote (some c) rest kinds) :
      Continues quote previous ('\\' :: c :: rest) (.code :: .code :: kinds)
  | hanging {previous} : Continues quote previous ['\\'] [.code]

/-- One turn takes the rest of the literal. -/
theorem Continues.split {quote : Char} (hne : quote ≠ '\\') (hnl : quote ≠ '\n')
    {previous : Option Char} {text : List Char} {kinds : List RegionKind}
    (h : Continues quote previous text kinds) :
    ∃ piece rest kinds', text = piece ++ rest ∧
      kinds = List.replicate piece.length .code ++ kinds' ∧ skipQuoted quote text = piece.length ∧
      Reads (piece.getLast?.or previous) rest kinds' := by
  induction h with
  | ended => exact ⟨[], [], [], rfl, rfl, rfl, .done⟩
  | @closed previous rest kinds h =>
    exact ⟨[quote], rest, kinds, rfl, rfl, by simp [skipQuoted_cons hne], h⟩
  | @cut previous rest kinds hquote h =>
    have hskip : skipQuoted quote ('\n' :: rest) = 0 := by
      rw [skipQuoted_cons (by decide), if_neg hnl.symm, if_pos ⟨rfl, hquote⟩]
    exact ⟨[], '\n' :: rest, kinds, rfl, rfl, hskip, by simpa using h⟩
  | @plain previous c rest kinds hescape hquote hline _ ih =>
    obtain ⟨piece, rest', kinds', rfl, rfl, hskip, hreads⟩ := ih
    refine ⟨c :: piece, rest', kinds', rfl, rfl, ?_, ?_⟩
    · rw [skipQuoted_cons hescape, if_neg hquote, if_neg hline, hskip, List.length_cons]
    · rw [List.getLast?_cons]
      simpa using hreads
  | @escaped previous c rest kinds _ ih =>
    obtain ⟨piece, rest', kinds', rfl, rfl, hskip, hreads⟩ := ih
    refine ⟨'\\' :: c :: piece, rest', kinds', rfl, rfl, ?_, ?_⟩
    · rw [skipQuoted_escaped, hskip]
      rfl
    · rw [List.getLast?_cons_cons, List.getLast?_cons]
      simpa using hreads
  | hanging => exact ⟨['\\'], [], [], rfl, rfl, rfl, .done⟩

theorem Reads.length_eq {previous : Option Char} {text : List Char} {kinds : List RegionKind}
    (h : Reads previous text kinds) : kinds.length = text.length := by
  induction h with
  | done => rfl
  | step _ _ _ _ ih => simp [ih]

/-- The loop, from a place up to which the spans and the pending code tile the text. -/
theorem scan_tiles (before : List Char) {rest : List Char} {kinds : List RegionKind}
    (h : Reads before.getLast? rest kinds) (turns pending : Nat) {spans : List (Span RegionKind)}
    {done : List RegionKind} (hturns : rest.length ≤ turns) (hspans : Tiles 0 spans done)
    (hpending : before.length = done.length + pending) :
    ∃ spans', scan (before ++ rest) turns before.length done.length spans = some spans' ∧
      Tiles 0 spans' (done ++ List.replicate pending .code ++ kinds) := by
  generalize hprevious : before.getLast? = previous at h
  induction h generalizing before turns pending spans done with
  | done =>
    refine ⟨_, scan_ended turns (by simp), ?_⟩
    rw [List.append_nil, List.append_nil, hpending]
    exact hspans.append (by simpa using Tiles.single RegionKind.code done.length pending)
  | @step _ rest kind kinds piece hturn hne _ ih =>
    subst hprevious
    rw [List.length_append] at hturns
    have hpos : 0 < piece.length := List.length_pos_of_ne_nil hne
    obtain ⟨turns, rfl⟩ : ∃ more, turns = more + 1 := ⟨turns - 1, by omega⟩
    have hlast : (before ++ piece).getLast? = piece.getLast? := by
      rw [List.getLast?_append_of_ne_nil _ hne]
    have hindex : before.length < (before ++ (piece ++ rest)).length := by
      simp only [List.length_append]
      omega
    have hhere : turn ((before ++ (piece ++ rest)).take before.length).getLast?
        ((before ++ (piece ++ rest)).drop before.length) = (kind, piece.length) := by
      rw [List.take_left, List.drop_left]
      exact hturn
    have hnext : before.length + piece.length = (before ++ piece).length := by simp
    by_cases hkind : kind = .code
    · subst hkind
      obtain ⟨spans', hscan, htiles⟩ := ih (before ++ piece) turns
        (pending + piece.length) (by omega) hspans (by simp [hpending, Nat.add_assoc]) hlast
      refine ⟨spans', ?_, ?_⟩
      · rw [scan_code turns hindex hhere, hnext, ← List.append_assoc, hscan]
      · rw [List.replicate_add, ← List.append_assoc, List.append_assoc _ _ kinds] at htiles
        exact htiles
    · have hmore : Tiles 0 (spans ++ [⟨.code, done.length, before.length⟩,
          ⟨kind, before.length, before.length + piece.length⟩])
          (done ++ (List.replicate pending .code ++ List.replicate piece.length kind)) := by
        refine hspans.append ?_
        rw [hpending, Nat.zero_add]
        exact .cons .code pending (.single kind _ piece.length)
      obtain ⟨spans', hscan, htiles⟩ := ih (before ++ piece) turns 0 (by omega) hmore
        (by simp [hpending, Nat.add_assoc]) hlast
      refine ⟨spans', ?_, ?_⟩
      · rw [scan_comment turns hindex hkind hhere, hnext, ← List.append_assoc before, ← hscan]
        simp [hpending, Nat.add_assoc]
      · simpa using htiles

theorem regions_of_reads {source : List Char} {kinds : List RegionKind}
    (h : Reads none source kinds) : ∃ spans, regions source = some spans ∧ Tiles 0 spans kinds := by
  obtain ⟨spans, hscan, htiles⟩ :=
    scan_tiles [] h source.length 0 le_rfl .nil rfl
  refine ⟨_, ?_, htiles.filter_nonempty⟩
  rw [regions]
  exact congrArg (Option.map _) hscan

/-- What is left of a character of that kind. -/
def blankAt (kind : RegionKind) (c : Char) : Char := if kind = .code then c else blankCharacter c

theorem blankComments_of_reads {source : List Char} {kinds : List RegionKind}
    (h : Reads none source kinds) :
    blankComments source = some (List.zipWith blankAt kinds source) := by
  obtain ⟨spans, hregions, htiles⟩ := regions_of_reads h
  have hpieces := htiles.flatMap_slice blankAt [] source rfl h.length_eq.symm
  rw [blankComments, hregions, Option.map_some, ← hpieces]
  congr 2
  funext span
  split_ifs with hkind
  · exact (List.map_id' _).symm.trans (List.map_congr_left fun c _ => by rw [hkind]; rfl)
  · exact List.map_congr_left fun c _ => by rw [blankAt, if_neg hkind]

section Turns
variable {previous : Option Char} {c : Char} {rest : List Char} {kinds : List RegionKind}

theorem rawString_eq_none
    (h : ¬ (c = 'R' ∧ rest.head? = some '"' ∧ '(' ∈ rest ∧ isRawStringPrefix previous c)) :
    rawString previous c rest = none := by
  rw [rawString]
  split_ifs with hopens
  · obtain ⟨hletter, hquote, hbegins⟩ := hopens
    have hc : c = 'R' := by
      by_contra hne
      rw [isRawStringPrefix_of_ne hne] at hbegins
      exact Bool.noConfusion hbegins
    have hnot : '(' ∉ c :: rest := by
      intro hmem
      rcases List.mem_cons.mp hmem with hparen | hmem
      · rw [hc] at hparen
        exact absurd hparen (by decide)
      · exact h ⟨hc, hquote, hmem, hbegins⟩
    simp only [find_singleton_none hnot]
    rfl
  · rfl

/-- A character that opens nothing. -/
theorem Reads.plain
    (hraw : ¬ (c = 'R' ∧ rest.head? = some '"' ∧ '(' ∈ rest ∧ isRawStringPrefix previous c))
    (hquote : c ≠ '"' ∧ c ≠ '\'')
    (hslash : c = '/' → rest.head? ≠ some '/' ∧ rest.head? ≠ some '*')
    (h : Reads (some c) rest kinds) : Reads previous (c :: rest) (.code :: kinds) := by
  have hturn : turn previous (c :: rest) = (.code, 1) := by
    simp only [turn, rawString_eq_none hraw, hquote.1, hquote.2, or_self, if_false]
    by_cases hc : c = '/'
    · simp [hc, hslash hc]
    · simp [hc]
  exact Reads.step [c] hturn (List.cons_ne_nil _ _) h

theorem Reads.quoted {quote : Char} (hquote : quote = '"' ∨ quote = '\'')
    (h : Continues quote (some quote) rest kinds) :
    Reads previous (quote :: rest) (.code :: kinds) := by
  have hne : quote ≠ 'R' ∧ quote ≠ '\\' ∧ quote ≠ '\n' := by
    cases hquote with
    | inl hquote => simp [hquote]
    | inr hquote => simp [hquote]
  obtain ⟨piece, rest, kinds, rfl, rfl, hskip, hreads⟩ := h.split hne.2.1 hne.2.2
  have hturn : turn previous (quote :: (piece ++ rest)) = (.code, (quote :: piece).length) := by
    simp only [turn, rawString_eq_none (fun hraw => hne.1 hraw.1), if_pos hquote, hskip,
      List.length_cons]
  refine Reads.step (quote :: piece) hturn (List.cons_ne_nil _ _) ?_
  rw [List.getLast?_cons]
  simpa using hreads

/-- A line comment goes up to the end of its line. -/
theorem Reads.line {content : List Char} (hcontent : '\n' ∉ content)
    (hrest : rest = [] ∨ rest.head? = some '\n')
    (h : Reads (some (content.getLast?.getD '/')) rest kinds) :
    Reads previous ('/' :: '/' :: (content ++ rest))
      (List.replicate (content.length + 2) .line ++ kinds) := by
  have hnot : '\n' ∉ '/' :: '/' :: content := by simpa using hcontent
  have hfound : (find ['\n'] ('/' :: '/' :: (content ++ rest))).getD
      ((content ++ rest).length + 2) = content.length + 2 := by
    cases rest with
    | nil =>
      rw [List.append_nil, find_singleton_none hnot, Option.getD_none]
    | cons newline rest =>
      obtain rfl : newline = '\n' := by simpa using hrest
      rw [← List.cons_append, ← List.cons_append, find_singleton_append _ hnot, Option.getD_some]
      rfl
  have hturn : turn previous ('/' :: '/' :: (content ++ rest)) = (.line, content.length + 2) := by
    simp only [turn, rawString_eq_none (c := '/') (by simp)]
    simpa using hfound
  refine Reads.step ('/' :: '/' :: content) hturn (List.cons_ne_nil _ _) ?_
  rw [List.getLast?_cons_cons, List.getLast?_cons]
  exact h

/-- A block comment goes up to the first sign that closes it. -/
theorem Reads.block {content : List Char} (hcontent : ¬ ['*', '/'] <:+: content)
    (h : Reads (some '/') rest kinds) :
    Reads previous ('/' :: '*' :: (content ++ '*' :: '/' :: rest))
      (List.replicate (content.length + 4) .block ++ kinds) := by
  have hfound : find ['*', '/'] (content ++ '*' :: (['/'] ++ rest)) = some content.length :=
    find_append_of_fresh (by simp) hcontent rest
  have hturn : turn previous ('/' :: '*' :: (content ++ '*' :: '/' :: rest)) =
      (.block, content.length + 4) := by
    simp only [turn, rawString_eq_none (c := '/') (by simp)]
    rw [List.cons_append, List.nil_append] at hfound
    simp [hfound]
  have hpiece : '/' :: '*' :: (content ++ '*' :: '/' :: rest) =
      ('/' :: '*' :: (content ++ ['*', '/'])) ++ rest := by simp
  rw [hpiece] at hturn ⊢
  have hlength : ('/' :: '*' :: (content ++ ['*', '/'])).length = content.length + 4 := by simp
  rw [← hlength] at hturn ⊢
  refine Reads.step _ hturn (List.cons_ne_nil _ _) ?_
  simpa [List.getLast?_cons] using h

/-- The end of a raw string, behind its content. -/
def rawTerminator (delimiter : List Char) : List Char := ')' :: (delimiter ++ ['"'])

theorem rawString_eq {delimiter content : List Char} (hopen : '(' ∉ delimiter)
    (hclose : ')' ∉ delimiter) (hcontent : ¬ rawTerminator delimiter <:+: content)
    (hbegins : isRawStringPrefix previous 'R') :
    rawString previous 'R'
        ('"' :: (delimiter ++ '(' :: (content ++ rawTerminator delimiter ++ rest))) =
      some (2 * delimiter.length + content.length + 5) := by
  set text := '(' :: (content ++ rawTerminator delimiter ++ rest) with htext
  have hclosing : find ['('] ('R' :: '"' :: (delimiter ++ text)) = some (delimiter.length + 2) :=
    find_singleton_append ('R' :: '"' :: delimiter) (by simpa using hopen) _
  have hquote : find ['"'] ('R' :: '"' :: (delimiter ++ text)) = some 1 :=
    find_singleton_append ['R'] (by simp) _
  have hslice : slice ('R' :: '"' :: (delimiter ++ text)) 2 (delimiter.length + 2) = delimiter := by
    rw [Nat.add_comm]
    exact slice_append ['R', '"'] delimiter text
  have hdrop : ('R' :: '"' :: (delimiter ++ text)).drop (delimiter.length + 2) = text := by
    rw [List.drop_succ_cons, List.drop_succ_cons, List.drop_left]
  have hfresh : ')' ∉ delimiter ++ ['"'] := by simpa using hclose
  have hnot : ¬ rawTerminator delimiter <:+: '(' :: content := by
    rw [List.infix_cons_iff]
    intro h
    cases h with
    | inl hhead =>
      obtain ⟨_, hat⟩ := hhead
      simp [rawTerminator] at hat
    | inr hlater => exact hcontent hlater
  have hfound : find (rawTerminator delimiter) text = some (content.length + 1) := by
    have h := find_append_of_fresh hfresh hnot rest
    rw [htext, List.append_assoc]
    exact h
  rw [rawString, if_pos ⟨Or.inr rfl, rfl, hbegins⟩]
  simp only [hclosing, hquote, Option.bind_eq_bind, Option.bind_some, hslice, hdrop]
  rw [← rawTerminator, hfound]
  simp only [rawTerminator, List.length_cons, List.length_append, List.length_nil]
  congr 1
  omega

/-- A raw string goes up to the first occurrence of its own end. -/
theorem Reads.raw {delimiter content : List Char} (hopen : '(' ∉ delimiter)
    (hclose : ')' ∉ delimiter) (hcontent : ¬ rawTerminator delimiter <:+: content)
    (hbegins : isRawStringPrefix previous 'R') (h : Reads (some '"') rest kinds) :
    Reads previous
      ('R' :: '"' :: (delimiter ++ '(' :: (content ++ rawTerminator delimiter ++ rest)))
      (List.replicate (2 * delimiter.length + content.length + 5) .code ++ kinds) := by
  have hturn : turn previous
      ('R' :: '"' :: (delimiter ++ '(' :: (content ++ rawTerminator delimiter ++ rest))) =
        (.code, 2 * delimiter.length + content.length + 5) := by
    rw [turn, rawString_eq hopen hclose hcontent hbegins]
  have hpiece : 'R' :: '"' :: (delimiter ++ '(' :: (content ++ rawTerminator delimiter ++ rest)) =
      ('R' :: '"' :: (delimiter ++ '(' :: (content ++ rawTerminator delimiter))) ++ rest := by simp
  have hlength : ('R' :: '"' :: (delimiter ++ '(' :: (content ++ rawTerminator delimiter))).length =
      2 * delimiter.length + content.length + 5 := by
    simp only [rawTerminator, List.length_cons, List.length_append, List.length_nil]
    omega
  rw [hpiece] at hturn ⊢
  rw [← hlength] at hturn ⊢
  refine Reads.step _ hturn (List.cons_ne_nil _ _) ?_
  have hlast : ('R' :: '"' :: (delimiter ++ '(' :: (content ++ rawTerminator delimiter))).getLast? =
      some '"' := by
    simp [rawTerminator, List.getLast?_cons, List.getLast?_append]
  rwa [hlast]

end Turns

section Progress

omit [PythonCharacters] in
theorem skipQuoted_le (quote : Char) (text : List Char) : skipQuoted quote text ≤ text.length := by
  fun_induction skipQuoted quote text with
  | case1 => exact le_rfl
  | case2 => simp
  | case3 _ rest ih => simpa using ih
  | case4 => simp
  | case5 => simp
  | case6 _ _ _ _ _ ih => simpa using ih

theorem rawString_bounds {previous : Option Char} {c : Char} {rest : List Char} {length : Nat}
    (h : rawString previous c rest = some length) : 0 < length ∧ length ≤ rest.length + 1 := by
  rw [rawString] at h
  split_ifs at h
  obtain ⟨closing, hclosing, h⟩ := Option.bind_eq_some_iff.mp h
  obtain ⟨quote, -, h⟩ := Option.bind_eq_some_iff.mp h
  have hle := find_add_length_le hclosing
  dsimp only at h
  split at h
  · obtain rfl := Option.some.inj h
    simp
  · obtain rfl := Option.some.inj h
    have hend := find_add_length_le ‹_›
    simp only [List.length_cons, List.length_drop, List.length_nil] at hle hend ⊢
    omega

/-- Every turn moves on, and stays in the text. -/
theorem turn_bounds (previous : Option Char) (c : Char) (rest : List Char) :
    0 < (turn previous (c :: rest)).2 ∧ (turn previous (c :: rest)).2 ≤ rest.length + 1 := by
  rw [turn]
  split
  · exact rawString_bounds ‹_›
  · split_ifs with hquote hline hblock
    · exact ⟨Nat.succ_pos _, Nat.succ_le_succ (skipQuoted_le _ _)⟩
    · cases hfound : find ['\n'] (c :: rest) with
      | none => simp
      | some i =>
        have hle := find_add_length_le hfound
        have hpos : i ≠ 0 := by
          intro hzero
          subst hzero
          rw [find] at hfound
          split_ifs at hfound with hbegins
          · obtain ⟨_, hat⟩ := hbegins
            simp [hline.1] at hat
          · simp at hfound
        simp only [Option.getD_some, List.length_cons, List.length_nil] at hle ⊢
        omega
    · split
      · simp
      · have hle := find_add_length_le ‹_›
        cases rest with
        | nil => simp at hblock
        | cons _ _ =>
          simp only [List.tail_cons, List.length_cons, List.length_nil] at hle ⊢
          omega
    · simp

/-- Every text is read to its end. -/
theorem exists_reads (previous : Option Char) (text : List Char) :
    ∃ kinds, Reads previous text kinds := by
  induction hn : text.length using Nat.strong_induction_on generalizing previous text with
  | _ n ih =>
    cases text with
    | nil => exact ⟨[], .done⟩
    | cons c rest =>
      obtain ⟨hpos, hle⟩ := turn_bounds previous c rest
      generalize hturn : turn previous (c :: rest) = outcome at hpos hle
      obtain ⟨kind, length⟩ := outcome
      obtain ⟨piece, rest', htext, hlength⟩ :
          ∃ piece rest', c :: rest = piece ++ rest' ∧ piece.length = length :=
        ⟨_, _, (List.take_append_drop length _).symm, List.length_take_of_le (by simpa using hle)⟩
      rw [htext] at hn hturn ⊢
      rw [← hlength] at hpos hturn
      rw [List.length_append] at hn
      obtain ⟨kinds, hreads⟩ := ih rest'.length (by omega) piece.getLast? rest' rfl
      exact ⟨_, .step _ hturn (List.ne_nil_of_length_pos hpos) hreads⟩

/-- So is every text behind an open quote. -/
theorem exists_continues (quote : Char) (previous : Option Char) (text : List Char) :
    ∃ kinds, Continues quote previous text kinds := by
  fun_induction skipQuoted quote text generalizing previous with
  | case1 => exact ⟨[], .ended⟩
  | case2 => exact ⟨[.code], .hanging⟩
  | case3 c rest ih =>
    obtain ⟨kinds, h⟩ := ih (some c)
    exact ⟨_, .escaped h⟩
  | case4 rest _ =>
    obtain ⟨kinds, h⟩ := exists_reads (some quote) rest
    exact ⟨_, .closed h⟩
  | case5 c rest _ _ hline =>
    obtain ⟨rfl, hquote⟩ := hline
    obtain ⟨kinds, h⟩ := exists_reads previous ('\n' :: rest)
    exact ⟨kinds, .cut hquote h⟩
  | case6 c rest hescape hquote hline ih =>
    obtain ⟨kinds, h⟩ := ih (some c)
    exact ⟨_, .plain hescape hquote hline h⟩

end Progress
end LightPhi.Docs
