import LightPhi.Docs.Scopes

/-! The declaration that follows a comment, and the declarations of a type without its bodies: what
stands inside no bracket left open. -/
namespace LightPhi.Docs
open Base

/-- Nothing before the place is unclosed there. -/
def Outside (weight : Char → Int) (text : List Char) (k : Nat) : Prop :=
  ∀ i < k, ¬ Unclosed weight text k i

instance (weight : Char → Int) (text : List Char) (k : Nat) : Decidable (Outside weight text k) :=
  decidable_of_iff (∀ i ∈ List.range k, ¬ Unclosed weight text k i) (by simp [Outside])

theorem clamped_eq_zero_iff {weight : Char → Int} (before rest : List Char) :
    clamped weight before = 0 ↔ Outside weight (before ++ rest) before.length := by
  have hpos : 0 < clamped weight ((before ++ rest).take before.length) ↔ _ :=
    clamped_pos_iff (by simp)
  rw [List.take_left] at hpos
  have hnonneg : 0 ≤ clamped weight before := clamped_nonneg before
  rw [Outside]
  constructor
  · intro hzero i hi hopen
    have := hpos.mpr ⟨i, hi, hopen⟩
    omega
  · intro hout
    by_contra hne
    obtain ⟨i, hi, hopen⟩ := hpos.mp (by omega)
    exact hout i hi hopen

/-- The type's own declarations, with every method body and initialiser removed. -/
def withoutNestedBlocks : Int → List Char → List Char
  | _, [] => []
  | depth, c :: rest =>
    if c = '{' then withoutNestedBlocks (depth + 1) rest
    else if c = '}' then withoutNestedBlocks (max 0 (depth - 1)) rest
    else if depth = 0 then c :: withoutNestedBlocks depth rest
    else withoutNestedBlocks depth rest

/-- What is kept of a text: no brace, and nothing inside one left open. -/
def Kept (text : List Char) (entry : Char × Nat) : Prop :=
  weight entry.1 = 0 ∧ Outside weight text entry.2

instance (text : List Char) (entry : Char × Nat) : Decidable (Kept text entry) :=
  inferInstanceAs (Decidable (_ ∧ _))

theorem withoutNestedBlocks_from (before rest : List Char) :
    withoutNestedBlocks (clamped weight before) rest =
      ((rest.zipIdx before.length).filter fun entry => Kept (before ++ rest) entry).map
        Prod.fst := by
  induction rest generalizing before with
  | nil => rfl
  | cons c rest ih =>
    have hnext := ih (before ++ [c])
    rw [clamped_concat, List.length_append, List.append_assoc] at hnext
    have hzero : clamped weight before = 0 ↔
        Outside weight (before ++ c :: rest) before.length :=
      clamped_eq_zero_iff before (c :: rest)
    have hnonneg : 0 ≤ clamped weight before := clamped_nonneg before
    rw [withoutNestedBlocks, List.zipIdx_cons]
    split_ifs with hopening hclosing hdepth
    · have hweight : weight c = 1 := weight_eq_one_iff.mpr hopening
      rw [hweight, max_eq_right (by omega)] at hnext
      rw [List.filter_cons_of_neg (by simp [Kept, hweight])]
      exact hnext
    · have hweight : weight c = -1 := weight_eq_neg_one_iff.mpr hclosing
      rw [hweight] at hnext
      rw [List.filter_cons_of_neg (by simp [Kept, hweight])]
      exact hnext
    · have hweight : weight c = 0 := by rw [weight, if_neg hopening, if_neg hclosing]
      rw [hweight, add_zero, max_eq_right hnonneg] at hnext
      have hkept : Kept (before ++ c :: rest) (c, before.length) := ⟨hweight, hzero.mp hdepth⟩
      rw [List.filter_cons_of_pos (by simpa using hkept), List.map_cons]
      exact congrArg (c :: ·) hnext
    · have hweight : weight c = 0 := by rw [weight, if_neg hopening, if_neg hclosing]
      rw [hweight, add_zero, max_eq_right hnonneg] at hnext
      rw [List.filter_cons_of_neg (by simpa [Kept, hweight] using mt hzero.mpr hdepth)]
      exact hnext

theorem withoutNestedBlocks_kept (body : List Char) :
    withoutNestedBlocks 0 body = (body.zipIdx.filter fun entry => Kept body entry).map Prod.fst :=
  withoutNestedBlocks_from [] body

theorem withoutNestedBlocks_plain {text : List Char} (h : ∀ c ∈ text, weight c = 0) :
    withoutNestedBlocks 0 text = text := by
  induction text with
  | nil => rfl
  | cons c text ih =>
    obtain ⟨hfirst, hrest⟩ := List.forall_mem_cons.mp h
    have hopening : c ≠ '{' := by
      rintro rfl
      cases hfirst
    have hclosing : c ≠ '}' := by
      rintro rfl
      cases hfirst
    rw [withoutNestedBlocks, if_neg hopening, if_neg hclosing, if_pos rfl, ih hrest]

/-- A second pass finds nothing to remove. -/
theorem withoutNestedBlocks_again (body : List Char) :
    withoutNestedBlocks 0 (withoutNestedBlocks 0 body) = withoutNestedBlocks 0 body := by
  apply withoutNestedBlocks_plain
  intro c hc
  rw [withoutNestedBlocks_kept] at hc
  obtain ⟨entry, hentry, rfl⟩ := List.mem_map.mp hc
  exact (of_decide_eq_true (List.mem_filter.mp hentry).2).1

/-- However the braces are balanced, what remains is what stands inside none left open, and
removing nested blocks once is enough. -/
theorem withoutNestedBlocks_outside (body : List Char) :
    withoutNestedBlocks 0 body =
        (body.zipIdx.filter fun entry => Kept body entry).map Prod.fst ∧
      withoutNestedBlocks 0 (withoutNestedBlocks 0 body) = withoutNestedBlocks 0 body :=
  ⟨withoutNestedBlocks_kept body, withoutNestedBlocks_again body⟩

/-- What the loop over a declaration counts. -/
def bracketWeight (c : Char) : Int :=
  if c = '(' ∨ c = '[' then 1 else if c = ')' ∨ c = ']' then -1 else 0

/-- What `re.sub(r"\s+", " ", text)` makes of a text. -/
def collapse (behindSpace : Bool) : List Char → List Char
  | [] => []
  | c :: rest =>
    if isspace c then if behindSpace then collapse true rest else ' ' :: collapse true rest
    else c :: collapse false rest

section Declarations
variable [PythonCharacters]

/-- What `^\s*(?:export\s+)?using\b` matches. -/
def isAlias (text : List Char) : Bool :=
  let body := lstrip text
  (behindWord "using".toList ((behindKeyword "export".toList body).getD body)).any fun rest =>
    !rest.head?.any isWord

/-- The loop: how far a declaration goes on behind what was read of it. -/
def declarationLength : List Char → Int → List Char → Nat
  | _, _, [] => 0
  | before, depth, c :: rest =>
    if c = '(' ∨ c = '[' then declarationLength (before ++ [c]) (depth + 1) rest + 1
    else if c = ')' ∨ c = ']' then
      declarationLength (before ++ [c]) (max 0 (depth - 1)) rest + 1
    else if depth = 0 ∧ (c = '{' ∨ c = ';') then 0
    else if depth = 0 ∧ c = '=' ∧ rest.head? ≠ some '=' then
      -- an alias is its right-hand side
      if isAlias before then declarationLength (before ++ [c]) depth rest + 1 else 0
    else declarationLength (before ++ [c]) depth rest + 1

def isBlankChar (c : Char) : Bool := c == ' ' || c == '\t' || c == '\n' || c == '\r'

def declarationStart (blanked : List Char) (offset : Nat) : Nat :=
  offset + ((blanked.drop offset).takeWhile isBlankChar).length

def declarationAfter (blanked source : List Char) (offset : Nat) : Option (List Char × Nat) :=
  let index := declarationStart blanked offset
  if index < blanked.length then
    let text := (blanked.drop index).take (declarationLength [] 0 (blanked.drop index))
    if strip text = [] then none
    else some (collapse false (strip text), (source.take index).count '\n' + 1)
  else none

/-- A declaration ends at a place that is inside no bracket: at a brace, a semicolon, or the last
of some equals signs, unless it is an alias. -/
def EndsDeclaration (text : List Char) (k : Nat) : Prop :=
  Outside bracketWeight text k ∧
    (text[k]? = some '{' ∨ text[k]? = some ';' ∨
      text[k]? = some '=' ∧ text[k + 1]? ≠ some '=' ∧ isAlias (text.take k) = false)

/-- From a place on, the first end of a declaration, or the limit. -/
structure EndsFirst (text : List Char) (start length limit : Nat) : Prop where
  bound : length ≤ limit
  none_before : ∀ k < length, ¬ EndsDeclaration text (start + k)
  ends : length < limit → EndsDeclaration text (start + length)

namespace EndsFirst
variable {text : List Char} {start length limit : Nat}

theorem here (h : EndsDeclaration text start) : EndsFirst text start 0 limit where
  bound := Nat.zero_le limit
  none_before k hk := absurd hk (Nat.not_lt_zero k)
  ends _ := h

theorem step (hnot : ¬ EndsDeclaration text start) (h : EndsFirst text (start + 1) length limit) :
    EndsFirst text start (length + 1) (limit + 1) where
  bound := Nat.succ_le_succ h.bound
  none_before k hk := by
    cases k with
    | zero => exact hnot
    | succ k =>
      rw [Nat.add_comm k 1, ← Nat.add_assoc]
      exact h.none_before k (Nat.lt_of_succ_lt_succ hk)
  ends hlt := by
    rw [Nat.add_comm length 1, ← Nat.add_assoc]
    exact h.ends (Nat.lt_of_succ_lt_succ hlt)

end EndsFirst

theorem endsDeclaration_here (before : List Char) (c : Char) (rest : List Char) :
    EndsDeclaration (before ++ c :: rest) before.length ↔ clamped bracketWeight before = 0 ∧
      (c = '{' ∨ c = ';' ∨ c = '=' ∧ rest.head? ≠ some '=' ∧ isAlias before = false) := by
  have hat : (before ++ c :: rest)[before.length]? = some c := by simp
  have hnext : (before ++ c :: rest)[before.length + 1]? = rest.head? := by
    rw [List.getElem?_append_right (Nat.le_succ _), Nat.succ_sub (le_refl _), Nat.sub_self]
    cases rest with
    | nil => rfl
    | cons d rest => rfl
  have hbefore : (before ++ c :: rest).take before.length = before := List.take_left
  rw [EndsDeclaration, clamped_eq_zero_iff before (c :: rest), hat, hnext, hbefore]
  simp only [Option.some.injEq]

theorem declarationLength_endsFirst (before rest : List Char) :
    EndsFirst (before ++ rest) before.length
      (declarationLength before (clamped bracketWeight before) rest) rest.length := by
  induction rest generalizing before with
  | nil =>
    exact ⟨le_rfl, fun k hk => absurd hk (Nat.not_lt_zero k), fun h => absurd h (lt_irrefl 0)⟩
  | cons c rest ih =>
    have hnext := ih (before ++ [c])
    have hnonneg : 0 ≤ clamped bracketWeight before := clamped_nonneg before
    have hhere := endsDeclaration_here before c rest
    rw [clamped_concat, List.length_append, List.length_singleton, List.append_assoc,
      List.singleton_append] at hnext
    have plain (hopening : ¬ (c = '(' ∨ c = '[')) (hclosing : ¬ (c = ')' ∨ c = ']')) :
        bracketWeight c = 0 := by
      rw [bracketWeight, if_neg hopening, if_neg hclosing]
    rw [declarationLength]
    split_ifs with hopening hclosing hstop hequals halias
    · have hweight : bracketWeight c = 1 := by rw [bracketWeight, if_pos hopening]
      rw [hweight, max_eq_right (by omega)] at hnext
      refine EndsFirst.step ?_ hnext
      rw [hhere]
      rcases hopening with rfl | rfl <;> simp
    · have hweight : bracketWeight c = -1 := by
        rw [bracketWeight, if_neg hopening, if_pos hclosing]
      rw [hweight] at hnext
      refine EndsFirst.step ?_ hnext
      rw [hhere]
      rcases hclosing with rfl | rfl <;> simp
    · apply EndsFirst.here
      rw [hhere]
      tauto
    · rw [plain hopening hclosing, add_zero, max_eq_right hnonneg] at hnext
      refine EndsFirst.step ?_ hnext
      rw [hhere]
      rintro ⟨-, rfl | rfl | hends⟩
      · cases hequals.2.1
      · cases hequals.2.1
      · rw [halias] at hends
        cases hends.2.2
    · apply EndsFirst.here
      rw [hhere]
      exact ⟨hequals.1, Or.inr (Or.inr ⟨hequals.2.1, hequals.2.2, by simpa using halias⟩)⟩
    · rw [plain hopening hclosing, add_zero, max_eq_right hnonneg] at hnext
      refine EndsFirst.step ?_ hnext
      rw [hhere]
      tauto

/-- The declaration that follows a place: where it starts, behind blanks, and where it ends. -/
structure IsDeclaration (blanked : List Char) (offset start stop : Nat) : Prop where
  after : offset ≤ start
  blank : ∀ k, offset ≤ k → k < start → ∀ c ∈ blanked[k]?, isBlankChar c
  begins : ∃ c, blanked[start]? = some c ∧ isBlankChar c = false
  bounds : start ≤ stop ∧ stop ≤ blanked.length
  none_before : ∀ k, start ≤ k → k < stop → ¬ EndsDeclaration (blanked.drop start) (k - start)
  ends : stop < blanked.length → EndsDeclaration (blanked.drop start) (stop - start)

section Places
variable {blanked : List Char} {offset start stop start' stop' : Nat}

theorem IsDeclaration.start_le (h : IsDeclaration blanked offset start stop)
    (h' : IsDeclaration blanked offset start' stop') : start ≤ start' := by
  by_contra hlater
  obtain ⟨c, hc, hnot⟩ := h'.begins
  have hblank := h.blank start' h'.after (not_le.mp hlater) c (by rw [hc]; rfl)
  rw [hnot] at hblank
  cases hblank

theorem IsDeclaration.stop_le (h : IsDeclaration blanked offset start stop)
    (h' : IsDeclaration blanked offset start stop') : stop ≤ stop' := by
  by_contra hlater
  have hlater := not_le.mp hlater
  exact h.none_before stop' h'.bounds.1 hlater (h'.ends (lt_of_lt_of_le hlater h.bounds.2))

theorem IsDeclaration.unique (h : IsDeclaration blanked offset start stop)
    (h' : IsDeclaration blanked offset start' stop') : start = start' ∧ stop = stop' := by
  obtain rfl := le_antisymm (h.start_le h') (h'.start_le h)
  exact ⟨rfl, le_antisymm (h.stop_le h') (h'.stop_le h)⟩

omit [PythonCharacters] in
theorem isBlankChar_of_lt {k : Nat} (hk : offset ≤ k) (hlt : k < declarationStart blanked offset)
    {c : Char} (hc : blanked[k]? = some c) : isBlankChar c := by
  obtain ⟨i, rfl⟩ := Nat.exists_eq_add_of_le hk
  rw [← List.getElem?_drop, ← List.takeWhile_append_dropWhile (p := isBlankChar)
    (l := blanked.drop offset), List.getElem?_append_left (Nat.lt_of_add_lt_add_left hlt)] at hc
  exact List.mem_takeWhile_imp (List.mem_of_getElem? hc)

omit [PythonCharacters] in
theorem not_isBlankChar_start {c : Char} (hc : blanked[declarationStart blanked offset]? = some c) :
    isBlankChar c = false := by
  rw [declarationStart, ← List.getElem?_drop, getElem?_length_takeWhile] at hc
  have hnot := List.head?_dropWhile_not isBlankChar (blanked.drop offset)
  rw [hc] at hnot
  simpa using hnot

theorem isDeclaration_start (h : declarationStart blanked offset < blanked.length) :
    IsDeclaration blanked offset (declarationStart blanked offset)
      (declarationStart blanked offset +
        declarationLength [] 0 (blanked.drop (declarationStart blanked offset))) := by
  have hends : EndsFirst (blanked.drop (declarationStart blanked offset)) 0
      (declarationLength [] 0 (blanked.drop (declarationStart blanked offset)))
      (blanked.drop (declarationStart blanked offset)).length :=
    declarationLength_endsFirst [] _
  rw [List.length_drop] at hends
  have hbound := hends.bound
  have hat := List.getElem?_eq_getElem h
  refine ⟨Nat.le_add_right _ _, ?_, ⟨_, hat, not_isBlankChar_start hat⟩,
    ⟨Nat.le_add_right _ _, by omega⟩, ?_, ?_⟩
  · intro k hk hlt c hc
    exact isBlankChar_of_lt hk hlt hc
  · intro k hk hlt
    have hnot := hends.none_before (k - declarationStart blanked offset) (by omega)
    rwa [Nat.zero_add] at hnot
  · intro hlt
    have hlast := hends.ends (by omega)
    rw [Nat.add_sub_cancel_left]
    rwa [Nat.zero_add] at hlast

end Places

/-- What is found is the text of the declaration that follows, in one line, with its line number. -/
theorem declarationAfter_eq_some_iff {blanked source : List Char} {offset : Nat} {text : List Char}
    {line : Nat} : declarationAfter blanked source offset = some (text, line) ↔
      ∃ start stop, IsDeclaration blanked offset start stop ∧
        strip (slice blanked start stop) ≠ [] ∧
        collapse false (strip (slice blanked start stop)) = text ∧
        (source.take start).count '\n' + 1 = line := by
  have hslice (start length : Nat) :
      slice blanked start (start + length) = (blanked.drop start).take length := by
    rw [slice, List.drop_take, Nat.add_sub_cancel_left]
  rw [declarationAfter]
  dsimp only
  split_ifs with hstart hblank
  · simp only [false_iff]
    rintro ⟨start, stop, h, hne, -⟩
    obtain ⟨rfl, rfl⟩ := (isDeclaration_start hstart).unique h
    rw [hslice] at hne
    exact hne hblank
  · rw [Option.some.injEq, Prod.mk.injEq]
    constructor
    · rintro ⟨rfl, rfl⟩
      exact ⟨_, _, isDeclaration_start hstart, by rwa [hslice], by rw [hslice], rfl⟩
    · rintro ⟨start, stop, h, -, rfl, rfl⟩
      obtain ⟨rfl, rfl⟩ := (isDeclaration_start hstart).unique h
      rw [hslice]
      exact ⟨rfl, rfl⟩
  · simp only [false_iff]
    rintro ⟨start, stop, h, -⟩
    obtain ⟨c, hc, hnot⟩ := h.begins
    have hlt : start < declarationStart blanked offset :=
      lt_of_lt_of_le (List.getElem?_eq_some_iff.mp hc).1 (not_lt.mp hstart)
    rw [isBlankChar_of_lt h.after hlt hc] at hnot
    cases hnot

end Declarations

end LightPhi.Docs
