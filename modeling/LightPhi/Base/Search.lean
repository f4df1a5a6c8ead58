import Mathlib.Data.List.Infix

/-! Search for the first occurrence of a word in a text. -/
namespace LightPhi.Base
variable {α : Type*} [DecidableEq α]

/-- Where the word first occurs. -/
def find (needle : List α) : List α → Option Nat
  | [] => if needle = [] then some 0 else none
  | c :: rest =>
    if needle <+: c :: rest then some 0
    else (find needle rest).map (· + 1)

/-- An occurrence lies in the text. -/
theorem find_add_length_le {needle text : List α} {i : Nat} (h : find needle text = some i) :
    i + needle.length ≤ text.length := by
  induction text generalizing i with
  | nil =>
    rw [find] at h
    split_ifs at h with hempty
    obtain rfl := Option.some.inj h
    simp [hempty]
  | cons c rest ih =>
    rw [find] at h
    split_ifs at h with hbegins
    · obtain rfl := Option.some.inj h
      rw [Nat.zero_add]
      exact hbegins.length_le
    · obtain ⟨j, hj, rfl⟩ := Option.map_eq_some_iff.mp h
      have hle := ih hj
      rw [List.length_cons]
      omega

omit [DecidableEq α] in
/-- A word whose head does not come again in it cannot overlap itself. -/
theorem not_prefix_of_fresh {head : α} {tail before rest : List α} (hfresh : head ∉ tail)
    (hnot : ¬ head :: tail <:+: before) (hne : before ≠ []) :
    ¬ head :: tail <+: before ++ head :: (tail ++ rest) := by
  intro hbegins
  have hlong : before.length < (head :: tail).length := by
    by_contra hshort
    have hinside : head :: tail <+: before :=
      List.prefix_of_prefix_length_le hbegins (List.prefix_append _ _) (not_lt.mp hshort)
    exact hnot hinside.isInfix
  obtain ⟨first, before, rfl⟩ := List.exists_cons_of_ne_nil hne
  -- the head that follows `before` would stand inside the tail
  have hmem : head ∈ tail := by
    obtain ⟨after, hafter⟩ := hbegins
    have hat := congrArg (fun text => text[before.length + 1]?) hafter
    have hin : before.length < tail.length := by simpa using hlong
    simp only [List.cons_append, List.getElem?_cons_succ, List.getElem?_append_left hin,
      List.getElem?_append_right (le_refl _), Nat.sub_self, List.getElem?_cons_zero] at hat
    exact List.mem_of_getElem? hat
  exact hfresh hmem

/-- The first occurrence of such a word is the one behind a text in which it does not occur. -/
theorem find_append_of_fresh {head : α} {tail before : List α} (hfresh : head ∉ tail)
    (hnot : ¬ head :: tail <:+: before) (rest : List α) :
    find (head :: tail) (before ++ head :: (tail ++ rest)) = some before.length := by
  induction before with
  | nil =>
    rw [List.nil_append, find, if_pos ⟨rest, rfl⟩, List.length_nil]
  | cons c before ih =>
    have hlater : ¬ head :: tail <:+: before := fun h => hnot (List.infix_cons h)
    rw [List.cons_append, find, if_neg, ih hlater, Option.map_some, List.length_cons]
    exact not_prefix_of_fresh hfresh hnot (List.cons_ne_nil _ _)

/-- A single letter is found at its first place. -/
theorem find_singleton_append {letter : α} (before : List α) (h : letter ∉ before)
    (rest : List α) : find [letter] (before ++ letter :: rest) = some before.length :=
  find_append_of_fresh (List.not_mem_nil) (by simpa [List.singleton_infix_iff] using h) rest

theorem find_singleton_none {letter : α} {text : List α} (h : letter ∉ text) :
    find [letter] text = none := by
  induction text with
  | nil => rfl
  | cons c rest ih =>
    obtain ⟨hc, hrest⟩ := not_or.mp (mt List.mem_cons.mpr h)
    rw [find, if_neg, ih hrest, Option.map_none]
    intro h
    obtain ⟨after, hafter⟩ := h
    exact hc (List.cons.inj hafter).1

theorem find_singleton_eq_some_iff {letter : α} {text : List α} {i : Nat} :
    find [letter] text = some i ↔
      text[i]? = some letter ∧ ∀ j < i, text[j]? ≠ some letter := by
  induction text generalizing i with
  | nil => simp [find]
  | cons c rest ih =>
    rw [find]
    by_cases hc : c = letter
    · subst hc
      rw [if_pos ⟨rest, rfl⟩, Option.some.injEq]
      constructor
      · intro h
        subst h
        simp
      · intro ⟨_, hfirst⟩
        by_contra hne
        exact hfirst 0 (Nat.pos_of_ne_zero (Ne.symm hne)) rfl
    · have hnot : ¬ [letter] <+: c :: rest := fun ⟨_, h⟩ => hc (List.cons.inj h).1.symm
      rw [if_neg hnot, Option.map_eq_some_iff]
      constructor
      · intro ⟨j, hj, hi⟩
        subst hi
        obtain ⟨hat, hfirst⟩ := ih.mp hj
        refine ⟨by simpa using hat, fun k hk => ?_⟩
        cases k with
        | zero => simpa using hc
        | succ k => simpa using hfirst k (Nat.lt_of_succ_lt_succ hk)
      · intro ⟨hat, hfirst⟩
        cases i with
        | zero => exact absurd (by simpa using hat) hc
        | succ j =>
          refine ⟨j, ih.mpr ⟨by simpa using hat, fun k hk => ?_⟩, rfl⟩
          simpa using hfirst (k + 1) (Nat.succ_lt_succ hk)

end LightPhi.Base
