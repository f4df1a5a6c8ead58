import LightPhi.Base.Brackets
import Mathlib.Data.List.DropRight

/-! Brackets left unclosed: those that a walk over a text has opened and not closed, as the
heights of the text tell it and as a stack keeps it. -/
namespace LightPhi.Base
variable {α β : Type*} (weight : α → Int) (text : List α)

/-- From the place on, up to the other, the text does not come down to where it was there. -/
def Unclosed (n i : Nat) : Prop := ∀ k, i < k → k ≤ n → height weight text i < height weight text k

instance (n i : Nat) : Decidable (Unclosed weight text n i) :=
  decidable_of_iff (∀ k ∈ List.range (n + 1), i < k → height weight text i < height weight text k)
    ⟨fun h k hlow hhigh => h k (List.mem_range.mpr (Nat.lt_succ_of_le hhigh)) hlow,
      fun h k hk hlow => h k hlow (Nat.le_of_lt_succ (List.mem_range.mp hk))⟩

/-- The marked places before the given one that are unclosed there, in order. -/
def unclosed (mark : Nat → Option β) (n : Nat) : List (Nat × β) :=
  (List.range n).filterMap fun i =>
    if Unclosed weight text n i then (mark i).map (i, ·) else none

variable {weight text}

theorem unclosed_succ_iff {n i : Nat} (hi : i < n) :
    Unclosed weight text (n + 1) i ↔
      Unclosed weight text n i ∧ height weight text i < height weight text (n + 1) := by
  constructor
  · intro h
    exact ⟨fun k hlow hhigh => h k hlow (Nat.le_succ_of_le hhigh),
      h (n + 1) (Nat.lt_succ_of_lt hi) le_rfl⟩
  · intro ⟨h, hlast⟩ k hlow hhigh
    rcases Nat.lt_or_eq_of_le hhigh with hless | rfl
    · exact h k hlow (Nat.le_of_lt_succ hless)
    · exact hlast

theorem unclosed_self_iff (n : Nat) :
    Unclosed weight text (n + 1) n ↔ height weight text n < height weight text (n + 1) := by
  constructor
  · intro h
    exact h (n + 1) (Nat.lt_succ_self n) le_rfl
  · intro h k hlow hhigh
    obtain rfl : k = n + 1 := by omega
    exact h

theorem mem_unclosed {mark : Nat → Option β} {n i : Nat} {b : β} :
    (i, b) ∈ unclosed weight text mark n ↔ i < n ∧ Unclosed weight text n i ∧ mark i = some b := by
  rw [unclosed, List.mem_filterMap]
  constructor
  · intro ⟨j, hj, hb⟩
    split_ifs at hb with hopen
    obtain ⟨c, hc, heq⟩ := Option.map_eq_some_iff.mp hb
    obtain ⟨rfl, rfl⟩ := Prod.mk.inj heq
    exact ⟨List.mem_range.mp hj, hopen, hc⟩
  · intro ⟨hi, hopen, hb⟩
    refine ⟨i, List.mem_range.mpr hi, ?_⟩
    rw [if_pos hopen, hb]
    rfl

/-- Of two unclosed places, the later one is the higher. -/
theorem unclosed_pairwise (mark : Nat → Option β) (n : Nat) :
    (unclosed weight text mark n).Pairwise fun a b =>
      a.1 < b.1 ∧ height weight text a.1 < height weight text b.1 := by
  rw [unclosed, List.pairwise_filterMap]
  refine List.pairwise_lt_range.imp_of_mem fun {i j} _ hj hlt a ha b hb => ?_
  split_ifs at ha with hi
  split_ifs at hb
  obtain ⟨_, -, rfl⟩ := Option.map_eq_some_iff.mp ha
  obtain ⟨_, -, rfl⟩ := Option.map_eq_some_iff.mp hb
  exact ⟨hlt, hi j hlt (List.mem_range.mp hj).le⟩

section Step
variable {mark : Nat → Option β} {n : Nat}

/-- One place more: what was unclosed stays so as long as the text is higher. -/
theorem unclosed_succ : unclosed weight text mark (n + 1) =
    (unclosed weight text mark n).filter (fun entry =>
        height weight text entry.1 < height weight text (n + 1)) ++
      (if height weight text n < height weight text (n + 1) then (mark n).map (n, ·)
        else none).toList := by
  have hlast : [n].filterMap (fun i =>
      if Unclosed weight text (n + 1) i then (mark i).map (i, ·) else none) =
      (if height weight text n < height weight text (n + 1) then (mark n).map (n, ·)
        else none).toList := by
    simp only [unclosed_self_iff, List.filterMap_cons, List.filterMap_nil]
    split_ifs
    · cases mark n <;> rfl
    · rfl
  rw [unclosed, List.range_succ, List.filterMap_append, hlast, unclosed, List.filter_filterMap]
  congr 1
  refine List.filterMap_congr fun i hi => ?_
  simp only [unclosed_succ_iff (List.mem_range.mp hi)]
  by_cases hopen : Unclosed weight text n i
  · by_cases hhigher : height weight text i < height weight text (n + 1)
    · cases mark i <;> simp [hopen, hhigher, Option.filter]
    · cases mark i <;> simp [hopen, hhigher, Option.filter]
  · simp [hopen]

theorem height_lt_of_mem {entry : Nat × β} (h : entry ∈ unclosed weight text mark n) :
    height weight text entry.1 < height weight text n := by
  obtain ⟨i, b⟩ := entry
  obtain ⟨hi, hopen, -⟩ := mem_unclosed.mp h
  exact hopen n hi le_rfl

/-- Where the text does not come down, everything stays unclosed, and a marked place where it rises
joins. -/
theorem unclosed_rises (h : height weight text n < height weight text (n + 1)) :
    unclosed weight text mark (n + 1) =
      unclosed weight text mark n ++ ((mark n).map (n, ·)).toList := by
  rw [unclosed_succ, if_pos h, List.filter_eq_self.mpr]
  intro entry hmem
  exact decide_eq_true ((height_lt_of_mem hmem).trans h)

theorem unclosed_level (h : height weight text (n + 1) = height weight text n) :
    unclosed weight text mark (n + 1) = unclosed weight text mark n := by
  rw [unclosed_succ, if_neg (by omega), Option.toList_none, List.append_nil,
    List.filter_eq_self.mpr]
  intro entry hmem
  rw [h]
  exact decide_eq_true (height_lt_of_mem hmem)

theorem unclosed_falls (h : height weight text (n + 1) < height weight text n) :
    unclosed weight text mark (n + 1) = (unclosed weight text mark n).filter fun entry =>
      height weight text entry.1 < height weight text (n + 1) := by
  rw [unclosed_succ, if_neg (by omega), Option.toList_none, List.append_nil]

end Step

section Clamped
variable (weight text)

/-- The depth behind a walk that never goes below zero: with nothing open, nothing is closed. -/
def clamped (text : List α) : Int := text.foldl (fun depth c => max 0 (depth + weight c)) 0

/-- The lowest of the heights up to a place. -/
def lowest : Nat → Int
  | 0 => 0
  | n + 1 => min (lowest n) (height weight text (n + 1))

variable {weight text}

theorem clamped_concat (c : α) :
    clamped weight (text ++ [c]) = max 0 (clamped weight text + weight c) := by
  rw [clamped, List.foldl_concat]
  rfl

theorem clamped_nonneg (text : List α) : 0 ≤ clamped weight text := by
  induction text using List.reverseRecOn with
  | nil => exact le_rfl
  | append_singleton text c _ =>
    rw [clamped_concat]
    exact le_max_left _ _

theorem lowest_le {k n : Nat} (h : k ≤ n) : lowest weight text n ≤ height weight text k := by
  induction n with
  | zero =>
    obtain rfl := Nat.le_zero.mp h
    rw [height_zero]
    rfl
  | succ n ih =>
    rw [lowest]
    rcases Nat.lt_or_eq_of_le h with hless | rfl
    · exact (min_le_left _ _).trans (ih (Nat.le_of_lt_succ hless))
    · exact min_le_right _ _

/-- The text stands at its lowest once more, and not after that. -/
theorem exists_lowest (n : Nat) : ∃ k ≤ n, height weight text k = lowest weight text n ∧
    Unclosed weight text n k := by
  induction n with
  | zero => exact ⟨0, le_rfl, height_zero weight text, fun k hlow hhigh => by omega⟩
  | succ n ih =>
    obtain ⟨k, hk, hheight, hopen⟩ := ih
    rw [lowest]
    by_cases hlast : lowest weight text n < height weight text (n + 1)
    · refine ⟨k, Nat.le_succ_of_le hk, ?_, ?_⟩
      · rw [hheight, min_eq_left hlast.le]
      · intro j hlow hhigh
        rcases Nat.lt_or_eq_of_le hhigh with hless | rfl
        · exact hopen j hlow (Nat.le_of_lt_succ hless)
        · rwa [hheight]
    · refine ⟨n + 1, le_rfl, ?_, fun j hlow hhigh => by omega⟩
      rw [min_eq_right (not_lt.mp hlast)]

theorem clamped_take {n : Nat} (hn : n ≤ text.length) :
    clamped weight (text.take n) = height weight text n - lowest weight text n := by
  induction n with
  | zero => rw [List.take_zero, height_zero, lowest, sub_zero, clamped, List.foldl_nil]
  | succ n ih =>
    have hat : text[n]? = some text[n] := List.getElem?_eq_getElem hn
    rw [List.take_add_one, hat, Option.toList_some, clamped_concat, ih (Nat.le_of_lt hn), lowest,
      height_succ weight hat]
    omega

/-- The depth counts from the last lowest place on: it is not zero where something is unclosed. -/
theorem clamped_pos_iff {n : Nat} (hn : n ≤ text.length) :
    0 < clamped weight (text.take n) ↔ ∃ i < n, Unclosed weight text n i := by
  rw [clamped_take hn]
  constructor
  · intro h
    obtain ⟨k, hk, hheight, hopen⟩ :
        ∃ k ≤ n, height weight text k = lowest weight text n ∧ Unclosed weight text n k :=
      exists_lowest n
    refine ⟨k, lt_of_le_of_ne hk ?_, hopen⟩
    rintro rfl
    omega
  · rintro ⟨i, hi, hopen⟩
    have hrise := hopen n hi le_rfl
    have hlow : lowest weight text n ≤ height weight text i := lowest_le hi.le
    omega

end Clamped

/-- Off the end of an ordered list, as long as a test that grows holds, is all that fails it. -/
theorem rdropWhile_eq_filter {p : β → Bool} {entries : List β}
    (h : entries.Pairwise fun a b => p a = true → p b = true) :
    entries.rdropWhile p = entries.filter fun entry => !p entry := by
  induction entries using List.reverseRecOn with
  | nil => rfl
  | append_singleton entries entry ih =>
    obtain ⟨hbefore, -, hlast⟩ := List.pairwise_append.mp h
    cases hp : p entry with
    | true =>
      rw [List.rdropWhile_concat_pos _ _ _ hp, ih hbefore, List.filter_append]
      simp [hp]
    | false =>
      have hnone : ∀ earlier ∈ entries, p earlier = false := by
        intro earlier hmem
        by_contra htrue
        have := hlast earlier hmem entry (by simp) (by simpa using htrue)
        simp [hp] at this
      rw [List.rdropWhile_concat_neg _ _ _ (by simp [hp]), List.filter_eq_self.mpr]
      intro earlier hmem
      cases List.mem_append.mp hmem with
      | inl hearlier => simp [hnone earlier hearlier]
      | inr hself => simp [List.mem_singleton.mp hself, hp]

end LightPhi.Base
