import Mathlib.Algebra.BigOperators.Group.List.Basic
import Mathlib.Algebra.Order.Group.Int
import Mathlib.Algebra.Order.Ring.Int
import Mathlib.Data.List.Basic

/-! Heights of a text whose letters open and close: the sum of their weights up to a place. -/
namespace LightPhi.Base
variable {α : Type*} (weight : α → Int)

/-- The weight of the first letters. -/
def height (text : List α) (k : Nat) : Int := ((text.take k).map weight).sum

@[simp] theorem height_zero (text : List α) : height weight text 0 = 0 := by
  simp [height]

theorem height_cons_succ (c : α) (text : List α) (k : Nat) :
    height weight (c :: text) (k + 1) = weight c + height weight text k := by
  simp [height]

/-- One letter more. -/
theorem height_succ {text : List α} {k : Nat} {c : α} (h : text[k]? = some c) :
    height weight text (k + 1) = height weight text k + weight c := by
  rw [height, height, List.take_add_one, h]
  simp

theorem height_succ_none {text : List α} {k : Nat} (h : text[k]? = none) :
    height weight text (k + 1) = height weight text k := by
  rw [height, height, List.take_add_one, h]
  simp

/-- Behind a place, heights are those before it and those of the rest. -/
theorem height_drop (text : List α) (start k : Nat) :
    height weight (text.drop start) k =
      height weight text (start + k) - height weight text start := by
  rw [height, height, height, List.take_add, List.map_append, List.sum_append]
  omega

/-- Where no letter closes more than one level, a height above a floor comes down to it only by a
letter that closes. -/
theorem lt_height {text : List α} {floor : Int} {start : Nat} (stop : Nat)
    (hweight : ∀ c, -1 ≤ weight c) (hstart : floor < height weight text start)
    (hne : ∀ k, start ≤ k → k < stop → ∀ c ∈ text[k]?, weight c = -1 →
      height weight text (k + 1) ≠ floor) {k : Nat} (hk : start ≤ k) (hstop : k ≤ stop) :
    floor < height weight text k := by
  induction k, hk using Nat.le_induction with
  | base => exact hstart
  | succ k hk ih =>
    have hbefore := ih (Nat.le_of_succ_le hstop)
    cases hat : text[k]? with
    | none => rwa [height_succ_none weight hat]
    | some c =>
      have hafter := height_succ weight hat
      have hlow := hweight c
      by_cases hclose : weight c = -1
      · have hnot := hne k hk hstop c hat hclose
        omega
      · omega

end LightPhi.Base
