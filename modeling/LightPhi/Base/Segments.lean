import Mathlib.Data.List.Basic

/-! Pieces of one array: what is written over one of them is read back there and nowhere else. -/
namespace LightPhi.Base.Segments
variable {α : Type*}

def segment (xs : List α) (offset count : Nat) : List α := (xs.drop offset).take count

/-- The elements from the offset on are replaced, as many as there are new ones. -/
def overwrite (xs : List α) (offset : Nat) (ys : List α) : List α :=
  xs.take offset ++ ys ++ xs.drop (offset + ys.length)

section Overwrite
variable {xs ys : List α} {offset : Nat} (h : offset + ys.length ≤ xs.length)
include h

theorem length_overwrite : (overwrite xs offset ys).length = xs.length := by
  simp only [overwrite, List.length_append, List.length_take, List.length_drop]
  omega

theorem segment_overwrite : segment (overwrite xs offset ys) offset ys.length = ys := by
  have hlength : (xs.take offset).length = offset := by
    rw [List.length_take]
    omega
  rw [segment, overwrite, List.append_assoc, List.drop_left' hlength, List.take_left]

/-- A piece before the written one is as it was. -/
theorem segment_overwrite_before {start count : Nat} (hbefore : start + count ≤ offset) :
    segment (overwrite xs offset ys) start count = segment xs start count := by
  have hlength : (xs.take offset).length = offset := by
    rw [List.length_take]
    omega
  rw [segment, segment, overwrite, List.append_assoc, List.drop_append_of_le_length (by omega),
    List.take_append_of_le_length (by rw [List.length_drop, hlength]; omega), List.drop_take,
    List.take_take, Nat.min_eq_left (by omega)]

/-- A piece behind the written one is as it was. -/
theorem segment_overwrite_behind {start count : Nat} (hbehind : offset + ys.length ≤ start) :
    segment (overwrite xs offset ys) start count = segment xs start count := by
  have hlength : (xs.take offset ++ ys).length = offset + ys.length := by
    rw [List.length_append, List.length_take]
    omega
  rw [segment, segment, overwrite, List.drop_append, List.drop_of_length_le (by omega),
    List.nil_append, List.drop_drop, hlength]
  congr 2
  omega

end Overwrite

/-- Of pieces of the same size, writing one leaves every other alone. -/
theorem segment_overwrite_ne {xs ys : List α} {size i j count : Nat}
    (h : i * size + ys.length ≤ xs.length) (hsize : ys.length ≤ size) (hcount : count ≤ size)
    (hne : j ≠ i) :
    segment (overwrite xs (i * size) ys) (j * size) count = segment xs (j * size) count := by
  cases Nat.lt_or_gt_of_ne hne with
  | inl hlt =>
    have hstep : (j + 1) * size ≤ i * size := Nat.mul_le_mul_right size hlt
    rw [Nat.succ_mul] at hstep
    exact segment_overwrite_before h (by omega)
  | inr hgt =>
    have hstep : (i + 1) * size ≤ j * size := Nat.mul_le_mul_right size hgt
    rw [Nat.succ_mul] at hstep
    exact segment_overwrite_behind h (by omega)

end LightPhi.Base.Segments
