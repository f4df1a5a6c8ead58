import Mathlib.Data.List.Basic
import Mathlib.Data.Nat.ModEq

/-! A ring of fixed capacity, read as the list of what it holds, oldest first. -/
namespace LightPhi.Base.RingBuffer
variable {α : Type*}

/-- The cell that holds the i-th element. -/
def slot (capacity head i : Nat) : Nat := (head + i) % capacity

theorem slot_lt {capacity : Nat} (h : 0 < capacity) (head i : Nat) :
    slot capacity head i < capacity := Nat.mod_lt _ h

theorem slot_injective {capacity head i j : Nat} (hi : i < capacity) (hj : j < capacity)
    (h : slot capacity head i = slot capacity head j) : i = j := by
  have hm : i ≡ j [MOD capacity] := Nat.ModEq.add_left_cancel' head h
  rwa [Nat.ModEq, Nat.mod_eq_of_lt hi, Nat.mod_eq_of_lt hj] at hm

theorem slot_succ (capacity head i : Nat) :
    slot capacity (slot capacity head 1) i = slot capacity head (i + 1) := by
  simp only [slot, Nat.mod_add_mod]
  congr 1
  omega

section Contents
variable [Inhabited α]

def contents (cells : List α) (head size : Nat) : List α :=
  (List.range size).map fun i => cells.getD (slot cells.length head i) default

@[simp] theorem contents_length (cells : List α) (head size : Nat) :
    (contents cells head size).length = size := by simp [contents]

@[simp] theorem contents_zero (cells : List α) (head : Nat) : contents cells head 0 = [] := rfl

theorem contents_getElem (cells : List α) (head size i : Nat)
    (h : i < (contents cells head size).length) :
    (contents cells head size)[i] = cells.getD (slot cells.length head i) default := by
  simp [contents]

theorem mem_contents {cells : List α} {head size : Nat} {x : α} :
    x ∈ contents cells head size ↔
      ∃ i < size, cells.getD (slot cells.length head i) default = x := by
  simp [contents]

theorem contents_getLast? (cells : List α) (head size : Nat) :
    (contents cells head (size + 1)).getLast? =
      some (cells.getD (slot cells.length head size) default) := by
  simp [contents, List.range_succ]

/-- Writing one free cell leaves what the ring holds alone. -/
theorem contents_set_of_ne (cells : List α) (head size k : Nat) (x : α)
    (h : ∀ i < size, slot cells.length head i ≠ k) :
    contents (cells.set k x) head size = contents cells head size := by
  apply List.ext_getElem
  · simp
  · intro i hi _
    have hk := h i (by simpa using hi)
    simp only [contents_getElem, List.length_set]
    simp [List.getD_eq_getElem?_getD, Ne.symm hk]

/-- A write behind the last element, in a ring that is not full, appends it. -/
theorem contents_push (cells : List α) (head size : Nat) (x : α) (h : size < cells.length) :
    contents (cells.set (slot cells.length head size) x) head (size + 1) =
      contents cells head size ++ [x] := by
  have hold : contents (cells.set (slot cells.length head size) x) head size =
      contents cells head size := by
    apply contents_set_of_ne
    intro i hi he
    have := slot_injective (by omega) h he
    omega
  have hs : slot cells.length head size < cells.length := slot_lt (by omega) _ _
  rw [← hold]
  simp [contents, List.range_succ, hs]

/-- Moving the head over the oldest element removes it. -/
theorem contents_pop (cells : List α) (head size : Nat) :
    contents cells head (size + 1) =
      cells.getD (slot cells.length head 0) default ::
        contents cells (slot cells.length head 1) size := by
  simp only [contents, List.range_succ_eq_map, List.map_cons, List.map_map]
  congr 1
  apply List.map_congr_left
  intro i _
  simp [slot_succ]

end Contents

/-! The same with head, size and capacity in 32 bits. -/

/-- Positions that stay inside the ring and sums of them that stay inside 32 bits. -/
structure WellFormed (cells : List α) (capacity head size : UInt32) : Prop where
  length : cells.length = capacity.toNat
  positive : 0 < capacity.toNat
  bound : capacity.toNat ≤ 2 ^ 31
  head : head.toNat < capacity.toNat
  size : size.toNat ≤ capacity.toNat

section WellFormed
variable {cells : List α} {capacity head size : UInt32}

theorem WellFormed.emptied (h : WellFormed cells capacity head size) :
    WellFormed cells capacity 0 0 :=
  ⟨h.length, h.positive, h.bound, by simpa using h.positive, by simp⟩

theorem WellFormed.tail_toNat (h : WellFormed cells capacity head size)
    (hroom : size.toNat < capacity.toNat) :
    ((head + size) % capacity).toNat =
      slot cells.length head.toNat size.toNat := by
  have hsum : (head + size).toNat = head.toNat + size.toNat := by
    have := h.head
    have := h.bound
    rw [UInt32.toNat_add]
    exact Nat.mod_eq_of_lt (by omega)
  rw [UInt32.toNat_mod, hsum, h.length]
  rfl

theorem WellFormed.next_toNat (h : WellFormed cells capacity head size) :
    ((head + 1) % capacity).toNat = slot cells.length head.toNat 1 := by
  have hsum : (head + 1).toNat = head.toNat + 1 := by
    have := h.head
    have := h.bound
    rw [UInt32.toNat_add, UInt32.toNat_one]
    exact Nat.mod_eq_of_lt (by omega)
  rw [UInt32.toNat_mod, hsum, h.length]
  rfl

theorem WellFormed.pushed (h : WellFormed cells capacity head size)
    (hroom : size.toNat < capacity.toNat) (x : α) :
    WellFormed (cells.set ((head + size) % capacity).toNat x) capacity head (size + 1) := by
  have := h.bound
  refine ⟨by simpa using h.length, h.positive, h.bound, h.head, ?_⟩
  rw [UInt32.toNat_add, UInt32.toNat_one, Nat.mod_eq_of_lt (by omega)]
  omega

theorem WellFormed.contents_pushed [Inhabited α] (h : WellFormed cells capacity head size)
    (hroom : size.toNat < capacity.toNat) (x : α) :
    contents (cells.set ((head + size) % capacity).toNat x) head.toNat
        (size + 1).toNat =
      contents cells head.toNat size.toNat ++ [x] := by
  have := h.bound
  rw [UInt32.toNat_add, UInt32.toNat_one, Nat.mod_eq_of_lt (by omega), h.tail_toNat hroom]
  exact contents_push _ _ _ _ (by rw [h.length]; exact hroom)

theorem size_toNat_pred (hsize : size ≠ 0) : size.toNat = (size - 1).toNat + 1 := by
  have hpos : size.toNat ≠ 0 := fun h => hsize (UInt32.toNat_inj.mp h)
  have hlt := size.toNat_lt
  rw [UInt32.toNat_sub_of_le _ _ (by rw [UInt32.le_iff_toNat_le, UInt32.toNat_one]; omega),
    UInt32.toNat_one]
  omega

theorem WellFormed.popped (h : WellFormed cells capacity head size) (hsize : size ≠ 0) :
    WellFormed cells capacity ((head + 1) % capacity) (size - 1) := by
  have hs := size_toNat_pred hsize
  have := h.size
  refine ⟨h.length, h.positive, h.bound, ?_, by omega⟩
  rw [UInt32.toNat_mod]
  exact Nat.mod_lt _ h.positive

theorem WellFormed.contents_popped [Inhabited α] (h : WellFormed cells capacity head size)
    (hsize : size ≠ 0) :
    contents cells head.toNat size.toNat =
      cells.getD head.toNat default ::
        contents cells ((head + 1) % capacity).toNat (size - 1).toNat := by
  have hslot : slot cells.length head.toNat 0 = head.toNat := by
    have := h.head
    rw [h.length]
    exact Nat.mod_eq_of_lt this
  rw [h.next_toNat, size_toNat_pred hsize, contents_pop, hslot]

end WellFormed
end LightPhi.Base.RingBuffer
