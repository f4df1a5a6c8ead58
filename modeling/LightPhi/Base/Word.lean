import Mathlib.Algebra.Group.Nat.Defs
import Mathlib.Order.Lattice

/-! Unsigned machine words as a linear order, and counting on a word that wraps. -/
namespace LightPhi.Base.Word

instance linearOrder : LinearOrder UInt64 where
  le_refl _ := UInt64.le_refl _
  le_trans _ _ _ := UInt64.le_trans
  lt_iff_le_not_ge a b := by simp only [UInt64.lt_iff_toNat_lt, UInt64.le_iff_toNat_le]; omega
  le_antisymm _ _ := UInt64.le_antisymm
  le_total := UInt64.le_total
  toDecidableLE := inferInstance
  toDecidableLT := inferInstance
  toDecidableEq := inferInstance

theorem toNat_ofNat_lt {n : Nat} (h : n < 2 ^ 64) : (UInt64.ofNat n).toNat = n := by
  simpa using h

theorem ofNat_lt_ofNat {m n : Nat} (h : m < n) (hn : n < 2 ^ 64) :
    UInt64.ofNat m < UInt64.ofNat n := by
  rw [UInt64.lt_iff_toNat_lt, toNat_ofNat_lt hn, toNat_ofNat_lt (h.trans hn)]
  exact h

theorem ofNat_ne_zero {n : Nat} (h : 0 < n) (hn : n < 2 ^ 64) : UInt64.ofNat n ≠ 0 :=
  (ofNat_lt_ofNat h hn).ne'

theorem pos_iff_ne_zero (a : UInt64) : 0 < a ↔ a ≠ 0 := by
  rw [UInt64.lt_iff_toNat_lt, ne_eq, ← UInt64.toNat_inj, UInt64.toNat_zero]
  omega

theorem toNat_add_one {a : UInt64} (h : a.toNat + 1 < 2 ^ 64) : (a + 1).toNat = a.toNat + 1 := by
  rw [UInt64.toNat_add, UInt64.toNat_one]
  exact Nat.mod_eq_of_lt h

theorem lt_add_one {a : UInt64} (h : a.toNat + 1 < 2 ^ 64) : a < a + 1 := by
  rw [UInt64.lt_iff_toNat_lt, toNat_add_one h]
  omega

/-- Counting on goes up from every word but the last. -/
theorem lt_add_one_iff (a : UInt64) : a < a + 1 ↔ a ≠ 0xFFFFFFFFFFFFFFFF := by
  constructor
  · intro h heq
    subst heq
    exact absurd h (by decide)
  · intro h
    have hne : a.toNat ≠ 2 ^ 64 - 1 := fun he => h (UInt64.toNat_inj.mp he)
    have := a.toNat_lt
    exact lt_add_one (by omega)

/-! Masks. -/

/-- Whether a mask has all the requested bits. -/
def contains (mask bits : UInt16) : Bool := mask &&& bits == bits

theorem contains_or_left {mask bits : UInt16} (more : UInt16) (h : contains mask bits) :
    contains (mask ||| more) bits := by
  rw [contains, beq_iff_eq, ← UInt16.toBitVec_inj] at h ⊢
  simp only [UInt16.toBitVec_and, UInt16.toBitVec_or] at h ⊢
  ext i hi
  have hbit := congrArg (fun b => b[i]) h
  simp only [BitVec.getElem_and, BitVec.getElem_or, Bool.and_eq_right_iff_imp] at hbit ⊢
  exact fun hb => by simp [hbit hb]

theorem contains_or_right (mask bits : UInt16) : contains (mask ||| bits) bits := by
  rw [contains, beq_iff_eq, ← UInt16.toBitVec_inj]
  simp only [UInt16.toBitVec_and, UInt16.toBitVec_or]
  ext i hi
  simp only [BitVec.getElem_and, BitVec.getElem_or, Bool.and_eq_right_iff_imp]
  exact fun hb => by simp [hb]

theorem contains_zero (mask : UInt16) : contains mask 0 := by simp [contains]

theorem contains_or_iff (mask bits more : UInt16) :
    contains mask (bits ||| more) ↔ contains mask bits ∧ contains mask more := by
  simp only [contains, beq_iff_eq, ← UInt16.toBitVec_inj, UInt16.toBitVec_and, UInt16.toBitVec_or]
  constructor
  · intro h
    constructor
    all_goals
      ext i hi
      have hbit := congrArg (fun b => b[i]) h
      simp only [BitVec.getElem_and, BitVec.getElem_or, Bool.and_eq_right_iff_imp] at hbit ⊢
      exact fun hb => hbit (by simp [hb])
  · intro h
    ext i hi
    have hbits := congrArg (fun b => b[i]) h.1
    have hmore := congrArg (fun b => b[i]) h.2
    simp only [BitVec.getElem_and, BitVec.getElem_or, Bool.and_eq_right_iff_imp] at hbits hmore ⊢
    intro hb
    cases (Bool.or_eq_true _ _).mp hb with
    | inl hb => exact hbits hb
    | inr hb => exact hmore hb

/-- All the given bits, in one mask. -/
def union (masks : List UInt16) : UInt16 := masks.foldr (· ||| ·) 0

/-- A mask has all bits of a union when it has those of every part. -/
theorem contains_union_iff (mask : UInt16) (masks : List UInt16) :
    contains mask (union masks) ↔ ∀ bits ∈ masks, contains mask bits := by
  induction masks with
  | nil => simp [union, contains_zero]
  | cons bits masks ih =>
    have hcons : union (bits :: masks) = bits ||| union masks := rfl
    rw [hcons, contains_or_iff, ih, List.forall_mem_cons]

end LightPhi.Base.Word
