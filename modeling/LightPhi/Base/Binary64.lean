import Mathlib.Algebra.Group.Nat.Defs
import Mathlib.Order.Lattice

/-! The comparisons and the clamp of IEEE 754 binary64, on the encoding itself.
No arithmetic: nothing here rounds. -/
namespace LightPhi.Base

/-- One binary64 datum, given by its encoding. -/
structure Binary64 where
  bits : BitVec 64
  deriving DecidableEq, Repr

namespace Binary64

def zero : Binary64 := ⟨0⟩
def one : Binary64 := ⟨0x3FF0000000000000⟩

instance : Inhabited Binary64 := ⟨zero⟩

def sign (x : Binary64) : Bool := x.bits.msb
def exponent (x : Binary64) : Nat := x.bits.toNat / 2 ^ 52 % 2 ^ 11
def fraction (x : Binary64) : Nat := x.bits.toNat % 2 ^ 52

def isFinite (x : Binary64) : Bool := x.exponent != 2047
def isNaN (x : Binary64) : Bool := x.exponent == 2047 && x.fraction != 0

/- Exponent and fraction, read as one number, grow with the magnitude, infinity included;
   the sign turns them into an integer ordered as the data are. Both zeros have key 0. -/
def key (x : Binary64) : Int :=
  let magnitude : Int := (x.bits.toNat % 2 ^ 63 : Nat)
  if x.sign then -magnitude else magnitude

/-- The ordered comparison: false as soon as one side is NaN. -/
def lt (x y : Binary64) : Bool := !x.isNaN && !y.isNaN && decide (x.key < y.key)

/-- The quiet equality: NaN equals nothing, and the two zeros are equal. -/
def eq (x y : Binary64) : Bool := !x.isNaN && !y.isNaN && decide (x.key = y.key)

def ne (x y : Binary64) : Bool := !x.eq y

/-- The clamp of the C++ library: a value that compares with neither bound comes back as it is. -/
def clamp (v lo hi : Binary64) : Binary64 :=
  if v.lt lo then lo else if hi.lt v then hi else v

def neg (x : Binary64) : Binary64 := ⟨x.bits ^^^ 0x8000000000000000⟩

theorem clamp_cases (v lo hi : Binary64) :
    v.clamp lo hi = lo ∨ v.clamp lo hi = hi ∨
      (v.clamp lo hi = v ∧ v.lt lo = false ∧ hi.lt v = false) := by
  unfold clamp
  split_ifs with hlo hhi
  · exact Or.inl rfl
  · exact Or.inr (Or.inl rfl)
  · exact Or.inr (Or.inr ⟨rfl, by simpa using hlo, by simpa using hhi⟩)

theorem clamp_isFinite {v lo hi : Binary64} (hv : v.isFinite) (hlo : lo.isFinite)
    (hhi : hi.isFinite) : (v.clamp lo hi).isFinite := by
  rcases clamp_cases v lo hi with h | h | ⟨h, -, -⟩ <;> rw [h] <;> assumption

theorem lt_irrefl (x : Binary64) : x.lt x = false := by simp [lt]

theorem clamp_not_lt {v lo hi : Binary64} (h : hi.lt lo = false) :
    (v.clamp lo hi).lt lo = false := by
  rcases clamp_cases v lo hi with hc | hc | ⟨hc, hv, -⟩
  · rw [hc, lt_irrefl]
  · rw [hc, h]
  · rw [hc, hv]

theorem not_lt_clamp {v lo hi : Binary64} (h : hi.lt lo = false) :
    hi.lt (v.clamp lo hi) = false := by
  rcases clamp_cases v lo hi with hc | hc | ⟨hc, -, hv⟩
  · rw [hc, h]
  · rw [hc, lt_irrefl]
  · rw [hc, hv]

@[simp] theorem zero_ne_zero : zero.ne zero = false := by decide

/-- Clamping to an interval around zero populates nothing: what was zero stays zero. -/
theorem ne_zero_of_clamp {v lo hi : Binary64} (hlo : zero.lt lo = false) (hhi : hi.lt zero = false)
    (h : (v.clamp lo hi).ne zero) : v.ne zero := by
  by_contra hv
  have hz : !v.isNaN && !zero.isNaN && decide (v.key = zero.key) := by
    simpa [ne, eq] using hv
  simp only [Bool.and_eq_true, Bool.not_eq_true', decide_eq_true_eq] at hz
  obtain ⟨⟨hn, hn0⟩, hk⟩ := hz
  have hvlo : v.lt lo = false := by simpa [lt, hn, hn0, hk] using hlo
  have hhiv : hi.lt v = false := by simpa [lt, hn, hn0, hk] using hhi
  rw [clamp, hvlo, hhiv] at h
  exact hv h

end Binary64
end LightPhi.Base
