import Mathlib.Data.List.Basic

/-! Computations over arrays in which an access outside of an array has no outcome. Where every
access stays inside, such a computation is one in `Except`. -/
namespace LightPhi.Base
universe u v w

/-- Nothing where an array was accessed outside of its bounds, else what was computed. -/
abbrev Access (ε : Type u) := ExceptT ε Option

namespace Access
variable {ε α β : Type u}

/-- A computation whose accesses, if any, all stayed inside. -/
def inside (x : Except ε α) : Access ε α := ExceptT.mk (some x)

/-- What the code must not go on without. -/
def require (p : Prop) [Decidable p] : Access ε PUnit :=
  if p then pure ⟨⟩ else ExceptT.mk none

def read {γ : Type v} {valid : γ → Nat → Prop} [GetElem? γ Nat α valid] (xs : γ) (i : Nat) :
    Access ε α := ExceptT.mk (xs[i]?.map .ok)

def write {n : Nat} (xs : Vector α n) (i : Nat) (x : α) : Access ε (Vector α n) :=
  if h : i < n then pure (xs.set i x) else ExceptT.mk none

/-- It stays inside when its steps do. -/
theorem inside_bind {x : Except ε α} {f : α → Access ε β} {g : α → Except ε β}
    (h : ∀ a, x = .ok a → f a = inside (g a)) : inside x >>= f = inside (x >>= g) := by
  cases x with
  | error e => rfl
  | ok a => exact h a rfl

theorem require_of {p : Prop} [Decidable p] (h : p) : (require p : Access ε PUnit) = pure ⟨⟩ :=
  if_pos h

theorem read_of {γ : Type v} {valid : γ → Nat → Prop} [GetElem? γ Nat α valid] {xs : γ} {i : Nat}
    {x : α} (h : xs[i]? = some x) : (read xs i : Access ε α) = pure x := by
  rw [read, h]
  rfl

theorem write_of {n : Nat} {i : Nat} (h : i < n) (xs : Vector α n) (x : α) :
    (write xs i x : Access ε (Vector α n)) = pure (xs.setIfInBounds i x) := by
  rw [write, dif_pos h]
  congr 1
  ext j hj
  simp [Vector.getElem_set, Vector.getElem_setIfInBounds]

/-- A search whose tests stay inside up to the first hit. -/
theorem anyM_of {ε : Type} {κ : Type w} {p : κ → Access ε Bool} {q : κ → Bool} {keys : List κ}
    (h : ∀ key ∈ keys, p key = pure (q key)) : keys.anyM p = pure (keys.any q) := by
  induction keys with
  | nil => rfl
  | cons key keys ih =>
    rw [List.anyM_cons, h key (List.mem_cons_self ..), pure_bind, List.any_cons]
    cases q key with
    | true => rfl
    | false => exact ih fun key hkey => h key (List.mem_cons_of_mem _ hkey)

/-- A search by index through the first elements of a list. -/
theorem anyM_range_read {ε α : Type} {xs : List α} {n : Nat} (h : n ≤ xs.length) (q : α → Bool) :
    (List.range n).anyM (fun i => (read xs i : Access ε α) >>= fun x => pure (q x)) =
      pure ((xs.take n).any q) := by
  have hread : ∀ i ∈ List.range n, ((read xs i : Access ε α) >>= fun x => pure (q x)) =
      pure (xs[i]?.any q) := by
    intro i hi
    have hlt : i < xs.length := Nat.lt_of_lt_of_le (List.mem_range.mp hi) h
    rw [read_of (List.getElem?_eq_getElem hlt), pure_bind, List.getElem?_eq_getElem hlt]
    rfl
  rw [anyM_of hread]
  congr 1
  rw [Bool.eq_iff_iff]
  simp only [List.any_eq_true, List.mem_range, Option.any_eq_true]
  constructor
  · intro hany
    obtain ⟨i, hi, x, hx, hq⟩ := hany
    refine ⟨x, ?_, hq⟩
    rw [List.mem_iff_getElem?]
    exact ⟨i, by rw [List.getElem?_take_of_lt hi]; exact hx⟩
  · intro hany
    obtain ⟨x, hx, hq⟩ := hany
    obtain ⟨i, hi⟩ := List.mem_iff_getElem?.mp hx
    have hlt : i < n := by
      by_contra hge
      rw [List.getElem?_take_eq_none (Nat.not_lt.mp hge)] at hi
      cases hi
    exact ⟨i, hlt, x, by rwa [List.getElem?_take_of_lt hlt] at hi, hq⟩

end Access
end LightPhi.Base
