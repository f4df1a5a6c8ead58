import Mathlib.Init

/-! Computations that either succeed or name an error: when a composed one succeeds. -/
namespace LightPhi.Base
universe u v w
variable {ε : Type u} {α β : Type v} {σ : Type w}

theorem bind_eq_ok (x : Except ε α) (f : α → Except ε β) (b : β) :
    (x >>= f) = .ok b ↔ ∃ a, x = .ok a ∧ f a = .ok b := by
  cases x <;> simp [bind, Except.bind]

theorem check_bind_eq_ok {β : Type} (x : Except ε Unit) (f : Unit → Except ε β) (b : β) :
    (x >>= f) = .ok b ↔ x = .ok () ∧ f () = .ok b := by
  cases x <;> simp [bind, Except.bind]

theorem forM_eq_ok (f : α → Except ε Unit) (xs : List α) :
    forM xs f = .ok () ↔ ∀ x ∈ xs, f x = .ok () := by
  induction xs with
  | nil => simp [pure, Except.pure]
  | cons x xs ih =>
    rw [List.forM_cons, check_bind_eq_ok, ih, List.forall_mem_cons]

theorem exists_of_isOk {x : Except ε α} (h : x.isOk) : ∃ a, x = .ok a := by
  cases x with
  | error e => simp [Except.isOk, Except.toBool] at h
  | ok a => exact ⟨a, rfl⟩

/-- A fold that stops at the first error, over a list and one more element. -/
theorem foldlM_concat_eq_ok (f : σ → α → Except ε σ) (s t : σ) (xs : List α) (x : α) :
    (xs ++ [x]).foldlM f s = .ok t ↔ ∃ m, xs.foldlM f s = .ok m ∧ f m x = .ok t := by
  simp [List.foldlM_append, bind_eq_ok]

theorem foldlM_append_eq_ok (f : σ → α → Except ε σ) (s t : σ) (xs ys : List α) :
    (xs ++ ys).foldlM f s = .ok t ↔ ∃ m, xs.foldlM f s = .ok m ∧ ys.foldlM f m = .ok t := by
  simp [List.foldlM_append, bind_eq_ok]

end LightPhi.Base
