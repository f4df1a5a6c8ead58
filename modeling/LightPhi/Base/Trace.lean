import Mathlib.Data.List.Basic

/-! Rules that hold at every event of a trace. -/
namespace LightPhi.Base

/-- At every event of the trace, the rule holds of the events before it and of the event. -/
def Always {ε : Type*} (rule : List ε → ε → Prop) (trace : List ε) : Prop :=
  ∀ before event after, trace = before ++ event :: after → rule before event

section Always
variable {ε : Type*} {rule : List ε → ε → Prop}

@[simp] theorem always_nil : Always rule [] := by
  intro before event after h
  simp at h

theorem always_concat (trace : List ε) (e : ε) :
    Always rule (trace ++ [e]) ↔ Always rule trace ∧ rule trace e := by
  constructor
  · intro h
    refine ⟨?_, h trace e [] rfl⟩
    intro before event after he
    exact h before event (after ++ [e]) (by simp [he])
  · rintro ⟨h, he⟩ before event after heq
    cases List.eq_nil_or_concat' after with
    | inl hnil =>
      subst hnil
      obtain ⟨rfl, hl⟩ := List.append_inj' heq rfl
      obtain rfl := (List.cons.inj hl).1
      exact he
    | inr hconcat =>
      obtain ⟨init, last, rfl⟩ := hconcat
      have hsplit : trace ++ [e] = (before ++ event :: init) ++ [last] := by simpa using heq
      obtain ⟨ht, -⟩ := List.append_inj' hsplit rfl
      exact h before event init ht

theorem always_cons (e : ε) (trace : List ε) :
    Always rule (e :: trace) ↔ rule [] e ∧ Always (fun before => rule (e :: before)) trace := by
  constructor
  · intro h
    exact ⟨h [] e trace rfl, fun before event after heq =>
      h (e :: before) event after (by rw [heq, List.cons_append])⟩
  · intro h before event after heq
    cases before with
    | nil =>
      obtain ⟨rfl, -⟩ := List.cons.inj heq
      exact h.1
    | cons first before =>
      obtain ⟨rfl, htail⟩ := List.cons.inj heq
      exact h.2 before event after htail

/-- The rule in terms of positions. -/
theorem always_iff_getElem (xs : List ε) :
    Always rule xs ↔ ∀ i, (h : i < xs.length) → rule (xs.take i) xs[i] := by
  constructor
  · intro h i hi
    exact h (xs.take i) xs[i] (xs.drop (i + 1)) (by simp)
  · intro h before event after heq
    subst heq
    simpa using h before.length (by simp)

/-- The rule over the images of the events. -/
theorem always_map_iff {δ : Type*} {rule' : List δ → δ → Prop} (f : δ → ε) (xs : List δ)
    (h : ∀ before event after, xs = before ++ event :: after →
      (rule (before.map f) (f event) ↔ rule' before event)) :
    Always rule (xs.map f) ↔ Always rule' xs := by
  constructor
  · intro hrule before event after heq
    apply (h before event after heq).mp
    exact hrule _ _ (after.map f) (by rw [heq, List.map_append, List.map_cons])
  · intro hrule before event after heq
    obtain ⟨first, rest, rfl, rfl, hrest⟩ := List.map_eq_append_iff.mp heq
    obtain ⟨e, last, rfl, rfl, rfl⟩ := List.map_eq_cons_iff.mp hrest
    exact (h first e last rfl).mpr (hrule first e last rfl)

instance [∀ before event, Decidable (rule before event)] (xs : List ε) :
    Decidable (Always rule xs) :=
  decidable_of_iff _ (always_iff_getElem xs).symm

theorem Always.of_append {trace more : List ε} (h : Always rule (trace ++ more)) :
    Always rule trace :=
  fun before event after he => h before event (after ++ more) (by simp [he])

/-- Events to which the rule does not apply may be added freely. -/
theorem Always.append {trace more : List ε} (h : Always rule trace)
    (hmore : ∀ event ∈ more, ∀ before, rule before event) : Always rule (trace ++ more) := by
  induction more generalizing trace with
  | nil => simpa using h
  | cons event more ih =>
    rw [List.append_cons]
    apply ih
    · exact (always_concat trace event).mpr ⟨h, hmore event (by simp) trace⟩
    · exact fun e he => hmore e (List.mem_cons_of_mem event he)

end Always
end LightPhi.Base
