import LightPhi.Base.Trace
import Mathlib.Data.List.Induction

/-! Runs of a model whose calls leave events, and programs each of whose steps is one call. -/
namespace LightPhi.Base
variable {σ ι ε : Type*}

/-- What a run of calls from the first state on leaves, each call being allowed by what was seen
before it and by the state it is made in. -/
inductive Reaches (calls : σ → ι → List ε → σ → Prop) (allowed : List ε → σ → ι → Prop)
    (first : σ) : List ε → σ → Prop
  | init : Reaches calls allowed first [] first
  | call {trace s op events s'} (h : Reaches calls allowed first trace s) (ha : allowed trace s op)
      (hc : calls s op events s') : Reaches calls allowed first (trace ++ events) s'

/-- Every allowed call keeps the invariant. -/
def Preserves (calls : σ → ι → List ε → σ → Prop) (allowed : List ε → σ → ι → Prop)
    (inv : List ε → σ → Prop) : Prop :=
  ∀ trace s op events s', allowed trace s op → calls s op events s' → inv trace s →
    inv (trace ++ events) s'

section Reaches
variable {calls : σ → ι → List ε → σ → Prop} {allowed : List ε → σ → ι → Prop}
  {inv : List ε → σ → Prop} {first s : σ} {trace : List ε}

/-- What every call preserves holds after every run. -/
theorem Reaches.invariant (hinv : Preserves calls allowed inv)
    (hr : Reaches calls allowed first trace s) (h : inv [] first) : inv trace s := by
  induction hr with
  | init => exact h
  | call _ ha hc ih => exact hinv _ _ _ _ _ ha hc ih

/-- An invariant already known may be used where each call is made. -/
theorem Reaches.strengthened (hinv : Preserves calls allowed inv)
    (hr : Reaches calls allowed first trace s) (h : inv [] first) :
    Reaches calls (fun trace s op => allowed trace s op ∧ inv trace s) first trace s := by
  induction hr with
  | init => exact .init
  | call hr ha hc ih => exact .call ih ⟨ha, hr.invariant hinv h⟩ hc

end Reaches

/-- Calls made one after the other, and the events of all of them. -/
inductive Serves (calls : σ → ι → List ε → σ → Prop) : σ → List ι → List ε → σ → Prop
  | nil {s} : Serves calls s [] [] s
  | cons {s op events s' ops more s''} (hc : calls s op events s')
      (h : Serves calls s' ops more s'') : Serves calls s (op :: ops) (events ++ more) s''

section Serves
variable {calls : σ → ι → List ε → σ → Prop} {allowed : List ε → σ → ι → Prop}
  {inv : List ε → σ → Prop} {s s' s'' : σ} {trace events more : List ε} {ops ops' : List ι}

theorem Serves.single {op : ι} (hc : calls s op events s') : Serves calls s [op] events s' := by
  have h := Serves.cons hc .nil
  rwa [List.append_nil] at h

theorem Serves.append (h : Serves calls s ops events s') (h' : Serves calls s' ops' more s'') :
    Serves calls s (ops ++ ops') (events ++ more) s'' := by
  induction h with
  | nil => exact h'
  | cons hc _ ih =>
    rw [List.cons_append, List.append_assoc]
    exact .cons hc (ih h')

/-- What each call preserves all of them preserve, when each is allowed where it is made. -/
theorem Serves.preserves_where (hinv : Preserves calls allowed inv)
    (h : Serves calls s ops events s')
    (hallowed : ∀ before op after, ops = before ++ op :: after → ∀ earlier middle,
      Serves calls s before earlier middle → allowed (trace ++ earlier) middle op)
    (hs : inv trace s) : inv (trace ++ events) s' := by
  induction h generalizing trace with
  | nil => rwa [List.append_nil]
  | @cons s op events s' ops more s'' hc _ ih =>
    have hfirst : allowed trace s op := by
      have := hallowed [] op ops rfl [] s .nil
      rwa [List.append_nil] at this
    rw [← List.append_assoc]
    apply ih _ (hinv _ _ _ _ _ hfirst hc hs)
    intro before later after hsplit earlier middle hserves
    rw [List.append_assoc]
    apply hallowed (op :: before) later after _ _ _ (.cons hc hserves)
    rw [hsplit, List.cons_append]

theorem Serves.calls_eq {call? : ε → Option ι}
    (hlabel : ∀ s op events s', calls s op events s' → events.filterMap call? = [op])
    (h : Serves calls s ops events s') : events.filterMap call? = ops := by
  induction h with
  | nil => rfl
  | cons hc _ ih => rw [List.filterMap_append, hlabel _ _ _ _ hc, ih, List.singleton_append]

/-- The same, where a rule over the calls made so far allows each of them. -/
theorem Serves.preserves (hinv : Preserves calls allowed inv) {call? : ε → Option ι}
    (hlabel : ∀ s op events s', calls s op events s' → events.filterMap call? = [op])
    {rule : List ι → ι → Prop}
    (hrule : ∀ trace s op, rule (trace.filterMap call?) op → allowed trace s op)
    (h : Serves calls s ops events s')
    (hops : Always (fun before => rule (trace.filterMap call? ++ before)) ops)
    (hs : inv trace s) : inv (trace ++ events) s' := by
  apply h.preserves_where hinv _ hs
  intro before op after hsplit earlier middle hserves
  apply hrule
  rw [List.filterMap_append, hserves.calls_eq hlabel]
  exact hops before op after hsplit

end Serves

/-- A program that performs operations and keeps a trace, and a model of which every operation
is one call with the same events, one of which says what was called. -/
structure Simulation (α σ ι ε : Type*) where
  perform : α → ι → α
  trace : α → List ε
  model : α → σ
  wellFormed : α → Prop
  calls : σ → ι → List ε → σ → Prop
  call? : ε → Option ι
  labelled : ∀ {s op events s'}, calls s op events s' → events.filterMap call? = [op]
  refines : ∀ s op, wellFormed s → ∃ events, calls (model s) op events (model (perform s op)) ∧
    trace (perform s op) = trace s ++ events ∧ wellFormed (perform s op)

namespace Simulation
variable {α : Type*} (sim : Simulation α σ ι ε)

/-- What was seen from one state to a later one. -/
def since (s s' : α) : List ε := (sim.trace s').drop (sim.trace s).length

/-- A run of the program is a run of the model with the same events, when each operation is one
that is allowed where it is performed. -/
theorem reaches {s : α} (h : sim.wellFormed s) (allowed : List ε → σ → ι → Prop) (ops : List ι)
    (hallowed : Always (fun before op => allowed (sim.since s (before.foldl sim.perform s))
      (sim.model (before.foldl sim.perform s)) op) ops) :
    Reaches sim.calls allowed (sim.model s) (sim.since s (ops.foldl sim.perform s))
        (sim.model (ops.foldl sim.perform s)) ∧
      sim.trace (ops.foldl sim.perform s) =
        sim.trace s ++ sim.since s (ops.foldl sim.perform s) ∧
      (sim.since s (ops.foldl sim.perform s)).filterMap sim.call? = ops ∧
      sim.wellFormed (ops.foldl sim.perform s) := by
  induction ops using List.reverseRecOn with
  | nil => exact ⟨by simpa [since] using Reaches.init, by simp [since], by simp [since], h⟩
  | append_singleton ops op ih =>
    obtain ⟨hbefore, hop⟩ := (always_concat ops op).mp hallowed
    obtain ⟨hreach, htrace, hcalls, hwf⟩ := ih hbefore
    obtain ⟨events, hcall, hevents, hwf'⟩ := sim.refines (ops.foldl sim.perform s) op hwf
    have hsince : sim.since s ((ops ++ [op]).foldl sim.perform s) =
        sim.since s (ops.foldl sim.perform s) ++ events := by
      rw [List.foldl_concat, since, hevents, htrace]
      simp
    rw [hsince, List.foldl_concat]
    refine ⟨.call hreach hop hcall, by rw [hevents, htrace, List.append_assoc], ?_, hwf'⟩
    rw [List.filterMap_append, hcalls, sim.labelled hcall]

end Simulation
end LightPhi.Base
