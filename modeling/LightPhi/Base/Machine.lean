import Mathlib.Data.List.Induction

/-! Machines that answer every input: what they say on a run, and when two of them cannot be told
apart. -/
namespace LightPhi.Base.Machine
variable {σ τ ι ο : Type*}

/-- What a machine answers to one input after the other. -/
def answers (step : σ → ι → ο × σ) : σ → List ι → List ο
  | _, [] => []
  | s, input :: inputs => (step s input).1 :: answers step (step s input).2 inputs

/-- The state behind a list of inputs. -/
def after (step : σ → ι → ο × σ) (s : σ) (inputs : List ι) : σ :=
  inputs.foldl (fun s input => (step s input).2) s

/-- Every input with its answer. -/
def log (step : σ → ι → ο × σ) (s : σ) (inputs : List ι) : List (ι × ο) :=
  inputs.zip (answers step s inputs)

section Runs
variable (step : σ → ι → ο × σ)

@[simp] theorem after_nil (s : σ) : after step s [] = s := rfl

@[simp] theorem after_cons (s : σ) (input : ι) (inputs : List ι) :
    after step s (input :: inputs) = after step (step s input).2 inputs := rfl

@[simp] theorem after_append (s : σ) (inputs more : List ι) :
    after step s (inputs ++ more) = after step (after step s inputs) more :=
  List.foldl_append

@[simp] theorem answers_length (s : σ) (inputs : List ι) :
    (answers step s inputs).length = inputs.length := by
  induction inputs generalizing s with
  | nil => rfl
  | cons input inputs ih => simp [answers, ih]

theorem answers_append (s : σ) (inputs more : List ι) :
    answers step s (inputs ++ more) =
      answers step s inputs ++ answers step (after step s inputs) more := by
  induction inputs generalizing s with
  | nil => rfl
  | cons input inputs ih => simp [answers, ih]

theorem log_concat (s : σ) (inputs : List ι) (input : ι) :
    log step s (inputs ++ [input]) =
      log step s inputs ++ [(input, (step (after step s inputs) input).1)] := by
  rw [log, answers_append, List.zip_append (by simp), log]
  rfl

/-- What every step keeps, given the log so far, holds behind every run. -/
theorem invariant (inv : List (ι × ο) → σ → Prop) {s : σ} (h : inv [] s)
    (hstep : ∀ past s input, inv past s →
      inv (past ++ [(input, (step s input).1)]) (step s input).2) (inputs : List ι) :
    inv (log step s inputs) (after step s inputs) := by
  induction inputs using List.reverseRecOn with
  | nil => exact h
  | append_singleton inputs input ih =>
    rw [log_concat, after_append]
    exact hstep _ _ input ih

end Runs

/-- From related states both machines give the same answer and move to related states. -/
structure Alike (step : σ → ι → ο × σ) (step' : τ → ι → ο × τ) (rel : σ → τ → Prop) : Prop where
  same : ∀ {s t}, rel s t → ∀ input, (step s input).1 = (step' t input).1
  next : ∀ {s t}, rel s t → ∀ input, rel (step s input).2 (step' t input).2

section Alike
variable {step : σ → ι → ο × σ} {step' : τ → ι → ο × τ} {rel : σ → τ → Prop} {s : σ} {t : τ}

theorem Alike.after (h : Alike step step' rel) (hrel : rel s t) (inputs : List ι) :
    rel (after step s inputs) (after step' t inputs) := by
  induction inputs generalizing s t with
  | nil => exact hrel
  | cons input inputs ih => exact ih (h.next hrel input)

/-- Two machines that stay related cannot be told apart by their answers. -/
theorem Alike.answers (h : Alike step step' rel) (hrel : rel s t) (inputs : List ι) :
    answers step s inputs = answers step' t inputs := by
  induction inputs generalizing s t with
  | nil => rfl
  | cons input inputs ih =>
    rw [Machine.answers, Machine.answers, h.same hrel input, ih (h.next hrel input)]

/-- From related states the machines differ only where the first gives an excepted answer. -/
structure AlikeUnless (step : σ → ι → ο × σ) (step' : τ → ι → ο × τ) (rel : σ → τ → Prop)
    (excepted : ο → Prop) : Prop where
  same : ∀ {s t}, rel s t → ∀ input, ¬ excepted (step s input).1 →
    (step s input).1 = (step' t input).1
  next : ∀ {s t}, rel s t → ∀ input, ¬ excepted (step s input).1 →
    rel (step s input).2 (step' t input).2

/-- So they cannot be told apart by a run in which the first gives no such answer. -/
theorem AlikeUnless.run {excepted : ο → Prop} (h : AlikeUnless step step' rel excepted)
    (hrel : rel s t) (inputs : List ι)
    (hnone : ∀ answer ∈ Machine.answers step s inputs, ¬ excepted answer) :
    Machine.answers step s inputs = Machine.answers step' t inputs ∧
      rel (Machine.after step s inputs) (Machine.after step' t inputs) := by
  induction inputs generalizing s t with
  | nil => exact ⟨rfl, hrel⟩
  | cons input inputs ih =>
    obtain ⟨hfirst, hrest⟩ := List.forall_mem_cons.mp hnone
    obtain ⟨hanswers, hafter⟩ := ih (h.next hrel input hfirst) hrest
    rw [Machine.answers, Machine.answers, h.same hrel input hfirst, hanswers]
    exact ⟨rfl, hafter⟩

end Alike
end LightPhi.Base.Machine
