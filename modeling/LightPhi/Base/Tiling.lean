import Mathlib.Data.List.Basic

/-! Spans that tile a text: each begins where the one before it ends, and each gives its kind to
the places it covers. -/
namespace LightPhi.Base
variable {κ α β : Type*}

structure Span (κ : Type*) where
  kind : κ
  start : Nat
  stop : Nat
  deriving DecidableEq

/-- From `start` on, the spans give the places their kinds. -/
inductive Tiles : Nat → List (Span κ) → List κ → Prop
  | nil {start} : Tiles start [] []
  | cons {start spans kinds} (kind : κ) (length : Nat)
      (h : Tiles (start + length) spans kinds) :
      Tiles start (⟨kind, start, start + length⟩ :: spans) (List.replicate length kind ++ kinds)

/-- The spans follow one another without a gap, from one place to another. -/
def Contiguous : Nat → List (Span κ) → Nat → Prop
  | start, [], stop => start = stop
  | start, span :: spans, stop => span.start = start ∧ Contiguous span.stop spans stop

/-- The part of a text a span covers. -/
def slice (text : List α) (start stop : Nat) : List α := (text.take stop).drop start

theorem slice_append (before piece rest : List α) :
    slice (before ++ (piece ++ rest)) before.length (before.length + piece.length) = piece := by
  rw [slice, ← List.append_assoc, ← List.length_append, List.take_left, List.drop_left]

namespace Tiles
variable {start : Nat} {spans spans' : List (Span κ)} {kinds kinds' : List κ}

theorem single (kind : κ) (start length : Nat) :
    Tiles start [⟨kind, start, start + length⟩] (List.replicate length kind) := by
  have hnil : Tiles (start + length) ([] : List (Span κ)) [] := .nil
  have h := Tiles.cons kind length hnil
  rwa [List.append_nil] at h

theorem append (h : Tiles start spans kinds) (h' : Tiles (start + kinds.length) spans' kinds') :
    Tiles start (spans ++ spans') (kinds ++ kinds') := by
  induction h with
  | nil => simpa using h'
  | cons kind length _ ih =>
    rw [List.length_append, List.length_replicate, ← Nat.add_assoc] at h'
    rw [List.cons_append, List.append_assoc]
    exact .cons kind length (ih h')

theorem contiguous (h : Tiles start spans kinds) :
    Contiguous start spans (start + kinds.length) := by
  induction h with
  | nil => rfl
  | cons kind length _ ih =>
    rw [List.length_append, List.length_replicate, ← Nat.add_assoc]
    exact ⟨rfl, ih⟩

/-- Spans that cover nothing can be left out. -/
theorem filter_nonempty (h : Tiles start spans kinds) :
    Tiles start (spans.filter fun span => span.start < span.stop) kinds := by
  induction h with
  | nil => exact .nil
  | @cons start spans kinds kind length _ ih =>
    cases length with
    | zero => simpa using ih
    | succ length =>
      rw [List.filter_cons_of_pos (by simp)]
      exact .cons kind (length + 1) ih

/-- A place has the kind of the span it lies in. -/
theorem covered_iff (h : Tiles start spans kinds) (kind : κ) (i : Nat) :
    (∃ span ∈ spans, span.kind = kind ∧ span.start ≤ i ∧ i < span.stop) ↔
      start ≤ i ∧ kinds[i - start]? = some kind := by
  induction h with
  | nil => simp
  | @cons start spans kinds first length _ ih =>
    rw [List.exists_mem_cons_iff, ih]
    by_cases hin : i < start + length
    · have hlater : ¬ start + length ≤ i := by omega
      by_cases hstart : start ≤ i
      · have hat : i - start < length := by omega
        rw [List.getElem?_append_left (by simpa using hat), List.getElem?_replicate, if_pos hat]
        simp [hin, hlater, hstart]
      · simp [hlater, hstart]
    · have hle : start + length ≤ i := by omega
      have hstart : start ≤ i := by omega
      have hat : ¬ i - start < length := by omega
      rw [List.getElem?_append_right (by simpa using hat), List.length_replicate]
      simp [hin, hle, hstart, Nat.sub_sub]

/-- What is made of the text span by span is made of it place by place. -/
theorem flatMap_slice (h : Tiles start spans kinds) (f : κ → α → β) (before rest : List α)
    (hbefore : before.length = start) (hrest : rest.length = kinds.length) :
    spans.flatMap (fun span => (slice (before ++ rest) span.start span.stop).map (f span.kind)) =
      List.zipWith f kinds rest := by
  induction h generalizing before rest with
  | nil =>
    rw [List.flatMap_nil, List.zipWith_nil_left]
  | @cons start spans kinds kind length _ ih =>
    rw [List.length_append, List.length_replicate] at hrest
    obtain ⟨piece, rest, rfl, rfl⟩ : ∃ piece rest', rest = piece ++ rest' ∧ length = piece.length :=
      ⟨rest.take length, rest.drop length, (List.take_append_drop _ _).symm,
        (List.length_take_of_le (by omega)).symm⟩
    subst hbefore
    have hlater := ih (before ++ piece) rest (by simp) (by simpa using hrest)
    rw [List.append_assoc] at hlater
    have hpiece : List.zipWith f (List.replicate piece.length kind) piece = piece.map (f kind) := by
      rw [← List.map_const', List.zipWith_map_left, List.zipWith_self]
    rw [List.flatMap_cons, hlater, slice_append, List.zipWith_append (by simp), hpiece]

end Tiles
end LightPhi.Base
