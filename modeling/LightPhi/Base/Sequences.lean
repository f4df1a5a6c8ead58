import Mathlib.Data.List.Basic
import Mathlib.Tactic.Tauto
import Mathlib.Order.Lattice
import Mathlib.Order.MinMax

/-! Running maxima, zero-padded fixed arrays, and rules that relate each element of a list to
the elements before it. -/
namespace LightPhi.Base

/-- The largest element met so far, starting from a floor. -/
def runningMax {α : Type*} [Max α] (floor : α) (xs : List α) : α := xs.foldl max floor

section RunningMax
variable {α : Type*} [LinearOrder α]

@[simp] theorem runningMax_nil (b : α) : runningMax b [] = b := rfl

@[simp] theorem runningMax_concat (b : α) (xs : List α) (x : α) :
    runningMax b (xs ++ [x]) = max (runningMax b xs) x := by
  simp [runningMax]

theorem runningMax_lt_iff (b y : α) (xs : List α) :
    runningMax b xs < y ↔ b < y ∧ ∀ x ∈ xs, x < y := by
  induction xs generalizing b with
  | nil => simp
  | cons x xs ih =>
    have h := ih (max b x)
    simp only [runningMax, List.foldl_cons] at h ⊢
    simp [h, and_assoc]

theorem runningMax_le_iff (b y : α) (xs : List α) :
    runningMax b xs ≤ y ↔ b ≤ y ∧ ∀ x ∈ xs, x ≤ y := by
  induction xs generalizing b with
  | nil => simp
  | cons x xs ih =>
    have h := ih (max b x)
    simp only [runningMax, List.foldl_cons] at h ⊢
    simp [h, and_assoc]

/-- Over a non-decreasing list, what is downward closed holds of every element as soon as it
holds of the last. -/
theorem forall_iff_last {xs : List α} (h : xs.Pairwise (· ≤ ·)) (d : α) (p : α → Prop)
    (hp : ∀ a b, a ≤ b → p b → p a) :
    (xs ≠ [] → p (xs.getLastD d)) ↔ ∀ x ∈ xs, p x := by
  cases List.eq_nil_or_concat' xs with
  | inl hnil =>
    subst hnil
    simp
  | inr hconcat =>
    obtain ⟨ys, y, rfl⟩ := hconcat
    have hy : ∀ a ∈ ys, a ≤ y := by
      intro a ha
      exact (List.pairwise_append.mp h).2.2 a ha y (by simp)
    simp only [ne_eq, List.append_eq_nil_iff, List.cons_ne_nil, and_false, not_false_eq_true,
      List.getLastD_concat, forall_const, List.mem_append, List.mem_singleton]
    constructor
    · rintro hl a (ha | rfl)
      · exact hp a y (hy a ha) hl
      · exact hl
    · intro hl
      exact hl y (Or.inr rfl)

end RunningMax

/-- A fixed array that holds a list from its start and defaults after it. -/
def padded {α : Type*} [Inhabited α] (n : Nat) (xs : List α) : Vector α n :=
  Vector.ofFn fun i => xs.getD i default

section Padded
variable {α : Type*} [Inhabited α] {n : Nat}

theorem padded_getElem? {xs : List α} {i : Nat} (hi : i < xs.length) (hn : xs.length ≤ n) :
    (padded n xs)[i]? = some xs[i] := by
  have h : i < n := by omega
  simp [padded, h, hi]

@[simp] theorem padded_nil : padded n ([] : List α) = Vector.replicate n default := by
  ext i hi
  simp [padded]

theorem padded_toList {xs : List α} (hn : xs.length ≤ n) :
    (padded n xs).toList = xs ++ List.replicate (n - xs.length) default := by
  refine List.ext_getElem (by simp; omega) fun i hi _ => ?_
  have h : i < n := by simpa using hi
  simp only [padded, Vector.getElem_toList, Vector.getElem_ofFn, List.getElem_append]
  split_ifs with hlt
  · simp [hlt]
  · simp [not_lt.mp hlt]

/-- Writing the cell after the list extends the list. -/
theorem padded_concat (xs : List α) (x : α) :
    (padded n xs).setIfInBounds xs.length x = padded n (xs ++ [x]) := by
  ext i hi
  rw [Vector.getElem_setIfInBounds hi]
  simp only [padded, Vector.getElem_ofFn]
  split_ifs with he
  · subst he
    simp
  · cases Nat.lt_or_ge i xs.length with
    | inl hlt => simp [hlt, Nat.lt_succ_of_lt hlt]
    | inr hge =>
      have h1 : xs.length ≤ i := hge
      have h2 : (xs ++ [x]).length ≤ i := by simp; omega
      simp [List.getElem?_eq_none h1, List.getElem?_eq_none h2]

theorem padded_map_concat {β : Type*} (f : β → α) (xs : List β) (x : β) :
    (padded n (xs.map f)).setIfInBounds xs.length (f x) = padded n ((xs ++ [x]).map f) := by
  simpa using padded_concat (n := n) (xs.map f) (f x)

theorem take_padded_map {β : Type*} (f : β → α) {xs : List β} (hn : xs.length ≤ n) :
    (padded n (xs.map f)).toList.take xs.length = xs.map f := by
  rw [padded_toList (by simpa using hn)]
  exact List.take_left' (List.length_map f)

theorem mem_drop_padded_map {β : Type*} (f : β → α) {xs : List β} (hn : xs.length ≤ n) :
    ∀ a ∈ (padded n (xs.map f)).toList.drop xs.length, a = default := by
  rw [padded_toList (by simpa using hn), List.drop_left' (List.length_map f)]
  exact fun a ha => List.eq_of_mem_replicate ha

end Padded

/-- Every element satisfies a rule about the elements before it, those in `done` included. -/
def Following {α : Type*} (rule : List α → α → Prop) : List α → List α → Prop
  | _, [] => True
  | done, x :: xs => rule done x ∧ Following rule (done ++ [x]) xs

section Following
variable {α : Type*}

theorem following_shift (rule : List α → α → Prop) (before done xs : List α) :
    Following (fun d x => rule (before ++ d) x) done xs ↔ Following rule (before ++ done) xs := by
  induction xs generalizing done with
  | nil => simp [Following]
  | cons x xs ih => simp [Following, ih]

theorem following_congr {p q : List α → α → Prop} (h : ∀ d x, p d x ↔ q d x) (done xs : List α) :
    Following p done xs ↔ Following q done xs := by
  induction xs generalizing done with
  | nil => simp [Following]
  | cons x xs ih => simp [Following, ih, h]

theorem following_and (p q : List α → α → Prop) (done xs : List α) :
    Following (fun d x => p d x ∧ q d x) done xs ↔ Following p done xs ∧ Following q done xs := by
  induction xs generalizing done with
  | nil => simp [Following]
  | cons x xs ih => simp only [Following, ih]; tauto

theorem following_forall (p : α → Prop) (done xs : List α) :
    Following (fun _ x => p x) done xs ↔ ∀ x ∈ xs, p x := by
  induction xs generalizing done with
  | nil => simp [Following]
  | cons x xs ih => simp [Following, ih]

/-- A rule between each element and every earlier one is a pairwise rule. -/
theorem following_pairwise (r : α → α → Prop) (done xs : List α) :
    Following (fun d x => ∀ t ∈ d, r t x) done xs ↔
      xs.Pairwise r ∧ ∀ t ∈ done, ∀ x ∈ xs, r t x := by
  induction xs generalizing done with
  | nil => simp [Following]
  | cons x xs ih =>
    simp only [Following, ih, List.pairwise_cons]
    constructor
    · intro h
      obtain ⟨hx, hp, hd⟩ := h
      refine ⟨⟨fun y hy => hd x (by simp) y hy, hp⟩, ?_⟩
      intro t ht y hy
      cases List.mem_cons.mp hy with
      | inl heq =>
        subst heq
        exact hx t ht
      | inr hy => exact hd t (List.mem_append_left _ ht) y hy
    · intro h
      obtain ⟨⟨hx, hp⟩, hd⟩ := h
      refine ⟨fun t ht => hd t ht x (by simp), hp, ?_⟩
      intro t ht y hy
      cases List.mem_append.mp ht with
      | inl ht => exact hd t ht y (List.mem_cons_of_mem x hy)
      | inr ht =>
        obtain rfl := List.mem_singleton.mp ht
        exact hx y hy

end Following
end LightPhi.Base
