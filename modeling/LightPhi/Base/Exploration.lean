import Mathlib.Data.List.Nodup

/-! Depth-first exploration that enters each key once, and the forest it makes. -/
namespace LightPhi.Base

/-- An ordered forest: its first root, what is inside that, and the rest. -/
inductive Forest (ν : Type*) where
  | nil
  | cons (root : ν) (inner rest : Forest ν)

namespace Forest
variable {ν κ : Type*}

def append : Forest ν → Forest ν → Forest ν
  | nil, forest => forest
  | cons root inner rest, forest => cons root inner (rest.append forest)

def roots : Forest ν → List ν
  | nil => []
  | cons root _ rest => root :: rest.roots

/-- All nodes, a root before what is inside it. -/
def nodes : Forest ν → List ν
  | nil => []
  | cons root inner rest => root :: (inner.nodes ++ rest.nodes)

/-- How many nodes stand inside one another. -/
def depth : Forest ν → Nat
  | nil => 0
  | cons _ inner rest => max (inner.depth + 1) rest.depth

/-- Inside every node are some of its successors, in their order. -/
def Branches (next : ν → List ν) : Forest ν → Prop
  | nil => True
  | cons root inner rest => inner.roots.Sublist (next root) ∧ inner.Branches next ∧
      rest.Branches next

@[simp] theorem roots_append (f g : Forest ν) : (f.append g).roots = f.roots ++ g.roots := by
  induction f with
  | nil => rfl
  | cons root inner rest _ ih => simp [append, roots, ih]

@[simp] theorem nodes_append (f g : Forest ν) : (f.append g).nodes = f.nodes ++ g.nodes := by
  induction f with
  | nil => rfl
  | cons root inner rest _ ih => simp [append, nodes, ih]

theorem Branches.append {next : ν → List ν} {f g : Forest ν} (hf : f.Branches next)
    (hg : g.Branches next) : (f.append g).Branches next := by
  induction f with
  | nil => exact hg
  | cons root inner rest _ ih => exact ⟨hf.1, hf.2.1, ih hf.2.2⟩

theorem Branches.nodes_all {next : ν → List ν} {P : ν → Prop}
    (hP : ∀ v, P v → ∀ w ∈ next v, P w) {forest : Forest ν} (h : forest.Branches next)
    (hroots : ∀ v ∈ forest.roots, P v) : ∀ v ∈ forest.nodes, P v := by
  induction forest with
  | nil => simp [nodes]
  | cons root inner rest ihinner ihrest =>
    have hroot := hroots root (by simp [roots])
    intro v hv
    rcases List.mem_cons.mp hv with rfl | hv
    · exact hroot
    · rcases List.mem_append.mp hv with hv | hv
      · exact ihinner h.2.1 (fun w hw => hP root hroot w (h.1.subset hw)) v hv
      · exact ihrest h.2.2 (fun w hw => hroots w (by simp [roots, hw])) v hv

end Forest

variable {ν κ : Type*}

/-- One after the other, each with what is visited before it. -/
def exploreAll (one : List κ → ν → Option (Forest ν × List κ)) (visited : List κ) :
    List ν → Option (Forest ν × List κ)
  | [] => some (.nil, visited)
  | v :: later => do
    let (first, visited) ← one visited v
    let (rest, visited) ← exploreAll one visited later
    some (first.append rest, visited)

variable (key : ν → κ) (next : ν → List ν)

def explore [DecidableEq κ] : Nat → List κ → ν → Option (Forest ν × List κ)
  | 0, _, _ => none
  | fuel + 1, visited, v =>
    if key v ∈ visited then some (.nil, visited)
    else do
      let (inner, visited) ← exploreAll (explore fuel) (visited ++ [key v]) (next v)
      some (.cons v inner .nil, visited)

/-- What an exploration of some nodes makes of the keys visited before. -/
structure Explores (before : List κ) (starts : List ν) (forest : Forest ν) (after : List κ) :
    Prop where
  visits : after = before ++ forest.nodes.map key
  once : before.Nodup → after.Nodup
  roots : forest.roots.Sublist starts
  branches : forest.Branches next
  enters : ∀ v ∈ starts, key v ∈ after
  closed : ∀ v ∈ forest.nodes, ∀ w ∈ next v, key w ∈ after

variable {key next}

theorem Explores.nil (visited : List κ) : Explores key next visited [] .nil visited where
  visits := (List.append_nil visited).symm
  once := id
  roots := List.Sublist.slnil
  branches := trivial
  enters v hv := by cases hv
  closed v hv := by cases hv

theorem Explores.append {before between after : List κ} {first later : List ν}
    {f g : Forest ν} (hf : Explores key next before first f between)
    (hg : Explores key next between later g after) :
    Explores key next before (first ++ later) (f.append g) after where
  visits := by
    rw [hg.visits, hf.visits]
    simp
  once h := hg.once (hf.once h)
  roots := by
    rw [Forest.roots_append]
    exact hf.roots.append hg.roots
  branches := hf.branches.append hg.branches
  enters v hv := by
    rcases List.mem_append.mp hv with hv | hv
    · rw [hg.visits]
      exact List.mem_append_left _ (hf.enters v hv)
    · exact hg.enters v hv
  closed v hv w hw := by
    rw [Forest.nodes_append] at hv
    rcases List.mem_append.mp hv with hv | hv
    · rw [hg.visits]
      exact List.mem_append_left _ (hf.closed v hv w hw)
    · exact hg.closed v hv w hw

theorem Explores.visited {visited : List κ} {v : ν} (h : key v ∈ visited) :
    Explores key next visited [v] .nil visited where
  visits := (List.append_nil visited).symm
  once := id
  roots := List.nil_sublist _
  branches := trivial
  enters w hw := by
    obtain rfl := List.mem_singleton.mp hw
    exact h
  closed w hw := by cases hw

theorem Explores.entered {visited after : List κ} {v : ν} {inner : Forest ν}
    (hfresh : key v ∉ visited)
    (h : Explores key next (visited ++ [key v]) (next v) inner after) :
    Explores key next visited [v] (.cons v inner .nil) after where
  visits := by
    rw [h.visits]
    simp [Forest.nodes]
  once hnodup := by
    apply h.once
    rw [List.nodup_append]
    refine ⟨hnodup, List.nodup_singleton _, ?_⟩
    intro a ha b hb
    rintro rfl
    rw [List.mem_singleton.mp hb] at ha
    exact hfresh ha
  roots := List.Sublist.refl _
  branches := ⟨h.roots, h.branches, trivial⟩
  enters w hw := by
    obtain rfl := List.mem_singleton.mp hw
    rw [h.visits]
    simp
  closed w hw := by
    rw [Forest.nodes, Forest.nodes, List.append_nil] at hw
    rcases List.mem_cons.mp hw with rfl | hw
    · exact h.enters
    · exact h.closed w hw

theorem exploreAll_explores {one : List κ → ν → Option (Forest ν × List κ)}
    (hone : ∀ {visited v forest after}, one visited v = some (forest, after) →
      Explores key next visited [v] forest after)
    {starts : List ν} {visited after : List κ} {forest : Forest ν}
    (h : exploreAll one visited starts = some (forest, after)) :
    Explores key next visited starts forest after := by
  induction starts generalizing visited forest with
  | nil =>
    obtain ⟨rfl, rfl⟩ := Prod.mk.inj (Option.some.inj h)
    exact Explores.nil visited
  | cons v later ih =>
    obtain ⟨⟨first, between⟩, hfirst, hrest⟩ := Option.bind_eq_some_iff.mp h
    obtain ⟨⟨rest, last⟩, hlater, hforest⟩ := Option.bind_eq_some_iff.mp hrest
    obtain ⟨rfl, rfl⟩ := Prod.mk.inj (Option.some.inj hforest)
    exact (hone hfirst).append (ih hlater)

theorem exploreAll_mono {one two : List κ → ν → Option (Forest ν × List κ)}
    (hone : ∀ {visited v found}, one visited v = some found → two visited v = some found)
    {starts : List ν} {visited : List κ} {found : Forest ν × List κ}
    (h : exploreAll one visited starts = some found) :
    exploreAll two visited starts = some found := by
  induction starts generalizing visited found with
  | nil => exact h
  | cons v later ih =>
    obtain ⟨⟨first, between⟩, hfirst, hrest⟩ := Option.bind_eq_some_iff.mp h
    obtain ⟨⟨rest, last⟩, hlater, hforest⟩ := Option.bind_eq_some_iff.mp hrest
    simp only [exploreAll, hone hfirst, Option.bind_eq_bind, Option.bind_some, ih hlater]
    exact hforest

section Fuel
variable [DecidableEq κ]

theorem explore_explores {fuel : Nat} {visited after : List κ} {v : ν} {forest : Forest ν}
    (h : explore key next fuel visited v = some (forest, after)) :
    Explores key next visited [v] forest after := by
  induction fuel generalizing visited v forest after with
  | zero => cases h
  | succ fuel ih =>
    rw [explore] at h
    split_ifs at h with hvisited
    · obtain ⟨rfl, rfl⟩ := Prod.mk.inj (Option.some.inj h)
      exact Explores.visited hvisited
    · obtain ⟨⟨inner, last⟩, hinner, hforest⟩ := Option.bind_eq_some_iff.mp h
      obtain ⟨rfl, rfl⟩ := Prod.mk.inj (Option.some.inj hforest)
      exact Explores.entered hvisited (exploreAll_explores ih hinner)

/-- More fuel changes nothing. -/
theorem explore_mono {fuel more : Nat} (hmore : fuel ≤ more) {visited : List κ} {v : ν}
    {found : Forest ν × List κ} (h : explore key next fuel visited v = some found) :
    explore key next more visited v = some found := by
  induction fuel generalizing more visited v found with
  | zero => cases h
  | succ fuel ih =>
    obtain ⟨more, rfl⟩ := Nat.exists_eq_succ_of_ne_zero (Nat.ne_zero_of_lt hmore)
    rw [explore] at h ⊢
    split_ifs at h ⊢
    · exact h
    · obtain ⟨⟨inner, last⟩, hinner, hforest⟩ := Option.bind_eq_some_iff.mp h
      rw [exploreAll_mono (ih (Nat.le_of_succ_le_succ hmore)) hinner]
      exact hforest

/-- How many of the keys are not visited. -/
def unvisited (keys visited : List κ) : Nat := (keys.filter fun k => k ∉ visited).length

theorem unvisited_append_le (keys visited later : List κ) :
    unvisited keys (visited ++ later) ≤ unvisited keys visited := by
  apply List.Sublist.length_le
  apply List.monotone_filter_right
  intro k hk
  simp only [List.mem_append, decide_eq_true_eq] at hk ⊢
  exact fun hmem => hk (Or.inl hmem)

theorem unvisited_enter_lt {keys visited : List κ} {k : κ} (hmem : k ∈ keys) (hk : k ∉ visited) :
    unvisited keys (visited ++ [k]) < unvisited keys visited := by
  have hfilter : (keys.filter fun j => j ∉ visited ++ [k]) =
      (keys.filter fun j => j ∉ visited).filter fun j => j ≠ k := by
    rw [List.filter_filter]
    refine List.filter_congr fun j _ => ?_
    simp only [List.mem_append, List.mem_singleton, not_or, ← Bool.decide_and, decide_eq_decide]
    exact and_comm
  rw [unvisited, hfilter]
  apply List.length_filter_lt_length_iff_exists.mpr
  exact ⟨k, List.mem_filter.mpr ⟨hmem, decide_eq_true hk⟩, by simp⟩

variable {keys : List κ} {P : ν → Prop}

theorem exploreAll_isSome {fuel : Nat} {one : List κ → ν → Option (Forest ν × List κ)}
    (hone : ∀ {visited v}, P v → unvisited keys visited < fuel → (one visited v).isSome)
    (hgrows : ∀ {visited v forest after}, one visited v = some (forest, after) →
      Explores key next visited [v] forest after)
    {starts : List ν} {visited : List κ} (hstarts : ∀ v ∈ starts, P v)
    (hfuel : unvisited keys visited < fuel) : (exploreAll one visited starts).isSome := by
  induction starts generalizing visited with
  | nil => rfl
  | cons v later ih =>
    obtain ⟨⟨first, between⟩, hfirst⟩ :=
      Option.isSome_iff_exists.mp (hone (hstarts v (by simp)) hfuel)
    have hbetween : unvisited keys between < fuel := by
      rw [(hgrows hfirst).visits]
      exact Nat.lt_of_le_of_lt (unvisited_append_le _ _ _) hfuel
    obtain ⟨rest, hrest⟩ := Option.isSome_iff_exists.mp
      (ih (fun w hw => hstarts w (List.mem_cons_of_mem v hw)) hbetween)
    simp only [exploreAll, hfirst, Option.bind_eq_bind, Option.bind_some, hrest]
    rfl

/-- As much fuel as there are keys is enough. -/
theorem explore_isSome (hP : ∀ v, P v → key v ∈ keys ∧ ∀ w ∈ next v, P w) {fuel : Nat}
    {visited : List κ} {v : ν} (hv : P v) (hfuel : unvisited keys visited < fuel) :
    (explore key next fuel visited v).isSome := by
  induction fuel generalizing visited v with
  | zero => exact absurd hfuel (Nat.not_lt_zero _)
  | succ fuel ih =>
    rw [explore]
    split_ifs with hvisited
    · rfl
    · have hless : unvisited keys (visited ++ [key v]) < fuel :=
        Nat.lt_of_lt_of_le (unvisited_enter_lt (hP v hv).1 hvisited) (Nat.le_of_lt_succ hfuel)
      obtain ⟨inner, hinner⟩ := Option.isSome_iff_exists.mp
        (exploreAll_isSome ih explore_explores (hP v hv).2 hless)
      rw [hinner]
      rfl

/-- Every exploration ends, always with the same forest. -/
theorem exists_forest (hP : ∀ v, P v → key v ∈ keys ∧ ∀ w ∈ next v, P w) {starts : List ν}
    (hstarts : ∀ v ∈ starts, P v) :
    ∃ forest after, Explores key next [] starts forest after ∧
      ∀ fuel, keys.length < fuel →
        exploreAll (explore key next fuel) [] starts = some (forest, after) := by
  have hfuel : unvisited keys [] < keys.length + 1 := by
    rw [unvisited, List.filter_eq_self.mpr (by simp)]
    exact Nat.lt_succ_self _
  obtain ⟨⟨forest, after⟩, hforest⟩ := Option.isSome_iff_exists.mp
    (exploreAll_isSome (explore_isSome hP) explore_explores hstarts hfuel)
  refine ⟨forest, after, exploreAll_explores explore_explores hforest, ?_⟩
  intro fuel hmore
  exact exploreAll_mono (explore_mono hmore) hforest

end Fuel

end LightPhi.Base
