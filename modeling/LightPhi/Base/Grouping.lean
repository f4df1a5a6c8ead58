import Mathlib.Data.List.Induction
import Mathlib.Data.List.Nodup
import Mathlib.Data.List.Sort
import Mathlib.Order.Defs.LinearOrder

/-! Values grouped under their keys, in the order in which they come, and the groups in the order
of the keys. -/
namespace LightPhi.Base
variable {κ ν : Type*} [DecidableEq κ] [DecidableEq ν]

/-- The entry of a key changed. Where there is none, one is added behind the others. -/
def enter (key : κ) (change : List ν → List ν) : List (κ × List ν) → List (κ × List ν)
  | [] => [(key, change [])]
  | entry :: entries =>
    if entry.1 = key then (key, change entry.2) :: entries else entry :: enter key change entries

/-- A value behind those that are there, unless it is one of them. -/
def joining (value : Option ν) (values : List ν) : List ν :=
  match value with
  | none => values
  | some v => if v ∈ values then values else values ++ [v]

def grouped (records : List (κ × Option ν)) : List (κ × List ν) :=
  records.foldl (fun groups record => enter record.1 (joining record.2) groups) []

def valuesOf (groups : List (κ × List ν)) (k : κ) : List ν := (groups.lookup k).getD []

/-- The groups of some records: each key has one, which holds each of its values once. -/
structure Groups (records : List (κ × Option ν)) (groups : List (κ × List ν)) : Prop where
  keys_nodup : (groups.map Prod.fst).Nodup
  mem_keys : ∀ k, k ∈ groups.map Prod.fst ↔ ∃ v, (k, v) ∈ records
  nodup : ∀ k, (valuesOf groups k).Nodup
  mem_values : ∀ k v, v ∈ valuesOf groups k ↔ (k, some v) ∈ records

omit [DecidableEq ν] in
theorem mem_keys_enter (key k : κ) (change : List ν → List ν) (groups : List (κ × List ν)) :
    k ∈ (enter key change groups).map Prod.fst ↔ k ∈ groups.map Prod.fst ∨ k = key := by
  induction groups with
  | nil => simp [enter]
  | cons entry groups ih =>
    rw [enter]
    split_ifs with hkey
    · rw [List.map_cons, List.map_cons, List.mem_cons, List.mem_cons, hkey]
      constructor
      · exact fun h => Or.inl h
      · rintro (h | rfl)
        · exact h
        · exact Or.inl rfl
    · rw [List.map_cons, List.map_cons, List.mem_cons, List.mem_cons, ih, or_assoc]

omit [DecidableEq ν] in
theorem keys_enter_nodup (key : κ) (change : List ν → List ν) {groups : List (κ × List ν)}
    (h : (groups.map Prod.fst).Nodup) : ((enter key change groups).map Prod.fst).Nodup := by
  induction groups with
  | nil => simp [enter]
  | cons entry groups ih =>
    obtain ⟨hfresh, hnodup⟩ := List.nodup_cons.mp h
    rw [enter]
    split_ifs with hkey
    · rw [List.map_cons, ← hkey]
      exact h
    · rw [List.map_cons]
      apply List.nodup_cons.mpr
      refine ⟨?_, ih hnodup⟩
      rw [mem_keys_enter, not_or]
      exact ⟨hfresh, hkey⟩

omit [DecidableEq ν] in
theorem lookup_entry (k : κ) (entry : κ × List ν) (groups : List (κ × List ν)) :
    (entry :: groups).lookup k = if k = entry.1 then some entry.2 else groups.lookup k := by
  rw [List.lookup_cons]
  split_ifs with hk
  · rw [beq_iff_eq.mpr hk]
  · rw [beq_eq_false_iff_ne.mpr hk]

omit [DecidableEq ν] in
theorem valuesOf_enter (key k : κ) (change : List ν → List ν) (groups : List (κ × List ν)) :
    valuesOf (enter key change groups) k =
      if k = key then change (valuesOf groups key) else valuesOf groups k := by
  induction groups with
  | nil =>
    rw [enter, valuesOf, lookup_entry]
    split_ifs <;> rfl
  | cons entry groups ih =>
    rw [enter]
    by_cases hkey : entry.1 = key
    · rw [if_pos hkey, valuesOf, valuesOf, valuesOf, lookup_entry, lookup_entry, lookup_entry,
        hkey, if_pos rfl]
      split_ifs <;> rfl
    · rw [if_neg hkey, valuesOf, lookup_entry, valuesOf, lookup_entry, if_neg (Ne.symm hkey)]
      by_cases hk : k = entry.1
      · have hne : k ≠ key := fun h => hkey (hk ▸ h)
        rw [if_pos hk, if_neg hne, valuesOf, lookup_entry, if_pos hk]
      · rw [if_neg hk, valuesOf, lookup_entry, if_neg hk]
        exact ih

theorem joining_nodup (value : Option ν) {values : List ν} (h : values.Nodup) :
    (joining value values).Nodup := by
  cases value with
  | none => exact h
  | some v =>
    rw [joining]
    split_ifs with hmem
    · exact h
    · apply List.nodup_append.mpr
      refine ⟨h, List.nodup_singleton v, ?_⟩
      intro w hw u hu hwu
      rw [hwu, List.mem_singleton.mp hu] at hw
      exact hmem hw

theorem mem_joining (value : Option ν) (values : List ν) (v : ν) :
    v ∈ joining value values ↔ v ∈ values ∨ value = some v := by
  cases value with
  | none => simp [joining]
  | some w =>
    rw [joining]
    split_ifs with hmem
    · constructor
      · exact Or.inl
      · rintro (h | h)
        · exact h
        · exact Option.some.inj h ▸ hmem
    · simp [eq_comm]

theorem Groups.enter {records : List (κ × Option ν)} {groups : List (κ × List ν)}
    (h : Groups records groups) (record : κ × Option ν) :
    Groups (records ++ [record]) (enter record.1 (joining record.2) groups) where
  keys_nodup := keys_enter_nodup _ _ h.keys_nodup
  mem_keys k := by
    rw [mem_keys_enter, h.mem_keys]
    constructor
    · rintro (⟨v, hv⟩ | rfl)
      · exact ⟨v, List.mem_append_left _ hv⟩
      · exact ⟨record.2, by simp⟩
    · rintro ⟨v, hv⟩
      rcases List.mem_append.mp hv with hv | hv
      · exact Or.inl ⟨v, hv⟩
      · obtain rfl := List.mem_singleton.mp hv
        exact Or.inr rfl
  nodup k := by
    rw [valuesOf_enter]
    split_ifs
    · exact joining_nodup _ (h.nodup _)
    · exact h.nodup k
  mem_values k v := by
    rw [valuesOf_enter, List.mem_append, List.mem_singleton, ← h.mem_values]
    split_ifs with hk
    · rw [mem_joining, hk]
      constructor
      · rintro (hv | hv)
        · exact Or.inl hv
        · exact Or.inr (Prod.ext rfl hv.symm)
      · rintro (hv | hv)
        · exact Or.inl hv
        · exact Or.inr (congrArg Prod.snd hv).symm
    · constructor
      · exact Or.inl
      · rintro (hv | hv)
        · exact hv
        · exact absurd (congrArg Prod.fst hv) hk

theorem groups_grouped (records : List (κ × Option ν)) : Groups records (grouped records) := by
  induction records using List.reverseRecOn with
  | nil =>
    exact ⟨List.nodup_nil, by simp [grouped], by simp [grouped, valuesOf],
      by simp [grouped, valuesOf]⟩
  | append_singleton records record ih =>
    rw [grouped, List.foldl_append]
    exact ih.enter record

omit [DecidableEq ν] in
theorem map_groups {γ : Type*} {groups : List (κ × List ν)} (h : (groups.map Prod.fst).Nodup)
    (f : κ → List ν → γ) : groups.map (fun entry => f entry.1 entry.2) =
      (groups.map Prod.fst).map fun k => f k (valuesOf groups k) := by
  induction groups with
  | nil => rfl
  | cons entry groups ih =>
    obtain ⟨hfresh, hnodup⟩ := List.nodup_cons.mp h
    rw [List.map_cons, List.map_cons, List.map_cons, valuesOf, lookup_entry, if_pos rfl,
      ih hnodup]
    congr 1
    refine List.map_congr_left fun k hk => ?_
    have hne : k ≠ entry.1 := fun heq => hfresh (heq ▸ hk)
    rw [valuesOf, valuesOf, lookup_entry, if_neg hne]

omit [DecidableEq ν] in
/-- Records that are the same but for their order make the same groups but for the order of the
groups and of the values in them. -/
theorem Groups.perm {records records' : List (κ × Option ν)} {groups groups' : List (κ × List ν)}
    (h : Groups records groups) (h' : Groups records' groups')
    (hsame : ∀ record, record ∈ records ↔ record ∈ records') {γ : Type*} {f : κ → List ν → γ}
    (hf : ∀ k {values values'}, values.Perm values' → f k values = f k values') :
    (groups.map fun entry => f entry.1 entry.2).Perm
      (groups'.map fun entry => f entry.1 entry.2) := by
  have hkeys : (groups.map Prod.fst).Perm (groups'.map Prod.fst) := by
    rw [List.perm_ext_iff_of_nodup h.keys_nodup h'.keys_nodup]
    intro k
    simp only [h.mem_keys, h'.mem_keys, hsame]
  have hvalues : ∀ k, f k (valuesOf groups k) = f k (valuesOf groups' k) := by
    intro k
    apply hf
    rw [List.perm_ext_iff_of_nodup (h.nodup k) (h'.nodup k)]
    intro v
    rw [h.mem_values, h'.mem_values, hsame]
  rw [map_groups h.keys_nodup, map_groups h'.keys_nodup]
  simp only [hvalues]
  exact hkeys.map _

section Sorted
variable {κ γ : Type*} [LinearOrder κ]

def sortedByKey (entries : List (κ × γ)) : List (κ × γ) :=
  entries.mergeSort fun a b => a.1 ≤ b.1

theorem sortedByKey_pairwise (entries : List (κ × γ)) :
    (sortedByKey entries).Pairwise fun a b => a.1 ≤ b.1 := by
  have h : (sortedByKey entries).Pairwise fun a b => decide (a.1 ≤ b.1) = true :=
    List.pairwise_mergeSort
      (fun a b c hab hbc => by
        simpa using (of_decide_eq_true hab).trans (of_decide_eq_true hbc))
      (fun a b => by simpa using le_total a.1 b.1) entries
  exact h.imp of_decide_eq_true

/-- The order of entries with different keys does not matter to the sorted list. -/
theorem sortedByKey_eq {entries entries' : List (κ × γ)} (h : entries.Perm entries')
    (hnodup : (entries.map Prod.fst).Nodup) : sortedByKey entries = sortedByKey entries' := by
  have hperm : (sortedByKey entries).Perm (sortedByKey entries') :=
    ((List.mergeSort_perm _ _).trans h).trans (List.mergeSort_perm _ _).symm
  refine hperm.eq_of_pairwise ?_ (sortedByKey_pairwise entries) (sortedByKey_pairwise entries')
  intro a b ha hb hab hba
  have ha' : a ∈ entries := (List.mergeSort_perm _ _).subset ha
  have hb' : b ∈ entries := h.symm.subset ((List.mergeSort_perm _ _).subset hb)
  exact List.inj_on_of_nodup_map hnodup ha' hb' (le_antisymm hab hba)

theorem map_sortedByKey {δ : Type*} (f : κ → γ → δ) (entries : List (κ × γ)) :
    (sortedByKey entries).map (fun entry => (entry.1, f entry.1 entry.2)) =
      sortedByKey (entries.map fun entry => (entry.1, f entry.1 entry.2)) :=
  List.map_mergeSort fun _ _ _ _ => rfl

end Sorted

end LightPhi.Base
