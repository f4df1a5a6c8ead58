import Mathlib.Data.List.DropRight

/-! All that a pattern matches in a text, searched from left to right. -/
namespace LightPhi.Base
variable {α β : Type*} (matchAt : Option α → List α → Option (β × Nat))

/-- What is found, each with where it ends: behind a match the search goes on where that ends. -/
def findAll (previous : Option α) (here resume : Nat) : List α → List (Nat × β)
  | [] => []
  | c :: rest =>
    if here < resume then findAll (some c) (here + 1) resume rest
    else match matchAt previous (c :: rest) with
      | some (found, length) =>
        (here + length, found) :: findAll (some c) (here + 1) (here + length) rest
      | none => findAll (some c) (here + 1) resume rest

def findFirst (previous : Option α) : List α → Option β
  | [] => none
  | c :: rest =>
    match matchAt previous (c :: rest) with
    | some (found, _) => some found
    | none => findFirst (some c) rest

variable {matchAt}

theorem findAll_idle {previous : Option α} {here resume : Nat} (h : resume ≤ here)
    (text : List α) : findAll matchAt previous here resume text =
      findAll matchAt previous here 0 text := by
  induction text generalizing previous here with
  | nil => rfl
  | cons c rest ih =>
    rw [findAll, findAll, if_neg (Nat.not_lt.mpr h), if_neg (Nat.not_lt_zero here)]
    cases matchAt previous (c :: rest) with
    | some found => rfl
    | none => exact ih (Nat.le_succ_of_le h)

theorem findAll_skip {c : α} {skipped rest : List α} {previous : Option α} {here resume : Nat}
    (h : here + skipped.length + 1 = resume) :
    findAll matchAt previous here resume (skipped ++ c :: rest) =
      findAll matchAt (some c) resume 0 rest := by
  induction skipped generalizing previous here with
  | nil =>
    rw [List.nil_append, findAll, if_pos (by rw [← h]; exact Nat.lt_succ_self _),
      ← findAll_idle le_rfl]
    exact congrArg (findAll matchAt (some c) · resume rest) h
  | cons d skipped ih =>
    rw [List.length_cons] at h
    rw [List.cons_append, findAll, if_pos (by omega)]
    exact ih (by omega)

theorem exists_stretch {stops : α → Bool} {text : List α} (h : ¬ ∀ c ∈ text, stops c = false) :
    ∃ before c rest, text = before ++ c :: rest ∧ (∀ d ∈ before, stops d = false) ∧
      stops c = true := by
  induction text with
  | nil => simp at h
  | cons d rest ih =>
    cases hd : stops d with
    | true => exact ⟨[], d, rest, rfl, by simp, hd⟩
    | false =>
      have hrest : ¬ ∀ c ∈ rest, stops c = false := by
        intro hfree
        apply h
        intro c hc
        cases hc with
        | head => exact hd
        | tail _ hc => exact hfree c hc
      obtain ⟨before, c, behind, rfl, hbefore, hc⟩ := ih hrest
      refine ⟨d :: before, c, behind, rfl, ?_, hc⟩
      intro e he
      cases he with
      | head => exact hd
      | tail _ he => exact hbefore e he

theorem takeWhile_append_cons {p : α → Bool} {c : α} (hc : p c = false) (before after : List α) :
    (before ++ c :: after).takeWhile p = before.takeWhile p := by
  induction before with
  | nil => simp [hc]
  | cons d before ih => rw [List.cons_append, List.takeWhile_cons, List.takeWhile_cons, ih]

theorem dropWhile_append_cons {p : α → Bool} {c : α} (hc : p c = false) (before after : List α) :
    (before ++ c :: after).dropWhile p = before.dropWhile p ++ c :: after := by
  induction before with
  | nil => simp [hc]
  | cons d before ih =>
    rw [List.cons_append, List.dropWhile_cons, List.dropWhile_cons, ih]
    split_ifs
    · rfl
    · rfl

theorem getElem?_length_takeWhile (p : α → Bool) (text : List α) :
    text[(text.takeWhile p).length]? = (text.dropWhile p).head? := by
  induction text with
  | nil => rfl
  | cons c text ih =>
    by_cases hc : p c
    · rw [List.takeWhile_cons_of_pos hc, List.dropWhile_cons_of_pos hc, List.length_cons,
        List.getElem?_cons_succ, ih]
    · rw [List.takeWhile_cons_of_neg hc, List.dropWhile_cons_of_neg hc]
      rfl

theorem rtakeWhile_append_cons {p : α → Bool} {c : α} (hc : p c = false) (before after : List α) :
    (before ++ c :: after).rtakeWhile p = after.rtakeWhile p := by
  induction after using List.reverseRecOn with
  | nil => exact List.rtakeWhile_concat_neg p before c (by simp [hc])
  | append_singleton after d ih =>
    rw [← List.cons_append, ← List.append_assoc, List.rtakeWhile_concat, List.rtakeWhile_concat, ih]

/-- Every match reaches to the first letter that stops it, whatever stands behind that. -/
structure EndsAt (matchAt : Option α → List α → Option (β × Nat)) (stops : α → Bool) : Prop where
  reaches : ∀ {previous text found length}, matchAt previous text = some (found, length) →
    ∃ before c rest, text = before ++ c :: rest ∧ (∀ d ∈ before, stops d = false) ∧
      stops c = true ∧ length = before.length + 1
  cut : ∀ {before c} previous rest, (∀ d ∈ before, stops d = false) → stops c = true →
    matchAt previous (before ++ c :: rest) = matchAt previous (before ++ [c])
  fresh : ∀ {c} text, stops c = true → matchAt (some c) text = matchAt none text

namespace EndsAt
variable {stops : α → Bool} (h : EndsAt matchAt stops)
include h

theorem unstopped {previous : Option α} {text : List α} (hfree : ∀ c ∈ text, stops c = false) :
    matchAt previous text = none := by
  by_contra hsome
  obtain ⟨⟨found, length⟩, hfound⟩ := Option.ne_none_iff_exists'.mp hsome
  obtain ⟨before, c, rest, rfl, -, hc, -⟩ := h.reaches hfound
  simp [hfree c (by simp)] at hc

theorem length_eq {previous : Option α} {before rest : List α} {c : α} {found : β} {length : Nat}
    (hfree : ∀ d ∈ before, stops d = false) (hc : stops c = true)
    (hfound : matchAt previous (before ++ c :: rest) = some (found, length)) :
    length = before.length + 1 := by
  obtain ⟨before', c', rest', htext, hfree', hc', rfl⟩ := h.reaches hfound
  have hbefore := congrArg (List.takeWhile fun d => !stops d) htext
  rw [takeWhile_append_cons (by simp [hc]), takeWhile_append_cons (by simp [hc']),
    List.takeWhile_eq_self_iff.mpr (by simpa using hfree),
    List.takeWhile_eq_self_iff.mpr (by simpa using hfree')] at hbefore
  rw [hbefore]

theorem findAll_unstopped {previous : Option α} {here : Nat} {text : List α}
    (hfree : ∀ c ∈ text, stops c = false) : findAll matchAt previous here 0 text = [] := by
  induction text generalizing previous here with
  | nil => rfl
  | cons c rest ih =>
    rw [findAll, if_neg (Nat.not_lt_zero here), h.unstopped hfree]
    exact ih fun d hd => hfree d (List.mem_cons_of_mem c hd)

/-- In a stretch up to a stop the first match is found, and the search goes on behind the stop. -/
theorem findAll_stretch {previous : Option α} {here : Nat} {before rest : List α} {c : α}
    (hfree : ∀ d ∈ before, stops d = false) (hc : stops c = true) :
    findAll matchAt previous here 0 (before ++ c :: rest) =
      ((findFirst matchAt previous (before ++ [c])).map (here + before.length + 1, ·)).toList ++
        findAll matchAt (some c) (here + before.length + 1) 0 rest := by
  induction before generalizing previous here with
  | nil =>
    have hcut := h.cut previous rest hfree hc
    rw [List.nil_append] at hcut
    rw [List.nil_append, findAll, if_neg (Nat.not_lt_zero here), hcut]
    simp only [List.nil_append, findFirst, List.length_nil, Nat.add_zero]
    cases hfound : matchAt previous [c] with
    | none => rfl
    | some found =>
      obtain ⟨found, length⟩ := found
      have hlength : length = ([] : List α).length + 1 := h.length_eq hfree hc hfound
      subst hlength
      simp [findAll_idle]
  | cons d before ih =>
    have hbefore : ∀ e ∈ before, stops e = false := fun e he => hfree e (List.mem_cons_of_mem d he)
    have hcut := h.cut previous rest hfree hc
    rw [List.cons_append] at hcut
    rw [List.cons_append, findAll, if_neg (Nat.not_lt_zero here), hcut, List.cons_append, findFirst]
    cases hfound : matchAt previous (d :: (before ++ [c])) with
    | none =>
      simp only [List.length_cons]
      rw [ih hbefore]
      simp [Nat.add_assoc, Nat.add_comm 1]
    | some found =>
      obtain ⟨found, length⟩ := found
      have hlength : length = (d :: before).length + 1 := h.length_eq hfree hc hfound
      subst hlength
      simp only [List.length_cons]
      rw [findAll_skip (by omega)]
      simp [Nat.add_assoc]

theorem lt_of_mem_findAll {previous : Option α} {here resume : Nat} {text : List α}
    {entry : Nat × β} (hmem : entry ∈ findAll matchAt previous here resume text) :
    max here resume < entry.1 := by
  induction text generalizing previous here resume with
  | nil => cases hmem
  | cons c rest ih =>
    rw [findAll] at hmem
    split_ifs at hmem with hskip
    · have := ih hmem
      omega
    · cases hfound : matchAt previous (c :: rest) with
      | none =>
        rw [hfound] at hmem
        have := ih hmem
        omega
      | some found =>
        obtain ⟨found, length⟩ := found
        obtain ⟨_, _, _, _, _, _, rfl⟩ := h.reaches hfound
        rw [hfound] at hmem
        cases hmem with
        | head => exact Nat.lt_of_le_of_lt (by omega) (Nat.lt_add_of_pos_right (Nat.succ_pos _))
        | tail _ hmem =>
          have := ih hmem
          omega

theorem findAll_pairwise (previous : Option α) (here resume : Nat) (text : List α) :
    (findAll matchAt previous here resume text).Pairwise fun a b => a.1 < b.1 := by
  induction text generalizing previous here resume with
  | nil => exact List.Pairwise.nil
  | cons c rest ih =>
    rw [findAll]
    split_ifs with hskip
    · exact ih _ _ _
    · cases matchAt previous (c :: rest) with
      | none => exact ih _ _ _
      | some found =>
        apply List.Pairwise.cons
        · intro entry hmem
          exact lt_of_le_of_lt (le_max_right _ _) (h.lt_of_mem_findAll hmem)
        · exact ih _ _ _

theorem findFirst_fresh {previous : Option α} (hprevious : ∀ c ∈ previous, stops c = true)
    (text : List α) : findFirst matchAt previous text = findFirst matchAt none text := by
  cases previous with
  | none => rfl
  | some c =>
    cases text with
    | nil => rfl
    | cons d rest => rw [findFirst, findFirst, h.fresh _ (hprevious c rfl)]

/-- What is found to end behind a place is the first match in the stretch that this place stops. -/
theorem findAll_lookup {previous : Option α} (hprevious : ∀ c ∈ previous, stops c = true)
    (here i : Nat) (text : List α) :
    (findAll matchAt previous here 0 text).lookup (here + i + 1) =
      text[i]?.bind fun c =>
        if stops c then
          findFirst matchAt none ((text.take i).rtakeWhile (fun d => !stops d) ++ [c])
        else none := by
  induction hlength : text.length using Nat.strong_induction_on
    generalizing previous here i text with
  | _ n ih =>
    subst hlength
    by_cases hfree : ∀ c ∈ text, stops c = false
    · rw [h.findAll_unstopped hfree]
      cases hat : text[i]? with
      | none => rfl
      | some c => simp [hfree c (List.mem_of_getElem? hat)]
    · obtain ⟨before, c, rest, rfl, hbefore, hc⟩ := exists_stretch hfree
      rw [h.findAll_stretch hbefore hc, List.lookup_append]
      have hnone : ∀ j < here + before.length + 1,
          (findAll matchAt (some c) (here + before.length + 1) 0 rest).lookup (j + 1) = none := by
        intro j hj
        rw [List.lookup_eq_none_iff]
        intro entry hmem
        have hlater := h.lt_of_mem_findAll hmem
        rw [Nat.max_zero] at hlater
        apply bne_iff_ne.mpr
        omega
      rcases lt_trichotomy i before.length with hlt | rfl | hgt
      · rw [hnone _ (by omega), List.getElem?_append_left hlt, List.getElem?_eq_getElem hlt]
        have hfree := hbefore before[i] (List.getElem_mem hlt)
        cases findFirst matchAt previous (before ++ [c]) with
        | none => simp [hfree]
        | some found =>
          have hne : (here + i + 1 == here + before.length + 1) = false := by
            apply beq_eq_false_iff_ne.mpr
            omega
          simp [hfree, List.lookup_cons, hne]
      · rw [hnone _ (by omega), h.findFirst_fresh hprevious]
        have hself : before.rtakeWhile (fun d => !stops d) = before :=
          List.rtakeWhile_eq_self_iff.mpr (by simpa using hbefore)
        cases hfound : findFirst matchAt none (before ++ [c]) with
        | none => simp [hc, hself, hfound]
        | some found => simp [hc, hself, hfound]
      · obtain ⟨j, rfl⟩ := Nat.exists_eq_add_of_lt hgt
        have hplace : here + (before.length + j + 1) + 1 = here + before.length + 1 + j + 1 := by
          omega
        have hat : (before ++ c :: rest)[before.length + j + 1]? = rest[j]? := by
          rw [List.getElem?_append_right (by omega)]
          simp [show before.length + j + 1 - before.length = j + 1 by omega]
        have htake : (before ++ c :: rest).take (before.length + j + 1) =
            before ++ c :: rest.take j := by
          rw [Nat.add_assoc, List.take_length_add_append, List.take_succ_cons]
        have hstop : ∀ d ∈ some c, stops d = true := by simpa using hc
        have hrest := ih rest.length (by simp; omega) hstop
          (here + before.length + 1) j rest rfl
        have hfirst : ∀ found : Option β, ((found.map (here + before.length + 1, ·)).toList).lookup
            (here + (before.length + j + 1) + 1) = none := by
          intro found
          rw [List.lookup_eq_none_iff]
          intro entry hmem
          obtain ⟨_, -, rfl⟩ := by simpa using hmem
          apply bne_iff_ne.mpr
          omega
        rw [hfirst, Option.none_or, hplace, hrest, hat, htake,
          rtakeWhile_append_cons (by simp [hc])]

end EndsAt

section Lookup
variable {entries : List (Nat × β)} {place bound : Nat}

theorem lookup_filter_le (h : place ≤ bound) :
    (entries.filter fun entry => entry.1 ≤ bound).lookup place = entries.lookup place := by
  induction entries with
  | nil => rfl
  | cons entry entries ih =>
    rw [List.filter_cons]
    split_ifs with hle
    · rw [List.lookup_cons, List.lookup_cons, ih]
    · have hne : (place == entry.1) = false := by
        apply beq_eq_false_iff_ne.mpr
        rintro rfl
        exact hle (by simpa using h)
      rw [ih, List.lookup_cons, hne]

theorem takeWhile_le_eq_filter (hsorted : entries.Pairwise fun a b => a.1 < b.1) :
    (entries.takeWhile fun entry => entry.1 ≤ bound) =
      entries.filter fun entry => entry.1 ≤ bound := by
  induction entries with
  | nil => rfl
  | cons entry entries ih =>
    obtain ⟨hlater, hsorted⟩ := List.pairwise_cons.mp hsorted
    rw [List.takeWhile_cons, List.filter_cons, ih hsorted]
    split_ifs with hle
    · rfl
    · symm
      rw [List.filter_eq_nil_iff]
      intro later hmem
      have hlt := hlater later hmem
      simp only [decide_eq_true_eq] at hle ⊢
      omega

end Lookup

end LightPhi.Base
