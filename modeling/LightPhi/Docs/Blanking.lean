import LightPhi.Docs.Reading

/-! The text with its comments blanked out stays aligned with its source, whatever the source is:
every offset into the one is an offset into the other. -/
namespace LightPhi.Docs
open Base

/-- What a region of this kind begins with. -/
def RegionKind.opening : RegionKind → List Char
  | .code => []
  | .block => ['/', '*']
  | .line => ['/', '/']

/-- The text begins there as a region of the span's kind does. -/
def Opens (source : List Char) (span : Span RegionKind) : Prop :=
  span.kind.opening <+: source.drop span.start

def InComment (spans : List (Span RegionKind)) (i : Nat) : Prop :=
  ∃ span ∈ spans, span.kind ≠ .code ∧ span.start ≤ i ∧ i < span.stop

/-- The spans cut the text, and the blanked text differs from it inside comments only, where it
has the same lines. -/
structure Aligned (source blanked : List Char) (spans : List (Span RegionKind)) : Prop where
  nonempty : ∀ span ∈ spans, span.start < span.stop
  contiguous : Contiguous 0 spans source.length
  opens : ∀ span ∈ spans, Opens source span
  length : blanked.length = source.length
  newline : ∀ i, InComment spans i → (blanked[i]? = some '\n' ↔ source[i]? = some '\n')
  blank : ∀ i, InComment spans i → blanked[i]? ≠ some '\n' → blanked[i]? = some ' '
  outside : ∀ i, ¬ InComment spans i → blanked[i]? = source[i]?

variable [PythonCharacters]

/-- A turn finds a comment where one opens. -/
theorem turn_opening {previous : Option Char} {text : List Char} {kind : RegionKind} {length : Nat}
    (h : turn previous text = (kind, length)) : kind.opening <+: text := by
  cases text with
  | nil =>
    obtain ⟨rfl, -⟩ := Prod.mk.inj h
    exact List.nil_prefix
  | cons c rest =>
    have hslash {d : Char} (h : c = '/' ∧ rest.head? = some d) : ['/', d] <+: c :: rest := by
      obtain ⟨rfl, hhead⟩ := h
      obtain ⟨more, rfl⟩ := List.head?_eq_some_iff.mp hhead
      exact ⟨more, rfl⟩
    rw [turn] at h
    split at h
    · obtain ⟨rfl, -⟩ := Prod.mk.inj h
      exact List.nil_prefix
    · split_ifs at h with hquote hline hblock
      · obtain ⟨rfl, -⟩ := Prod.mk.inj h
        exact List.nil_prefix
      · obtain ⟨rfl, -⟩ := Prod.mk.inj h
        exact hslash hline
      · obtain ⟨rfl, -⟩ := Prod.mk.inj h
        exact hslash hblock
      · obtain ⟨rfl, -⟩ := Prod.mk.inj h
        exact List.nil_prefix

omit [PythonCharacters] in
theorem opens_code (source : List Char) (start stop : Nat) : Opens source ⟨.code, start, stop⟩ :=
  List.nil_prefix

/-- So the loop records a comment only where one opens. -/
theorem scan_opens {source : List Char} {turns index codeStart : Nat}
    {spans spans' : List (Span RegionKind)} (hspans : ∀ span ∈ spans, Opens source span)
    (h : scan source turns index codeStart spans = some spans') :
    ∀ span ∈ spans', Opens source span := by
  induction turns generalizing index codeStart spans with
  | zero =>
    by_cases hindex : index < source.length
    · rw [scan, if_pos hindex] at h
      cases h
    · rw [scan_ended 0 hindex] at h
      obtain rfl := Option.some.inj h
      exact List.forall_mem_append.mpr ⟨hspans, List.forall_mem_singleton.mpr (opens_code ..)⟩
  | succ turns ih =>
    by_cases hindex : index < source.length
    · cases hturn : turn (source.take index).getLast? (source.drop index) with
      | mk kind length =>
        by_cases hkind : kind = .code
        · subst hkind
          rw [scan_code turns hindex hturn] at h
          exact ih hspans h
        · rw [scan_comment turns hindex hkind hturn] at h
          have hopens : Opens source ⟨kind, index, index + length⟩ := turn_opening hturn
          refine ih (List.forall_mem_append.mpr ⟨hspans, List.forall_mem_cons.mpr ⟨?_, ?_⟩⟩) h
          · exact opens_code ..
          · exact List.forall_mem_singleton.mpr hopens
    · rw [scan_ended _ hindex] at h
      obtain rfl := Option.some.inj h
      exact List.forall_mem_append.mpr ⟨hspans, List.forall_mem_singleton.mpr (opens_code ..)⟩

theorem regions_opens {source : List Char} {spans : List (Span RegionKind)}
    (h : regions source = some spans) : ∀ span ∈ spans, Opens source span := by
  obtain ⟨all, hscan, rfl⟩ := Option.map_eq_some_iff.mp h
  intro span hspan
  exact scan_opens (by simp) hscan span (List.mem_of_mem_filter hspan)

theorem regions_nonempty {source : List Char} {spans : List (Span RegionKind)}
    (h : regions source = some spans) : ∀ span ∈ spans, span.start < span.stop := by
  obtain ⟨all, -, rfl⟩ := Option.map_eq_some_iff.mp h
  intro span hspan
  simpa using List.of_mem_filter hspan

omit [PythonCharacters] in
theorem inComment_iff {spans : List (Span RegionKind)} {kinds : List RegionKind}
    (h : Tiles 0 spans kinds) (i : Nat) :
    InComment spans i ↔ ∃ kind, kind ≠ .code ∧ kinds[i]? = some kind := by
  have hcovered := fun kind => h.covered_iff kind i
  simp only [Nat.sub_zero, Nat.zero_le, true_and] at hcovered
  simp only [← hcovered]
  constructor
  · intro hin
    obtain ⟨span, hspan, hkind, hbounds⟩ := hin
    exact ⟨span.kind, hkind, span, hspan, rfl, hbounds⟩
  · intro hin
    obtain ⟨_, hkind, span, hspan, rfl, hbounds⟩ := hin
    exact ⟨span, hspan, hkind, hbounds⟩

omit [PythonCharacters] in
theorem blankCharacter_eq_newline_iff (c : Char) : blankCharacter c = '\n' ↔ c = '\n' := by
  rw [blankCharacter]
  split_ifs with h
  · rfl
  · simp [h]

section Places
variable {source : List Char} {spans : List (Span RegionKind)} {kinds : List RegionKind}
  (hlength : kinds.length = source.length) (htiles : Tiles 0 spans kinds) {i : Nat}
include hlength htiles
omit [PythonCharacters]

/-- What stands in the blanked text at a place in a comment. -/
theorem blanked_inComment (h : InComment spans i) :
    ∃ c, source[i]? = some c ∧
      (List.zipWith blankAt kinds source)[i]? = some (blankCharacter c) := by
  obtain ⟨kind, hkind, hat⟩ := (inComment_iff htiles i).mp h
  have hi : i < source.length := hlength ▸ (List.getElem?_eq_some_iff.mp hat).1
  refine ⟨source[i], List.getElem?_eq_getElem hi, ?_⟩
  rw [List.getElem?_zipWith, hat, List.getElem?_eq_getElem hi]
  simp [blankAt, hkind]

theorem blanked_outside (h : ¬ InComment spans i) :
    (List.zipWith blankAt kinds source)[i]? = source[i]? := by
  rw [List.getElem?_zipWith]
  cases hat : kinds[i]? with
  | none =>
    have hi : source.length ≤ i := hlength ▸ List.getElem?_eq_none_iff.mp hat
    rw [List.getElem?_eq_none hi]
  | some kind =>
    have hcode : kind = .code := by
      by_contra hkind
      exact h ((inComment_iff htiles i).mpr ⟨kind, hkind, hat⟩)
    subst hcode
    cases source[i]? with
    | none => rfl
    | some c => rfl

end Places

/-- Every text is scanned to its end, and its blanked text is aligned with it. -/
theorem blanked_aligned (source : List Char) :
    ∃ spans blanked, regions source = some spans ∧ blankComments source = some blanked ∧
      Aligned source blanked spans := by
  obtain ⟨kinds, hreads⟩ := exists_reads none source
  obtain ⟨spans, hregions, htiles⟩ := regions_of_reads hreads
  have hlength := hreads.length_eq
  refine ⟨spans, _, hregions, blankComments_of_reads hreads, ?_⟩
  constructor
  case nonempty => exact regions_nonempty hregions
  case contiguous => simpa [hlength] using htiles.contiguous
  case opens => exact regions_opens hregions
  case length => simp [hlength]
  case newline =>
    intro i hin
    obtain ⟨c, hc, hblanked⟩ := blanked_inComment hlength htiles hin
    rw [hc, hblanked, Option.some.injEq, Option.some.injEq]
    exact blankCharacter_eq_newline_iff c
  case blank =>
    intro i hin hne
    obtain ⟨c, -, hblanked⟩ := blanked_inComment hlength htiles hin
    rw [hblanked, ne_eq, Option.some.injEq, blankCharacter_eq_newline_iff] at hne
    rw [hblanked, blankCharacter, if_neg hne]
  case outside => exact fun i hout => blanked_outside hlength htiles hout

end LightPhi.Docs
