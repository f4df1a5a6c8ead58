import LightPhi.Docs.Blanking
import LightPhi.Docs.Scopes
import Mathlib.Data.List.SplitBy

/-! The spans of documentation comments: a block by itself, and a run of adjacent lines as one. -/
namespace LightPhi.Docs
open Base

def spanText (source : List Char) (span : Span RegionKind) : List Char :=
  slice source span.start span.stop

def isBlockDoc (text : List Char) : Bool :=
  "/**".toList.isPrefixOf (lstrip text) || "/*!".toList.isPrefixOf (lstrip text)

/-- What `^///(?!<)` matches. -/
def isLineDoc (text : List Char) : Bool :=
  (behindWord "///".toList (lstrip text)).any fun behind => behind.head? ≠ some '<'

def isDocLine (source : List Char) (span : Span RegionKind) : Bool :=
  span.kind = .line && isLineDoc (spanText source span)

def isDocBlock (source : List Char) (span : Span RegionKind) : Bool :=
  span.kind = .block && isBlockDoc (spanText source span)

/-- The inner loop: where the run ends that has come to a place, and what is left. -/
def docRun (source : List Char) : Nat → List (Span RegionKind) → Nat × List (Span RegionKind)
  | stop, gap :: next :: rest =>
    if gap.kind = .code ∧ strip (spanText source gap) = [] ∧ isDocLine source next then
      docRun source next.stop rest
    else (stop, gap :: next :: rest)
  | stop, rest => (stop, rest)

theorem docRun_length_le (source : List Char) (stop : Nat) (spans : List (Span RegionKind)) :
    (docRun source stop spans).2.length ≤ spans.length := by
  fun_induction docRun source stop spans with
  | case1 stop gap next rest h ih =>
    simp only [List.length_cons]
    omega
  | case2 => rfl
  | case3 => rfl

def docSpans (source : List Char) : List (Span RegionKind) → List (Nat × Nat)
  | [] => []
  | span :: rest =>
    if isDocBlock source span then (span.start, span.stop) :: docSpans source rest
    else if isDocLine source span then
      (span.start, (docRun source span.stop rest).1) ::
        docSpans source (docRun source span.stop rest).2
    else docSpans source rest
termination_by spans => spans.length
decreasing_by
  · simp
  · exact Nat.lt_succ_of_le (docRun_length_le source _ rest)
  · simp

def isComment (span : Span RegionKind) : Bool := span.kind ≠ .code

/-- Two documentation lines with nothing but space between them. -/
def joins (source : List Char) (a b : Span RegionKind) : Bool :=
  isDocLine source a && isDocLine source b && strip (slice source a.stop b.start) = []

/-- The span of a run that begins as documentation does. -/
def runSpan (source : List Char) (run : List (Span RegionKind)) : Option (Nat × Nat) := do
  let first ← run.head?
  let last ← run.getLast?
  if isDocBlock source first || isDocLine source first then some (first.start, last.stop) else none

/-- How the regions of a text follow one another. -/
def Follows (a b : Span RegionKind) : Prop :=
  b.start = a.stop ∧ (a.kind = .code → b.kind ≠ .code) ∧ (a.kind = .line → b.kind = .code)

section Runs
variable {source : List Char}

theorem isComment_of_isDocLine {span : Span RegionKind} (h : isDocLine source span = true) :
    span.kind = .line := by
  rw [isDocLine, Bool.and_eq_true, decide_eq_true_eq] at h
  exact h.1

theorem filter_gap {span gap : Span RegionKind} {rest : List (Span RegionKind)}
    (hdoc : isDocLine source span = true) (h : (span :: gap :: rest).IsChain Follows) :
    gap.kind = .code ∧ (gap :: rest).filter isComment = rest.filter isComment := by
  have hcode := (List.isChain_cons_cons.mp h).1.2.2 (isComment_of_isDocLine hdoc)
  exact ⟨hcode, List.filter_cons_of_neg (by simp [isComment, hcode])⟩

theorem joins_over_gap {span gap next : Span RegionKind} (hdoc : isDocLine source span = true)
    (hgap : Follows span gap) (hnext : Follows gap next) :
    joins source span next = (isDocLine source next && strip (spanText source gap) = []) := by
  rw [joins, hdoc, hnext.1, ← hgap.1, Bool.true_and, spanText]

/-- A run of lines, and what is left behind it. -/
theorem docRun_splits {span : Span RegionKind} {rest : List (Span RegionKind)}
    (hdoc : isDocLine source span = true) (h : (span :: rest).IsChain Follows) :
    ∃ run last, rest.filter isComment = run ++ (docRun source span.stop rest).2.filter isComment ∧
      (span :: run).IsChain (fun a b => joins source a b) ∧
      (span :: run).getLast? = some last ∧ last.stop = (docRun source span.stop rest).1 ∧
      (∀ next ∈ ((docRun source span.stop rest).2.filter isComment).head?,
        joins source last next = false) ∧
      (docRun source span.stop rest).2.IsChain Follows := by
  generalize hstop : span.stop = stop
  fun_induction docRun source stop rest generalizing span with
  | case1 stop gap next rest hjoined ih =>
    obtain ⟨hcode, hfilter⟩ := filter_gap hdoc h
    obtain ⟨hgap, hrest⟩ := List.isChain_cons_cons.mp h
    obtain ⟨hnext, hbehind⟩ := List.isChain_cons_cons.mp hrest
    obtain ⟨run, last, hruns, hchain, hlast, hend, hcut, hleft⟩ :=
      ih hjoined.2.2 hbehind rfl
    refine ⟨next :: run, last, ?_, ?_, ?_, hend, hcut, hleft⟩
    · rw [hfilter, List.filter_cons_of_pos, hruns, List.cons_append]
      simp [isComment, isComment_of_isDocLine hjoined.2.2]
    · apply List.isChain_cons_cons.mpr
      refine ⟨?_, hchain⟩
      rw [joins_over_gap hdoc hgap hnext]
      simp [hjoined]
    · rw [List.getLast?_cons_cons, hlast]
  | case2 stop gap next rest hapart =>
    obtain ⟨hcode, hfilter⟩ := filter_gap hdoc h
    obtain ⟨hgap, hrest⟩ := List.isChain_cons_cons.mp h
    obtain ⟨hnext, -⟩ := List.isChain_cons_cons.mp hrest
    refine ⟨[], span, rfl, .singleton _, rfl, hstop, ?_, hrest⟩
    rw [hfilter, List.filter_cons_of_pos (by simp [isComment, hnext.2.1 hcode])]
    intro later hlater
    obtain rfl := Option.some.inj hlater
    rw [joins_over_gap hdoc hgap hnext]
    simp only [hcode, true_and, not_and, Bool.not_eq_true] at hapart
    by_cases hblank : strip (spanText source gap) = []
    · rw [hapart hblank, Bool.false_and]
    · simp [hblank]
  | case3 stop rest hshort =>
    refine ⟨[], span, rfl, .singleton _, rfl, hstop, ?_, ?_⟩
    · cases rest with
      | nil => simp
      | cons gap rest =>
        obtain ⟨-, hfilter⟩ := filter_gap hdoc h
        cases rest with
        | nil => simp [hfilter]
        | cons next rest => exact absurd rfl (hshort gap next rest)
    · exact (List.isChain_cons.mp h).2

theorem splitBy_run {run later : List (Span RegionKind)} {last : Span RegionKind}
    (hlast : run.getLast? = some last) (hchain : run.IsChain fun a b => joins source a b)
    (hcut : ∀ next ∈ later.head?, joins source last next = false) :
    (run ++ later).splitBy (joins source) = run :: later.splitBy (joins source) := by
  have hne : run ≠ [] := by
    rintro rfl
    cases hlast
  rw [List.splitBy_append, List.splitBy_of_isChain hne hchain, List.singleton_append]
  intro a ha b hb
  rw [hlast] at ha
  obtain rfl := Option.some.inj ha
  exact hcut b hb

theorem splitBy_alone {span : Span RegionKind} (hcut : ∀ next, joins source span next = false)
    (later : List (Span RegionKind)) :
    (span :: later).splitBy (joins source) = [span] :: later.splitBy (joins source) :=
  splitBy_run rfl (.singleton _) fun next _ => hcut next

/-- The loop finds the runs of comments that belong together. -/
theorem docSpans_eq {spans : List (Span RegionKind)} (h : spans.IsChain Follows) :
    docSpans source spans =
      ((spans.filter isComment).splitBy (joins source)).filterMap (runSpan source) := by
  fun_induction docSpans source spans with
  | case1 => rfl
  | case2 span rest hblock ih =>
    have hkind : span.kind = .block := by
      rw [isDocBlock, Bool.and_eq_true, decide_eq_true_eq] at hblock
      exact hblock.1
    have hcut : ∀ next, joins source span next = false := by
      intro next
      simp [joins, isDocLine, hkind]
    have hspan : runSpan source [span] = some (span.start, span.stop) := by
      simp [runSpan, hblock]
    rw [List.filter_cons_of_pos (by simp [isComment, hkind]), splitBy_alone hcut,
      List.filterMap_cons_some hspan, ih (List.isChain_cons.mp h).2]
  | case3 span rest hblock hline ih =>
    obtain ⟨run, last, hruns, hchain, hlast, hend, hcut, hleft⟩ := docRun_splits hline h
    have hspan : runSpan source (span :: run) =
        some (span.start, (docRun source span.stop rest).1) := by
      simp [runSpan, hlast, hline, hend]
    rw [List.filter_cons_of_pos (by simp [isComment, isComment_of_isDocLine hline]), hruns,
      ← List.cons_append, splitBy_run hlast hchain hcut, List.filterMap_cons_some hspan, ih hleft]
  | case4 span rest hblock hline ih =>
    rw [ih (List.isChain_cons.mp h).2]
    by_cases hcomment : isComment span
    · have hspan : runSpan source [span] = none := by
        simp [runSpan, hblock, hline]
      rw [List.filter_cons_of_pos hcomment, splitBy_alone fun next => by simp [joins, hline],
        List.filterMap_cons_none hspan]
    · rw [List.filter_cons_of_neg hcomment]

end Runs

/-- A line comment is followed by the end of its line, or by nothing. -/
theorem turn_line [PythonCharacters] {previous : Option Char} {text : List Char} {length : Nat}
    (h : turn previous text = (.line, length)) : text[length]? ≠ some '/' := by
  cases text with
  | nil => simp
  | cons c rest =>
    rw [turn] at h
    split at h
    · cases h
    · split_ifs at h
      · cases h
      · obtain ⟨-, rfl⟩ := Prod.mk.inj h
        cases hfound : find ['\n'] (c :: rest) with
        | none => simp
        | some i =>
          rw [Option.getD_some, (find_singleton_eq_some_iff.mp hfound).1]
          decide
      · cases h
      · cases h

theorem opening_slash {kind : RegionKind} (hkind : kind ≠ .code) :
    ∃ more, kind.opening = '/' :: more := by
  cases kind with
  | code => exact absurd rfl hkind
  | block => exact ⟨_, rfl⟩
  | line => exact ⟨_, rfl⟩

/-- Where a comment was found the source has a slash, and none behind a line comment. -/
theorem turn_slashes [PythonCharacters] {source : List Char} {previous : Option Char} {index : Nat}
    {kind : RegionKind} {length : Nat} (hkind : kind ≠ .code)
    (h : turn previous (source.drop index) = (kind, length)) :
    0 < length ∧ source[index]? = some '/' ∧
      (kind = .line → source[index + length]? ≠ some '/') := by
  obtain ⟨more, hopening⟩ := opening_slash hkind
  obtain ⟨rest, htext⟩ := hopening ▸ turn_opening h
  have hslash : (source.drop index)[0]? = some '/' := by
    rw [← htext]
    rfl
  rw [← htext] at h
  have hpos := (turn_bounds previous '/' (more ++ rest)).1
  refine ⟨?_, by simpa using hslash, ?_⟩
  · rwa [← List.cons_append, h] at hpos
  · rintro rfl
    rw [← List.getElem?_drop, ← htext]
    exact turn_line h

/-- What is recorded, without the empty spans, when the next code begins at a place. -/
structure Recorded (source : List Char) (spans : List (Span RegionKind)) (codeStart : Nat) :
    Prop where
  chain : spans.IsChain Follows
  first : spans = [] → codeStart = 0
  last : ∀ last ∈ spans.getLast?,
    last.stop = codeStart ∧ last.kind ≠ .code ∧ (last.kind = .line → source[codeStart]? ≠ some '/')

section Record
variable {source : List Char} {spans : List (Span RegionKind)} {codeStart : Nat}

theorem Recorded.code (h : Recorded source spans codeStart) (stop : Nat) :
    (spans ++ [Span.mk RegionKind.code codeStart stop]).IsChain Follows := by
  apply List.isChain_append.mpr
  refine ⟨h.chain, .singleton _, ?_⟩
  intro last hlast next hnext
  obtain ⟨hstop, hkind, -⟩ := h.last last hlast
  obtain rfl := Option.some.inj hnext
  exact ⟨hstop.symm, fun hcode => absurd hcode hkind, fun _ => rfl⟩

theorem Recorded.comment (h : Recorded source spans codeStart) {kind : RegionKind}
    {index stop : Nat} (hindex : codeStart ≤ index) (hslash : source[index]? = some '/')
    (hkind : kind ≠ .code) (hline : kind = .line → source[stop]? ≠ some '/') :
    Recorded source ((if codeStart < index then spans ++ [⟨.code, codeStart, index⟩] else spans) ++
      [⟨kind, index, stop⟩]) stop where
  chain := by
    apply List.isChain_append.mpr
    split_ifs with hcode
    · refine ⟨h.code index, .singleton _, ?_⟩
      intro last hlast next hnext
      rw [List.getLast?_concat] at hlast
      obtain rfl := Option.some.inj hlast
      obtain rfl := Option.some.inj hnext
      exact ⟨rfl, fun _ => hkind, fun hcode => by cases hcode⟩
    · refine ⟨h.chain, .singleton _, ?_⟩
      intro last hlast next hnext
      obtain ⟨hstop, hcomment, hslashes⟩ := h.last last hlast
      obtain rfl := Option.some.inj hnext
      obtain rfl : codeStart = index := by omega
      exact ⟨hstop.symm, fun hcode => absurd hcode hcomment,
        fun hlast => absurd hslash (hslashes hlast)⟩
  first hnil := by simp at hnil
  last last hlast := by
    rw [List.getLast?_concat] at hlast
    obtain rfl := Option.some.inj hlast
    exact ⟨rfl, hkind, hline⟩

end Record

section Scan
variable {source : List Char} {spans spans' : List (Span RegionKind)}

/-- The spans that are not empty. -/
def nonempty (spans : List (Span RegionKind)) : List (Span RegionKind) :=
  spans.filter fun span => span.start < span.stop

theorem nonempty_code (spans : List (Span RegionKind)) (start stop : Nat) :
    nonempty (spans ++ [⟨.code, start, stop⟩]) =
      if start < stop then nonempty spans ++ [⟨.code, start, stop⟩] else nonempty spans := by
  rw [nonempty, List.filter_append]
  split_ifs with hcode
  · rw [List.filter_cons_of_pos (by simpa using hcode)]
    rfl
  · rw [List.filter_cons_of_neg (by simpa using hcode), List.filter_nil, List.append_nil]
    rfl

theorem nonempty_comment (spans : List (Span RegionKind)) {codeStart index stop : Nat}
    {kind : RegionKind} (hstop : index < stop) :
    nonempty (spans ++ [⟨.code, codeStart, index⟩, ⟨kind, index, stop⟩]) =
      (if codeStart < index then nonempty spans ++ [⟨.code, codeStart, index⟩]
        else nonempty spans) ++ [⟨kind, index, stop⟩] := by
  have hcode := nonempty_code spans codeStart index
  rw [← hcode, List.append_cons, nonempty, List.filter_append]
  congr 1
  exact List.filter_cons_of_pos (by simpa using hstop)

theorem scan_chain [PythonCharacters] {turns index codeStart : Nat}
    (hrecorded : Recorded source (nonempty spans) codeStart) (hstart : codeStart ≤ index)
    (h : scan source turns index codeStart spans = some spans') :
    (nonempty spans').IsChain Follows := by
  induction turns generalizing index codeStart spans with
  | zero =>
    by_cases hindex : index < source.length
    · rw [scan, if_pos hindex] at h
      cases h
    · rw [scan_ended 0 hindex] at h
      obtain rfl := Option.some.inj h
      rw [nonempty_code]
      split_ifs
      · exact hrecorded.code _
      · exact hrecorded.chain
  | succ turns ih =>
    by_cases hindex : index < source.length
    · cases hturn : turn (source.take index).getLast? (source.drop index) with
      | mk kind length =>
        by_cases hkind : kind = .code
        · subst hkind
          rw [scan_code turns hindex hturn] at h
          exact ih hrecorded (Nat.le_add_right_of_le hstart) h
        · rw [scan_comment turns hindex hkind hturn] at h
          obtain ⟨hpos, hslash, hline⟩ := turn_slashes hkind hturn
          refine ih ?_ le_rfl h
          rw [nonempty_comment spans (Nat.lt_add_of_pos_right hpos)]
          exact hrecorded.comment hstart hslash hkind hline
    · rw [scan_ended _ hindex] at h
      obtain rfl := Option.some.inj h
      rw [nonempty_code]
      split_ifs
      · exact hrecorded.code _
      · exact hrecorded.chain

end Scan

theorem regions_chain [PythonCharacters] {source : List Char} {spans : List (Span RegionKind)}
    (h : regions source = some spans) : spans.IsChain Follows := by
  obtain ⟨all, hscan, rfl⟩ := Option.map_eq_some_iff.mp h
  exact scan_chain ⟨.nil, fun _ => rfl, by simp [nonempty]⟩ le_rfl hscan

/-- Whatever the text, its documentation spans are those of its runs of comments. -/
theorem docSpans_regions [PythonCharacters] (source : List Char) :
    ∃ spans, regions source = some spans ∧ docSpans source spans =
      ((spans.filter isComment).splitBy (joins source)).filterMap (runSpan source) := by
  obtain ⟨kinds, hreads⟩ := exists_reads none source
  obtain ⟨spans, hspans, -⟩ := regions_of_reads hreads
  exact ⟨spans, hspans, docSpans_eq (regions_chain hspans)⟩

end LightPhi.Docs
