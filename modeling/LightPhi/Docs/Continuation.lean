import LightPhi.Base.Trace
import LightPhi.Docs.Comments
import LightPhi.Docs.DocComment

/-! Which tag a continuation line extends. The parser does not remember the tag opened last: it
looks which lists have entries, as long as there are no details. -/
namespace LightPhi.Docs
open Base

/-- A continuation changes the text it extends. -/
theorem extended_ne {stripped : List Char} (h : HasInk stripped) (existing : List Char) :
    extended stripped existing ≠ existing := by
  intro hsame
  have hink := filter_strip (existing ++ ' ' :: stripped)
  rw [← extended, hsame, List.filter_append, List.filter_cons_of_neg (by decide)] at hink
  exact h (List.self_eq_append_right.mp hink)

theorem updateLast_ne_nil_iff {α : Type*} {f : α → α} {entries : List α} :
    updateLast f entries ≠ [] ↔ entries ≠ [] := by
  cases List.eq_nil_or_concat' entries with
  | inl hnil => simp [hnil, updateLast]
  | inr hconcat =>
    obtain ⟨init, last, rfl⟩ := hconcat
    simp [updateLast]

theorem updateLast_ne {α : Type*} {f : α → α} (hf : ∀ entry, f entry ≠ entry) {entries : List α}
    (h : entries ≠ []) : updateLast f entries ≠ entries := by
  cases List.eq_nil_or_concat' entries with
  | inl hnil => exact absurd hnil h
  | inr hconcat =>
    obtain ⟨init, last, rfl⟩ := hconcat
    simpa [updateLast] using hf last

theorem hasInk_normalizedTag [PythonCharacters] {line : List Char}
    (h : normalizedTag (strip line) ≠ []) : HasInk (normalizedTag (strip line)) := by
  have hbrace (rest : List Char) : HasInk (rstrip ('{' :: rest)) := by
    rw [HasInk, filter_rstrip, List.filter_cons_of_pos (by decide)]
    exact List.cons_ne_nil _ _
  cases hline : strip line with
  | nil => exact absurd (by rw [hline]; rfl) h
  | cons mark rest =>
    have hkeep : HasInk (mark :: rest) := hline ▸ hasInk_strip (hline ▸ List.cons_ne_nil _ _)
    rw [normalizedTag]
    dsimp only
    split_ifs
    · exact hbrace _
    · exact hbrace _
    · exact hbrace _
    · exact hkeep
    · exact hkeep

def TagLine.isParam : TagLine → Bool
  | .param _ _ => true
  | _ => false

def TagLine.isNote : TagLine → Bool
  | .note _ => true
  | _ => false

def TagLine.isPage : TagLine → Bool
  | .page _ _ => true
  | _ => false

def DocLine.tag? : DocLine → Option TagLine
  | .tag line => some line
  | _ => none

/-- The tags opened, in order. -/
def opened (before : List DocLine) : List TagLine := before.filterMap DocLine.tag?

theorem opened_concat_tag (before : List DocLine) (tag : TagLine) :
    opened (before ++ [.tag tag]) = opened before ++ [tag] := List.filterMap_append ..

theorem opened_concat_of_none {line : DocLine} (h : line.tag? = none) (before : List DocLine) :
    opened (before ++ [line]) = opened before := by
  rw [opened, List.filterMap_append, List.filterMap_cons_none h]
  exact List.append_nil _

/-- A page was opened last. -/
def PageOpen (before : List DocLine) : Prop := ∃ tag ∈ (opened before).getLast?, tag.isPage

/-- The line is not kept with the details: it opens a tag, or is a plain line behind a parameter or
a note. -/
def SkipsDetails (before : List DocLine) : DocLine → Prop
  | .fence | .verbatim => False
  | .tag _ => True
  | .text stripped => stripped ≠ [] ∧ ¬ PageOpen before ∧
    ((opened before).any TagLine.isParam ∨ (opened before).any TagLine.isNote)

/-- The tag whose list the parser looks at is the one opened last. -/
def LooksAtLast (before : List DocLine) : DocLine → Prop
  | .text stripped => stripped ≠ [] → ¬ PageOpen before → Always SkipsDetails before →
    ((opened before).any TagLine.isParam → ∃ tag ∈ (opened before).getLast?, tag.isParam) ∧
      (¬ (opened before).any TagLine.isParam → (opened before).any TagLine.isNote →
        ∃ tag ∈ (opened before).getLast?, tag.isNote)
  | _ => True

/-- The lines as the parser takes them, with whether a fence is open. -/
def classify [PythonCharacters] (s : Bool × List DocLine) (line : List Char) :
    Bool × List DocLine :=
  (if Parser.branch s.1 line = .fence then !s.1 else s.1, s.2 ++ [Parser.branch s.1 line])

def docLines [PythonCharacters] (lines : List (List Char)) : List DocLine :=
  (lines.foldl classify (false, [])).2

/-- What the tags so far make of the parser. -/
structure Parser.Follows (before : List DocLine) (p : Parser) : Prop where
  params : p.doc.params ≠ [] ↔ (opened before).any TagLine.isParam
  notes : p.doc.notes ≠ [] ↔ (opened before).any TagLine.isNote
  current : p.currentIsDetails = true ↔ PageOpen before
  details : p.doc.details = [] ↔ Always SkipsDetails before

/-- A line that opens no tag. -/
theorem Parser.Follows.untagged {before : List DocLine} {p p' : Parser} (h : p.Follows before)
    {line : DocLine} (htag : line.tag? = none) (hparams : p'.doc.params ≠ [] ↔ p.doc.params ≠ [])
    (hnotes : p'.doc.notes ≠ [] ↔ p.doc.notes ≠ [])
    (hcurrent : p'.currentIsDetails = p.currentIsDetails)
    (hdetails : p'.doc.details = [] ↔ p.doc.details = [] ∧ SkipsDetails before line) :
    p'.Follows (before ++ [line]) := by
  have hopened := opened_concat_of_none htag before
  refine ⟨?_, ?_, ?_, ?_⟩
  · rw [hopened, hparams]
    exact h.params
  · rw [hopened, hnotes]
    exact h.notes
  · rw [PageOpen, hopened, hcurrent]
    exact h.current
  · rw [always_concat, hdetails, h.details]

theorem Parser.Follows.detail {before : List DocLine} {p : Parser} (h : p.Follows before)
    (line : DocLine) (htag : line.tag? = none)
    (hkeeps : ¬ (p.doc.details = [] ∧ SkipsDetails before line)) (text : List Char)
    (inFence : Bool) :
    Parser.Follows (before ++ [line]) { p.addDetail text with inFence := inFence } := by
  refine h.untagged htag Iff.rfl Iff.rfl rfl ?_
  simp only [Parser.addDetail, DocComment.addDetail, List.append_eq_nil_iff, List.cons_ne_nil,
    and_false, false_iff]
  exact hkeeps

theorem Parser.Follows.tag {before : List DocLine} {p : Parser} (h : p.Follows before)
    (tag : TagLine) : Parser.Follows (before ++ [.tag tag])
      { p with doc := p.doc.openTag tag, currentIsDetails := tag.isPage } := by
  refine ⟨?_, ?_, ?_, ?_⟩
  · have hparams := h.params
    rw [opened_concat_tag, List.any_append]
    cases tag with
    | param name rest => simp [DocComment.openTag, TagLine.isParam]
    | _ => simpa [DocComment.openTag, TagLine.isParam] using hparams
  · have hnotes := h.notes
    rw [opened_concat_tag, List.any_append]
    cases tag with
    | note rest => simp [DocComment.openTag, TagLine.isNote]
    | _ => simpa [DocComment.openTag, TagLine.isNote] using hnotes
  · simp [PageOpen, opened_concat_tag]
  · have hdetails := h.details
    rw [always_concat]
    cases tag with
    | _ => simpa [DocComment.openTag, SkipsDetails] using hdetails

theorem Parser.Follows.text {before : List DocLine} {p : Parser} (h : p.Follows before)
    (line stripped : List Char) : Parser.Follows (before ++ [.text stripped])
      { p with doc := p.continuation line stripped } := by
  have hdetail (hkeeps : ¬ (p.doc.details = [] ∧ SkipsDetails before (.text stripped))) :=
    h.detail (.text stripped) rfl hkeeps line p.inFence
  rw [Parser.continuation]
  split_ifs with hcurrent hparams hnotes
  · exact hdetail fun hskips => hskips.2.2.1 (h.current.mp hcurrent)
  · obtain ⟨hne, hstripped, hempty⟩ := hparams
    refine h.untagged rfl updateLast_ne_nil_iff Iff.rfl rfl (iff_of_true hempty ⟨hempty, ?_⟩)
    exact ⟨hstripped, mt h.current.mpr hcurrent, Or.inl (h.params.mp hne)⟩
  · obtain ⟨hne, hstripped, hempty⟩ := hnotes
    refine h.untagged rfl Iff.rfl updateLast_ne_nil_iff rfl (iff_of_true hempty ⟨hempty, ?_⟩)
    exact ⟨hstripped, mt h.current.mpr hcurrent, Or.inr (h.notes.mp hne)⟩
  · refine hdetail fun ⟨hempty, hstripped, _, hlists⟩ => ?_
    cases hlists with
    | inl hparam => exact hparams ⟨h.params.mpr hparam, hstripped, hempty⟩
    | inr hnote => exact hnotes ⟨h.notes.mpr hnote, hstripped, hempty⟩

section Run
variable [PythonCharacters]

theorem Parser.Follows.read {before : List DocLine} {p : Parser} (h : p.Follows before)
    (line : List Char) : (p.read line).Follows (before ++ [Parser.branch p.inFence line]) := by
  rw [Parser.read]
  cases Parser.branch p.inFence line with
  | fence => exact h.detail .fence rfl (fun hskips => hskips.2) line _
  | verbatim => exact h.detail .verbatim rfl (fun hskips => hskips.2) line _
  | text stripped => exact h.text line stripped
  | tag tag =>
    cases tag with
    | _ => exact h.tag _

theorem Parser.inFence_read (p : Parser) (line : List Char) :
    (p.read line).inFence =
      if Parser.branch p.inFence line = .fence then !p.inFence else p.inFence := by
  rw [Parser.read]
  cases Parser.branch p.inFence line with
  | fence => rfl
  | verbatim => rfl
  | text stripped => rfl
  | tag tag =>
    cases tag with
    | _ => rfl

theorem inFence_run (lines : List (List Char)) :
    (lines.foldl classify (false, [])).1 = (Parser.run lines).inFence := by
  induction lines using List.reverseRecOn with
  | nil => rfl
  | append_singleton lines line ih =>
    rw [List.foldl_concat, classify, ih, Parser.run_concat, Parser.inFence_read]

theorem docLines_concat (lines : List (List Char)) (line : List Char) :
    docLines (lines ++ [line]) =
      docLines lines ++ [Parser.branch (Parser.run lines).inFence line] := by
  rw [docLines, List.foldl_concat, classify, inFence_run]
  rfl

theorem follows_run (lines : List (List Char)) : (Parser.run lines).Follows (docLines lines) := by
  induction lines using List.reverseRecOn with
  | nil =>
    refine ⟨?_, ?_, ?_, ?_⟩
    · simp [Parser.run, docLines, opened]
    · simp [Parser.run, docLines, opened]
    · simp [Parser.run, docLines, opened, PageOpen]
    · simp [Parser.run, docLines]
  | append_singleton lines line ih =>
    rw [docLines_concat, Parser.run_concat]
    exact ih.read line

end Run

/-- The text of the tag goes on with the line; a file has no text. -/
def DocComment.extendTag (stripped : List Char) (doc : DocComment) : TagLine → DocComment
  | .param _ _ => doc.extendParam stripped
  | .tparam _ _ =>
    { doc with tparams := updateLast (Prod.map id (extended stripped)) doc.tparams }
  | .page _ _ => { doc with page := doc.page.map (Prod.map id (extended stripped)) }
  | .file _ => doc
  | .brief _ => { doc with brief := extended stripped doc.brief }
  | .returns _ => { doc with returns := extended stripped doc.returns }
  | .note _ => doc.extendNote stripped
  | .warning _ => { doc with warnings := updateLast (extended stripped) doc.warnings }
  | .pre _ => { doc with preconditions := updateLast (extended stripped) doc.preconditions }
  | .post _ => { doc with postconditions := updateLast (extended stripped) doc.postconditions }

/-- A line that opens no tag, outside a fence, goes to the details or to the tag opened last, and
changes nothing else. -/
def KeepsToTag [PythonCharacters] (before : List (List Char)) (line : List Char) : Prop :=
  ∀ stripped, Parser.branch (Parser.run before).inFence line = .text stripped →
    (Parser.run (before ++ [line])).doc = (Parser.run before).doc.addDetail line ∨
      ∃ tag ∈ (opened (docLines before)).getLast?,
        (Parser.run (before ++ [line])).doc = (Parser.run before).doc.extendTag stripped tag

namespace DocComment
variable {doc : DocComment} {stripped : List Char}

/-- Only a parameter's text is a parameter's. -/
theorem isParam_of_extendParam_eq (h : HasInk stripped) (hparams : doc.params ≠ []) {tag : TagLine}
    (heq : doc.extendParam stripped = doc.extendTag stripped tag) : tag.isParam := by
  have hne : updateLast (Prod.map id (extended stripped)) doc.params ≠ doc.params :=
    updateLast_ne (fun entry hsame => extended_ne h entry.2 (congrArg Prod.snd hsame)) hparams
  cases tag with
  | param _ _ => rfl
  | _ => exact absurd (congrArg DocComment.params heq) hne

theorem isNote_of_extendNote_eq (h : HasInk stripped) (hnotes : doc.notes ≠ []) {tag : TagLine}
    (heq : doc.extendNote stripped = doc.extendTag stripped tag) : tag.isNote := by
  have hne : updateLast (extended stripped) doc.notes ≠ doc.notes :=
    updateLast_ne (extended_ne h) hnotes
  cases tag with
  | note _ => rfl
  | _ => exact absurd (congrArg DocComment.notes heq) hne

theorem extendTag_of_isParam {tag : TagLine} (h : tag.isParam) :
    doc.extendTag stripped tag = doc.extendParam stripped := by
  cases tag with
  | param _ _ => rfl
  | _ => exact Bool.noConfusion h

theorem extendTag_of_isNote {tag : TagLine} (h : tag.isNote) :
    doc.extendTag stripped tag = doc.extendNote stripped := by
  cases tag with
  | note _ => rfl
  | _ => exact Bool.noConfusion h

/-- A line added to the details is not lost in another list. -/
theorem ne_addDetail (doc doc' : DocComment) (h : doc'.details = doc.details) (line : List Char) :
    doc' ≠ doc.addDetail line := by
  intro hsame
  have hdetails := congrArg DocComment.details hsame
  rw [h] at hdetails
  exact absurd (List.self_eq_append_right.mp hdetails) (List.cons_ne_nil _ _)

end DocComment

section Extension
variable [PythonCharacters]

theorem hasInk_of_branch {inFence : Bool} {line stripped : List Char}
    (h : Parser.branch inFence line = .text stripped) (hne : stripped ≠ []) : HasInk stripped := by
  have hline : stripped = normalizedTag (strip line) := by
    rw [Parser.branch] at h
    split_ifs at h
    split at h
    · cases h
    · exact (DocLine.text.inj h).symm
  subst hline
  exact hasInk_normalizedTag hne

/-- One line keeps to its tag when the parser looks at the list of that tag, and only then. -/
theorem keepsToTag_iff (before : List (List Char)) (line : List Char) :
    KeepsToTag before line ↔
      LooksAtLast (docLines before) (Parser.branch (Parser.run before).inFence line) := by
  have hfollows := follows_run before
  rw [KeepsToTag, Parser.run_concat, Parser.read]
  generalize hbranch : Parser.branch (Parser.run before).inFence line = branch
  generalize Parser.run before = p at hfollows hbranch
  cases branch with
  | fence => exact iff_of_true (by simp) trivial
  | verbatim => exact iff_of_true (by simp) trivial
  | tag tag => exact iff_of_true (by simp) trivial
  | text stripped =>
    simp only [DocLine.text.injEq, forall_eq', LooksAtLast]
    rw [Parser.continuation]
    constructor
    · intro hkeeps hne hpage hskips
      have hink := hasInk_of_branch hbranch hne
      have hcurrent := mt hfollows.current.mp hpage
      have hempty := hfollows.details.mpr hskips
      rw [if_neg hcurrent] at hkeeps
      constructor
      · intro hparam
        have hparams := hfollows.params.mpr hparam
        rw [if_pos ⟨hparams, hne, hempty⟩] at hkeeps
        cases hkeeps with
        | inl hdetail =>
          exact absurd hdetail (p.doc.ne_addDetail (p.doc.extendParam stripped) rfl line)
        | inr htag =>
          obtain ⟨tag, hlast, hsame⟩ := htag
          exact ⟨tag, hlast, DocComment.isParam_of_extendParam_eq hink hparams hsame⟩
      · intro hparam hnote
        have hparams := mt hfollows.params.mp hparam
        have hnotes := hfollows.notes.mpr hnote
        rw [if_neg fun h => hparams h.1, if_pos ⟨hnotes, hne, hempty⟩] at hkeeps
        cases hkeeps with
        | inl hdetail =>
          exact absurd hdetail (p.doc.ne_addDetail (p.doc.extendNote stripped) rfl line)
        | inr htag =>
          obtain ⟨tag, hlast, hsame⟩ := htag
          exact ⟨tag, hlast, DocComment.isNote_of_extendNote_eq hink hnotes hsame⟩
    · intro hlooks
      split_ifs with hcurrent hparams hnotes
      · exact Or.inl rfl
      · obtain ⟨hlist, hne, hempty⟩ := hparams
        obtain ⟨tag, hlast, hparam⟩ := (hlooks hne (mt hfollows.current.mpr hcurrent)
          (hfollows.details.mp hempty)).1 (hfollows.params.mp hlist)
        exact Or.inr ⟨tag, hlast, (DocComment.extendTag_of_isParam hparam).symm⟩
      · obtain ⟨hlist, hne, hempty⟩ := hnotes
        have hparam : ¬ (opened (docLines before)).any TagLine.isParam :=
          fun h => hparams ⟨hfollows.params.mpr h, hne, hempty⟩
        obtain ⟨tag, hlast, hnote⟩ := (hlooks hne (mt hfollows.current.mpr hcurrent)
          (hfollows.details.mp hempty)).2 hparam (hfollows.notes.mp hlist)
        exact Or.inr ⟨tag, hlast, (DocComment.extendTag_of_isNote hnote).symm⟩
      · exact Or.inl rfl

theorem always_keepsToTag_iff (lines : List (List Char)) :
    Always KeepsToTag lines ↔ Always LooksAtLast (docLines lines) := by
  induction lines using List.reverseRecOn with
  | nil => exact iff_of_true always_nil always_nil
  | append_singleton lines line ih =>
    rw [docLines_concat, always_concat, always_concat, ih, keepsToTag_iff]

/-- In every comment, continuation lines keep to their tags when each stands behind the tag whose
list the parser looks at, and only then. -/
theorem continuation_iff (text : List Char) :
    Always KeepsToTag (commentContent text) ↔ Always LooksAtLast (docLines (commentContent text)) :=
  always_keepsToTag_iff (commentContent text)

end Extension

/-- The line behind the returns goes to the parameter. -/
def returnsText : List Char := "{param x} a\n{returns} b\nc".toList

section Returns
attribute [local instance] asciiPython

theorem continuation_misplaced : ¬ Always KeepsToTag (commentContent returnsText) := by
  intro h
  have hlines : commentContent returnsText =
      ["{param x} a".toList, "{returns} b".toList] ++ "c".toList :: [] := by decide
  have hkeeps := h _ _ _ hlines ['c'] (by decide)
  have hdoc : (Parser.run (["{param x} a".toList, "{returns} b".toList] ++ ["c".toList])).doc =
      { params := [(['x'], "a c".toList)], returns := ['b'] } := by decide
  rw [hdoc] at hkeeps
  revert hkeeps
  decide

end Returns
end LightPhi.Docs
