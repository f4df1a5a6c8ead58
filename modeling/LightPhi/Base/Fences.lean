import Mathlib.Data.List.Basic
import Mathlib.Data.List.TakeWhile

/-! Texts whose lines open and close fences, read from the outside in: a fence goes on to the
first line that closes it, whatever is opened before that. -/
namespace LightPhi.Base

/-- How lines fence: a line may open a fence, with a mark and its information, and a fence is
closed by what closes its mark; some information says that what is inside is itself read. -/
structure Fencing (Mark Line Info : Type*) where
  opens : Line → Option (Mark × Info)
  closes : Mark → Line → Bool
  nests : Info → Bool

/-- What is read: lines, and fences with what is inside. -/
inductive Blocks (Line Info : Type*) where
  | nil
  | line (text : Line) (rest : Blocks Line Info)
  | fenced (info : Info) (inner rest : Blocks Line Info)

variable {Mark Line Info : Type*}

namespace Blocks

def append : Blocks Line Info → Blocks Line Info → Blocks Line Info
  | nil, blocks => blocks
  | line text rest, blocks => line text (rest.append blocks)
  | fenced info inner rest, blocks => fenced info inner (rest.append blocks)

def ofLines : List Line → Blocks Line Info
  | [] => nil
  | text :: lines => line text (ofLines lines)

theorem append_left_cancel {blocks first second : Blocks Line Info}
    (h : blocks.append first = blocks.append second) : first = second := by
  induction blocks with
  | nil => exact h
  | line text rest ih => exact ih (by simpa [append] using h)
  | fenced info inner rest _ ih => exact ih (by simpa [append] using h)

theorem append_nil (blocks : Blocks Line Info) : blocks.append nil = blocks := by
  induction blocks with
  | nil => rfl
  | line text rest ih => rw [append, ih]
  | fenced info inner rest _ ih => rw [append, ih]

end Blocks

namespace Fencing
variable (F : Fencing Mark Line Info)

def read : List Line → Blocks Line Info
  | [] => .nil
  | text :: lines =>
    match F.opens text with
    | none => .line text (read lines)
    | some (mark, info) =>
      let content := lines.takeWhile fun text => !F.closes mark text
      .fenced info (if F.nests info then read content else .ofLines content)
        (read (lines.drop (content.length + 1)))
termination_by lines => lines.length
decreasing_by
  · simp
  · have hle := (List.takeWhile_prefix (l := lines) fun text => !F.closes mark text).length_le
    simp only [List.length_cons]
    omega
  · simp only [List.length_cons, List.length_drop]
    omega

/-- Lines that write blocks, and of which none closes a fence of the given mark. -/
inductive Writes : Mark → Blocks Line Info → List Line → Prop where
  | nil {n} : Writes n .nil []
  | line {n text blocks lines} (hopens : F.opens text = none) (hn : F.closes n text = false)
      (h : Writes n blocks lines) : Writes n (.line text blocks) (text :: lines)
  | nested {n m info opener closer inner content rest lines} (hnests : F.nests info = true)
      (hopens : F.opens opener = some (m, info)) (hcloses : F.closes m closer = true)
      (hopener : F.closes n opener = false) (hcloser : F.closes n closer = false)
      (hcontent : ∀ text ∈ content, F.closes n text = false)
      (hinner : Writes m inner content) (hrest : Writes n rest lines) :
      Writes n (.fenced info inner rest) (opener :: content ++ closer :: lines)
  | literal {n m info opener closer content rest lines} (hnests : F.nests info = false)
      (hopens : F.opens opener = some (m, info)) (hcloses : F.closes m closer = true)
      (hopener : F.closes n opener = false) (hcloser : F.closes n closer = false)
      (hcontent : ∀ text ∈ content, F.closes n text = false)
      (hinner : ∀ text ∈ content, F.closes m text = false) (hrest : Writes n rest lines) :
      Writes n (.fenced info (.ofLines content) rest) (opener :: content ++ closer :: lines)

variable {F}

theorem Writes.not_closes {n : Mark} {blocks : Blocks Line Info} {lines : List Line}
    (h : F.Writes n blocks lines) : ∀ text ∈ lines, F.closes n text = false := by
  induction h with
  | nil => simp
  | line hopens hn h ih => simpa using ⟨hn, ih⟩
  | nested hnests hopens hcloses hopener hcloser hcontent hinner hrest _ ih =>
    intro text hmem
    rcases List.mem_append.mp hmem with hmem | hmem
    · cases hmem with
      | head => exact hopener
      | tail _ hmem => exact hcontent text hmem
    · cases hmem with
      | head => exact hcloser
      | tail _ hmem => exact ih text hmem
  | literal hnests hopens hcloses hopener hcloser hcontent hinner hrest ih =>
    intro text hmem
    rcases List.mem_append.mp hmem with hmem | hmem
    · cases hmem with
      | head => exact hopener
      | tail _ hmem => exact hcontent text hmem
    · cases hmem with
      | head => exact hcloser
      | tail _ hmem => exact ih text hmem

theorem Writes.append {n : Mark} {blocks blocks' : Blocks Line Info} {lines lines' : List Line}
    (h : F.Writes n blocks lines) (h' : F.Writes n blocks' lines') :
    F.Writes n (blocks.append blocks') (lines ++ lines') := by
  induction h with
  | nil => exact h'
  | line hopens hn h ih => exact .line hopens hn (ih h')
  | nested hnests hopens hcloses hopener hcloser hcontent hinner hrest _ ih =>
    rw [List.append_assoc, List.cons_append]
    exact .nested hnests hopens hcloses hopener hcloser hcontent hinner (ih h')
  | literal hnests hopens hcloses hopener hcloser hcontent hinner hrest ih =>
    rw [List.append_assoc, List.cons_append]
    exact .literal hnests hopens hcloses hopener hcloser hcontent hinner (ih h')

/-- What closes a fence of the second mark closes one of the first. -/
def Shorter (F : Fencing Mark Line Info) (m n : Mark) : Prop :=
  ∀ text, F.closes n text = true → F.closes m text = true

theorem Shorter.not_closes {m n : Mark} (hle : F.Shorter m n) {text : Line}
    (h : F.closes m text = false) : F.closes n text = false := by
  by_contra hcloses
  rw [Bool.not_eq_false] at hcloses
  rw [hle text hcloses] at h
  cases h

theorem read_opener {m : Mark} {info : Info} {opener : Line}
    (hopens : F.opens opener = some (m, info)) (lines : List Line) : F.read (opener :: lines) =
      .fenced info
        (if F.nests info then F.read (lines.takeWhile fun text => !F.closes m text)
          else .ofLines (lines.takeWhile fun text => !F.closes m text))
        (F.read (lines.drop ((lines.takeWhile fun text => !F.closes m text).length + 1))) := by
  rw [read, hopens]

/-- Up to its own closing line a fence is read as its content. -/
theorem read_fence {m : Mark} {info : Info} {opener closer : Line} {content lines : List Line}
    (hopens : F.opens opener = some (m, info)) (hcloses : F.closes m closer = true)
    (hcontent : ∀ text ∈ content, F.closes m text = false) :
    F.read (opener :: content ++ closer :: lines) =
      .fenced info (if F.nests info then F.read content else .ofLines content) (F.read lines) := by
  have htake : (content ++ closer :: lines).takeWhile (fun text => !F.closes m text) = content := by
    rw [List.takeWhile_append_of_pos (by simpa using hcontent),
      List.takeWhile_cons_of_neg (by simp [hcloses]), List.append_nil]
  have hdrop : (content ++ closer :: lines).drop (content.length + 1) = lines := by
    rw [List.drop_length_add_append, List.drop_one, List.tail_cons]
  rw [List.cons_append, read_opener hopens, htake, hdrop]

/-- A fence that is never closed goes on to the end. -/
theorem read_unclosed {m : Mark} {info : Info} {opener : Line} {lines : List Line}
    (hopens : F.opens opener = some (m, info)) (h : ∀ text ∈ lines, F.closes m text = false) :
    F.read (opener :: lines) =
      .fenced info (if F.nests info then F.read lines else .ofLines lines) .nil := by
  have htake : lines.takeWhile (fun text => !F.closes m text) = lines :=
    List.takeWhile_eq_self_iff.mpr (by simpa using h)
  have hdrop : lines.drop (lines.length + 1) = [] := List.drop_eq_nil_of_le (Nat.le_succ _)
  rw [read_opener hopens, htake, hdrop, read]

/-- What is written is read back, whatever follows. -/
theorem Writes.read_append {n : Mark} {blocks : Blocks Line Info} {lines : List Line}
    (h : F.Writes n blocks lines) (later : List Line) :
    F.read (lines ++ later) = blocks.append (F.read later) := by
  induction h generalizing later with
  | nil => rfl
  | line hopens hn h ih => rw [List.cons_append, read, hopens, ih, Blocks.append]
  | nested hnests hopens hcloses hopener hcloser hcontent hinner hrest ihinner ihrest =>
    have hread := ihinner []
    rw [List.append_nil, read, Blocks.append_nil] at hread
    rw [List.append_assoc]
    refine (read_fence hopens hcloses hinner.not_closes).trans ?_
    rw [if_pos hnests, hread]
    exact congrArg (Blocks.fenced _ _) (ihrest later)
  | literal hnests hopens hcloses hopener hcloser hcontent hinner hrest ih =>
    rw [List.append_assoc]
    refine (read_fence hopens hcloses hinner).trans ?_
    rw [if_neg (by simp [hnests])]
    exact congrArg (Blocks.fenced _ _) (ih later)

theorem Writes.read_eq {n : Mark} {blocks : Blocks Line Info} {lines : List Line}
    (h : F.Writes n blocks lines) : F.read lines = blocks := by
  have hread := h.read_append []
  rwa [List.append_nil, read, Blocks.append_nil] at hread

/-- Lines that open no fence which they do not close, and close none of the given mark. -/
def Whole (F : Fencing Mark Line Info) (n : Mark) (lines : List Line) : Prop :=
  F.Writes n (F.read lines) lines

theorem Writes.whole {n : Mark} {blocks : Blocks Line Info} {lines : List Line}
    (h : F.Writes n blocks lines) : F.Whole n lines := by
  rw [Whole, h.read_eq]
  exact h

namespace Whole
variable {n : Mark} {lines lines' : List Line}

theorem append (h : F.Whole n lines) (h' : F.Whole n lines') : F.Whole n (lines ++ lines') :=
  (Writes.append h h').whole

theorem flatMap {α : Type*} {entries : List α} {f : α → List Line}
    (h : ∀ entry ∈ entries, F.Whole n (f entry)) : F.Whole n (entries.flatMap f) := by
  induction entries with
  | nil => exact Writes.nil.whole
  | cons entry entries ih =>
    rw [List.flatMap_cons]
    exact (h entry (by simp)).append (ih fun later hmem => h later (List.mem_cons_of_mem _ hmem))

theorem of_lines (h : ∀ text ∈ lines, F.opens text = none ∧ F.closes n text = false) :
    F.Whole n lines := by
  induction lines with
  | nil => exact Writes.nil.whole
  | cons text lines ih =>
    obtain ⟨hopens, hcloses⟩ := h text (by simp)
    exact (Writes.line hopens hcloses
      (ih fun later hmem => h later (List.mem_cons_of_mem _ hmem))).whole

theorem nested {m : Mark} {info : Info} {opener closer : Line} (hnests : F.nests info = true)
    (hopens : F.opens opener = some (m, info)) (hcloses : F.closes m closer = true)
    (hopener : F.closes n opener = false) (hcloser : F.closes n closer = false)
    (hle : F.Shorter m n) (hinner : F.Whole m lines) (hrest : F.Whole n lines') :
    F.Whole n (opener :: lines ++ closer :: lines') :=
  (Writes.nested hnests hopens hcloses hopener hcloser
    (fun text hmem => hle.not_closes (Writes.not_closes hinner text hmem)) hinner
    hrest).whole

end Whole

end Fencing

end LightPhi.Base
