import LightPhi.Docs.Lexer

/-! Documentation comments: their tags, read line by line. -/
namespace LightPhi.Docs

/-- Python's `str.isspace`, which is also what `\s` matches. -/
def isspace (c : Char) : Bool :=
  let code := c.toNat
  (9 ≤ code && code ≤ 13) || (28 ≤ code && code ≤ 32) || code = 0x85 || code = 0xa0 ||
    code = 0x1680 || (0x2000 ≤ code && code ≤ 0x200a) || code = 0x2028 || code = 0x2029 ||
    code = 0x202f || code = 0x205f || code = 0x3000

def lstrip (line : List Char) : List Char := line.dropWhile isspace

def rstrip (line : List Char) : List Char := (line.reverse.dropWhile isspace).reverse

def strip (line : List Char) : List Char := rstrip (lstrip line)

/-- Stripping takes away spaces only. -/
theorem filter_lstrip (line : List Char) :
    (lstrip line).filter (fun c => !isspace c) = line.filter fun c => !isspace c := by
  induction line with
  | nil => rfl
  | cons c line ih =>
    rw [lstrip, List.dropWhile_cons]
    split_ifs with hspace
    · rw [List.filter_cons_of_neg (by simp [hspace])]
      exact ih
    · rfl

theorem filter_rstrip (line : List Char) :
    (rstrip line).filter (fun c => !isspace c) = line.filter fun c => !isspace c := by
  have h := filter_lstrip line.reverse
  rw [lstrip, List.filter_reverse] at h
  rw [rstrip, List.filter_reverse, h, List.reverse_reverse]

theorem filter_strip (line : List Char) :
    (strip line).filter (fun c => !isspace c) = line.filter fun c => !isspace c := by
  rw [strip, filter_rstrip, filter_lstrip]

/-- Some character is no space. -/
def HasInk (line : List Char) : Prop := line.filter (fun c => !isspace c) ≠ []

theorem hasInk_strip {line : List Char} (h : strip line ≠ []) : HasInk (strip line) := by
  rw [HasInk, filter_strip, ← filter_lstrip]
  intro hempty
  have hne : lstrip line ≠ [] := by
    intro hnil
    rw [strip, hnil] at h
    exact h rfl
  obtain ⟨c, rest, hline⟩ := List.exists_cons_of_ne_nil hne
  have hhead : isspace c = false := by
    have hnot := List.head?_dropWhile_not isspace line
    rw [← lstrip, hline] at hnot
    simpa using hnot
  rw [hline, List.filter_cons_of_pos (by simp [hhead])] at hempty
  exact List.cons_ne_nil _ _ hempty

/-- The alternatives of the decoration, in their order. -/
def decorations : List (List Char) :=
  ["/**<", "/**", "/*!", "///<", "///", "*/", "*"].map String.toList

/-- What is left of a line behind its decoration, where it has one. -/
def undecorated (raw : List Char) : Option (List Char) :=
  let body := lstrip raw
  (decorations.find? fun decoration => decoration.isPrefixOf body).map fun decoration =>
    match body.drop decoration.length with
    | ' ' :: rest => rest
    | '\t' :: rest => rest
    | rest => rest

def contentLine (raw : List Char) : List Char :=
  let line := (undecorated raw).getD (lstrip raw)
  if "*/".toList.isSuffixOf (rstrip line) then
    rstrip ((rstrip line).take ((rstrip line).length - 2))
  else line

def isBlank (line : List Char) : Bool := strip line = []

/-- The lines of a comment with its decoration removed. -/
def commentContent (text : List Char) : List (List Char) :=
  let lines := ((text.splitOn '\n').map contentLine).dropWhile isBlank
  (lines.reverse.dropWhile isBlank).reverse

section Tags
variable [PythonCharacters]

/-- What `\w` matches. -/
def isWord (c : Char) : Bool := PythonCharacters.isalnum c || c == '_'

def isSpaceOrTab (c : Char) : Bool := c == ' ' || c == '\t'

def doxygenNames : List (List Char) := ["param", "tparam"].map String.toList

def doxygenLines : List (List Char) :=
  ["file", "brief", "return", "returns", "note", "warning", "pre", "post"].map String.toList

/-- A Doxygen tag rewritten into the brace form, or the line unchanged. -/
def normalizedTag (line : List Char) : List Char :=
  match line with
  | [] => line
  | mark :: rest =>
    if mark = '\\' ∨ mark = '@' then
      let keyword := rest.takeWhile isWord
      let following := (rest.drop keyword.length).dropWhile isSpaceOrTab
      let name := following.takeWhile fun c => !isspace c
      if keyword ∈ doxygenNames ∧ name ≠ [] then
        rstrip ('{' :: (keyword ++ ' ' :: (name ++ '}' :: ' ' ::
          (following.drop name.length).dropWhile isSpaceOrTab)))
      else if keyword ∈ doxygenLines then
        let keyword := if keyword = "return".toList then "returns".toList else keyword
        rstrip ('{' :: (keyword ++ '}' :: ' ' :: following))
      else line
    else line

end Tags

/-- A line that opens a tag. -/
inductive TagLine where
  | param (name rest : List Char)
  | tparam (name rest : List Char)
  | page (name rest : List Char)
  | file (rest : List Char)
  | brief (rest : List Char)
  | returns (rest : List Char)
  | note (rest : List Char)
  | warning (rest : List Char)
  | pre (rest : List Char)
  | post (rest : List Char)
  deriving DecidableEq

/-- A tag in braces at the start of a line: what stands in them, and what follows. -/
def braced : List Char → Option (List Char × List Char)
  | '{' :: rest =>
    let inner := rest.takeWhile (· ≠ '}')
    match rest.drop inner.length with
    | '}' :: following => some (inner, lstrip following)
    | _ => none
  | _ => none

/-- A tag with a name. At least two characters stand behind its keyword, the first a space. -/
def tagNamed (line : List Char) : Option TagLine := do
  let (inner, rest) ← braced line
  let keyword := inner.takeWhile fun c => !isspace c
  let name := inner.drop keyword.length
  if name.length < 2 then none
  else if keyword = "param".toList then some (.param (strip name) rest)
  else if keyword = "tparam".toList then some (.tparam (strip name) rest)
  else if keyword = "page".toList then some (.page (strip name) rest)
  else none

def tagLine (line : List Char) : Option TagLine := do
  let (keyword, rest) ← braced line
  if keyword = "file".toList then some (.file rest)
  else if keyword = "brief".toList then some (.brief rest)
  else if keyword = "returns".toList then some (.returns rest)
  else if keyword = "note".toList then some (.note rest)
  else if keyword = "warning".toList then some (.warning rest)
  else if keyword = "pre".toList then some (.pre rest)
  else if keyword = "post".toList then some (.post rest)
  else none

/-- The tags recovered from one documentation comment. -/
structure DocComment where
  brief : List Char := []
  details : List (List Char) := []
  params : List (List Char × List Char) := []
  tparams : List (List Char × List Char) := []
  returns : List Char := []
  notes : List (List Char) := []
  warnings : List (List Char) := []
  preconditions : List (List Char) := []
  postconditions : List (List Char) := []
  page : Option (List Char × List Char) := none
  deriving DecidableEq

/-- A text with a continuation line behind it. -/
def extended (stripped existing : List Char) : List Char := strip (existing ++ ' ' :: stripped)

def updateLast {α : Type*} (f : α → α) (entries : List α) : List α :=
  entries.dropLast ++ entries.getLast?.toList.map f

namespace DocComment

def addDetail (line : List Char) (doc : DocComment) : DocComment :=
  { doc with details := doc.details ++ [line] }

def openTag (doc : DocComment) : TagLine → DocComment
  | .param name rest => { doc with params := doc.params ++ [(name, rest)] }
  | .tparam name rest => { doc with tparams := doc.tparams ++ [(name, rest)] }
  | .page name rest => { doc with page := some (name, rest) }
  | .file _ => doc
  | .brief rest => { doc with brief := rest }
  | .returns rest => { doc with returns := rest }
  | .note rest => { doc with notes := doc.notes ++ [rest] }
  | .warning rest => { doc with warnings := doc.warnings ++ [rest] }
  | .pre rest => { doc with preconditions := doc.preconditions ++ [rest] }
  | .post rest => { doc with postconditions := doc.postconditions ++ [rest] }

def extendParam (stripped : List Char) (doc : DocComment) : DocComment :=
  { doc with params := updateLast (Prod.map id (extended stripped)) doc.params }

def extendNote (stripped : List Char) (doc : DocComment) : DocComment :=
  { doc with notes := updateLast (extended stripped) doc.notes }

end DocComment

/-- What a line is for the parser: the branch it takes. -/
inductive DocLine where
  | fence
  | verbatim
  | tag (tag : TagLine)
  | text (stripped : List Char)
  deriving DecidableEq

/-- The parser between two lines. Its `current` is None or the details. -/
structure Parser where
  doc : DocComment := {}
  currentIsDetails : Bool := false
  inFence : Bool := false

namespace Parser

def addDetail (line : List Char) (p : Parser) : Parser := { p with doc := p.doc.addDetail line }

/-- A continuation line. -/
def continuation (line stripped : List Char) (p : Parser) : DocComment :=
  if p.currentIsDetails then p.doc.addDetail line
  else if p.doc.params ≠ [] ∧ stripped ≠ [] ∧ p.doc.details = [] then p.doc.extendParam stripped
  else if p.doc.notes ≠ [] ∧ stripped ≠ [] ∧ p.doc.details = [] then p.doc.extendNote stripped
  else p.doc.addDetail line

variable [PythonCharacters]

def branch (inFence : Bool) (line : List Char) : DocLine :=
  let stripped := normalizedTag (strip line)
  if "```".toList.isPrefixOf stripped then .fence
  else if inFence then .verbatim
  else
    match tagNamed stripped <|> tagLine stripped with
    | some tag => .tag tag
    | none => .text stripped

def read (p : Parser) (line : List Char) : Parser :=
  match branch p.inFence line with
  | .fence => { p.addDetail line with inFence := !p.inFence }
  | .verbatim => p.addDetail line
  | .tag (.page name rest) =>
    { p with doc := p.doc.openTag (.page name rest), currentIsDetails := true }
  | .tag tag => { p with doc := p.doc.openTag tag, currentIsDetails := false }
  | .text stripped => { p with doc := p.continuation line stripped }

def run (lines : List (List Char)) : Parser := lines.foldl read {}

theorem run_concat (lines : List (List Char)) (line : List Char) :
    run (lines ++ [line]) = (run lines).read line := List.foldl_concat ..

end Parser

def parseDoc [PythonCharacters] (text : List Char) : DocComment :=
  let doc := (Parser.run (commentContent text)).doc
  { doc with details := doc.details.dropWhile isBlank }

end LightPhi.Docs
