import LightPhi.Base.Grouping
import LightPhi.Docs.Rendering
import Mathlib.Data.Char
import Mathlib.Data.List.Dedup
import Mathlib.Data.List.Lex
import Mathlib.Data.Prod.Lex

/-! The class diagram of one file. Sets of names have no order of their own: wherever one is gone
through, the order is a parameter. -/
namespace LightPhi.Docs
open Base

/-- What one translation unit contributes to the diagrams. -/
structure FileDoc where
  title : Line
  entities : List Entity

/-- The keyword of a box. No other kind has one. -/
def pumlKind : EntityKind → Option Line
  | .ofClass => some "class".toList
  | .ofStruct => some "class".toList
  | .ofEnum => some "enum".toList
  | _ => none

/-- The types that a diagram draws. -/
def FileDoc.drawn (document : FileDoc) : List Entity :=
  document.entities.filter fun entity => (pumlKind entity.kind).isSome

/-- Every documented type in the project, with the file that declares it. -/
abbrev TypeIndex := List (Line × Entity × FileDoc)

def TypeIndex.build (documents : List FileDoc) : TypeIndex :=
  documents.foldl (fun index document =>
    document.entities.foldl (fun index entity =>
      if (pumlKind entity.kind).isSome && !(index.map Prod.fst).contains entity.name then
        index ++ [(entity.name, entity, document)]
      else index) index) []

def TypeIndex.known (index : TypeIndex) : List Line := index.map Prod.fst

inductive Arrow where
  | inherits
  | holds
  | uses
  deriving DecidableEq

def Arrow.text : Arrow → Line
  | .inherits => "--|>".toList
  | .holds => "-->".toList
  | .uses => "..>".toList

/-- One thing that connects a type to another. -/
structure Connection where
  source : Line
  target : Line
  arrow : Arrow
  label : Line

/-- The two types of an edge and its arrow, ordered as the texts are. -/
abbrev Edge := Line ×ₗ Line ×ₗ Line

def Connection.edge (connection : Connection) : Edge :=
  toLex (connection.source, toLex (connection.target, connection.arrow.text))

def maximumDrawnMembers : Nat := 8

def maximumEdgeLabels : Nat := 2

section Mentions
variable [PythonCharacters]

/-- Whether `\bname\b` matches at the head of a text. -/
def matchesName (name : Line) (previous : Option Char) (text : Line) : Bool :=
  name.isPrefixOf text &&
    (previous.any isWord != text.head?.any isWord) &&
    ((name.getLast?.or previous).any isWord != (text.drop name.length).head?.any isWord)

def mentionsFrom (name : Line) : Option Char → Line → Bool
  | previous, [] => matchesName name previous []
  | previous, c :: rest => matchesName name previous (c :: rest) || mentionsFrom name (some c) rest

/-- The type names that a piece of declaration text refers to. -/
def mentions (text : Line) (names : List Line) : List Line :=
  names.filter fun name => mentionsFrom name none text

end Mentions

section Relations
variable [PythonCharacters] (enumerate : List Line → List Line)

def connectionsOfType (index : TypeIndex) (entity : Entity) : List Connection :=
  entity.bases.map (fun base =>
    { source := entity.name, target := base, arrow := .inherits, label := [] }) ++
  (entity.fields.filter fun field => field.access = .ofPublic).flatMap fun field =>
    (enumerate (mentions field.declaration index.known)).map fun target =>
      { source := entity.name, target, arrow := .holds, label := field.name }

def connectionsOfFunction (index : TypeIndex) (entity : Entity) : List Connection :=
  (enumerate (mentions entity.signature index.known)).map fun target =>
    { source := entity.owner, target, arrow := .uses, label := entity.name }

/-- What is recorded: no type is connected to itself, or to a name that is no type. -/
def recorded (entities drawn : List Entity) (index : TypeIndex) : List Connection :=
  (drawn.flatMap (connectionsOfType enumerate index) ++
    (entities.filter fun entity =>
      entity.kind = .ofFunction && (drawn.map Entity.name).contains entity.owner).flatMap
        (connectionsOfFunction enumerate index)).filter fun connection =>
    connection.target != connection.source && index.known.contains connection.target

def sortedNames (names : List Line) : List Line := names.mergeSort fun a b => a ≤ b

/-- What an edge is labelled with. -/
def summary (labels : List Line) : Line :=
  if labels = [] then []
  else if labels.length ≤ maximumEdgeLabels then ", ".toList.intercalate (sortedNames labels)
  else (toString labels.length).toList ++ " members".toList

/-- The edges of the diagram, and the outside types that they reach. -/
def relations (entities drawn : List Entity) (index : TypeIndex) :
    List (Edge × Line) × List Line :=
  let connections := recorded enumerate entities drawn index
  let groups := grouped (connections.map fun connection =>
    (connection.edge, if connection.label = [] then none else some connection.label))
  ((sortedByKey groups).map fun entry => (entry.1, summary entry.2),
    ((connections.map Connection.target).filter fun target =>
      !(drawn.map Entity.name).contains target).dedup)

end Relations

/-- The lines drawn inside a class box. -/
def membersLines (entity : Entity) : List Line :=
  ((entity.fields.filter fun field => field.access = .ofPublic).take maximumDrawnMembers).map
    (fun field => "  +".toList ++ field.name ++ " : ".toList ++ field.type) ++
  if maximumDrawnMembers < entity.fields.length then
    ["  .. ".toList ++ (toString (entity.fields.length - maximumDrawnMembers)).toList ++
      " more ..".toList]
  else []

/-- The operations each type publishes, keyed by type name. -/
def collectOperations (documents : List FileDoc) : List (Line × List Line) :=
  documents.foldl (fun operations document =>
    document.entities.foldl (fun operations entity =>
      if entity.kind = .ofFunction ∧ entity.owner ≠ [] ∧ entity.name ≠ entity.owner then
        enter entity.owner (· ++ ['+' :: (entity.name ++ "()".toList)]) operations
      else operations) operations) []

def boxLine (keyword name remark : Line) : Line :=
  keyword ++ ' ' :: (name ++ remark ++ [' ', '\x7b'])

/-- A type of the file. An entity that is no type has no box to draw. -/
def drawnBox (operations : List (Line × List Line)) (entity : Entity) : Option (List Line) :=
  (pumlKind entity.kind).map fun keyword =>
    boxLine keyword entity.name [] ::
      ((if entity.kind = .ofEnum then
          (entity.members.take maximumDrawnMembers).map fun member => "  ".toList ++ member.1
        else membersLines entity) ++
        ((valuesOf operations entity.name).take maximumDrawnMembers).map fun signature =>
          "  ".toList ++ signature) ++ [['\x7d']]

/-- A type from another file. A name that the index lacks, or holds no type under, has no box. -/
def outsideBox (index : TypeIndex) (name : Line) : Option (List Line) := do
  let (entity, document) ← index.lookup name
  let keyword ← pumlKind entity.kind
  some [boxLine keyword name (" <<".toList ++ document.title ++ ">> #F5F5F5".toList), ['\x7d']]

def edgeLine (edge : Edge) (label : Line) : Line :=
  let (source, behind) := ofLex edge
  let (target, arrow) := ofLex behind
  source ++ ' ' :: (arrow ++ ' ' :: (target ++
    if label = [] then [] else " : ".toList ++ label))

/-- The lines of the diagram, where there is one. A box that cannot be drawn ends the drawing. -/
def renderDiagram [PythonCharacters] (enumerate : List Line → List Line) (document : FileDoc)
    (index : TypeIndex) (operations : List (Line × List Line)) : Option (Option (List Line)) :=
  if document.drawn = [] then some none
  else
    let edges := (relations enumerate document.entities document.drawn index).1
    let outside := (relations enumerate document.entities document.drawn index).2
    if edges = [] ∧ document.drawn.length < 2 then some none
    else do
      let boxes ← document.drawn.mapM (drawnBox operations)
      let neighbours ← (sortedNames outside).mapM (outsideBox index)
      some (some (
        ["@startuml".toList, "!pragma layout elk".toList, "title ".toList ++ document.title,
          "skinparam classAttributeIconSize 0".toList, "skinparam shadowing false".toList,
          "hide empty members".toList, []] ++
        boxes.flatten ++ neighbours.flatten ++
        (if outside = [] then [] else [[]]) ++
        edges.map (fun edge => edgeLine edge.1 edge.2) ++ [[], "@enduml".toList, []]))

theorem sortedNames_eq {names names' : List Line} (h : names.Perm names') :
    sortedNames names = sortedNames names' := by
  have hsorted : ∀ names, (sortedNames names).Pairwise fun a b => a ≤ b := by
    intro names
    have hbool : (sortedNames names).Pairwise fun a b => decide (a ≤ b) = true :=
      List.pairwise_mergeSort
        (fun a b c hab hbc => by
          simpa using (of_decide_eq_true hab).trans (of_decide_eq_true hbc))
        (fun a b => by simpa using le_total a b) names
    exact hbool.imp of_decide_eq_true
  have hperm : (sortedNames names).Perm (sortedNames names') :=
    ((List.mergeSort_perm _ _).trans h).trans (List.mergeSort_perm _ _).symm
  exact hperm.eq_of_pairwise (fun a b _ _ => le_antisymm) (hsorted names) (hsorted names')

theorem summary_eq {labels labels' : List Line} (h : labels.Perm labels') :
    summary labels = summary labels' := by
  have hnil : labels = [] ↔ labels' = [] := by
    rw [← List.length_eq_zero_iff, ← List.length_eq_zero_iff, h.length_eq]
  simp only [summary, hnil, h.length_eq, sortedNames_eq h]

section Settled
variable [PythonCharacters] {enumerate enumerate' : List Line → List Line}
  (h : ∀ names, (enumerate names).Perm (enumerate' names))
include h

theorem recorded_perm (entities drawn : List Entity) (index : TypeIndex) :
    (recorded enumerate entities drawn index).Perm (recorded enumerate' entities drawn index) := by
  apply List.Perm.filter
  apply List.Perm.append
  · apply List.Perm.flatMap_left
    intro entity _
    apply List.Perm.append_left
    apply List.Perm.flatMap_left
    intro field _
    exact (h _).map _
  · apply List.Perm.flatMap_left
    intro entity _
    exact (h _).map _

/-- The order in which sets are gone through changes no edge. -/
theorem relations_edges (entities drawn : List Entity) (index : TypeIndex) :
    (relations enumerate entities drawn index).1 =
      (relations enumerate' entities drawn index).1 := by
  have hrecorded := recorded_perm h entities drawn index
  have hgroups := groups_grouped ((recorded enumerate entities drawn index).map fun connection =>
    (connection.edge, if connection.label = [] then none else some connection.label))
  have hgroups' := groups_grouped ((recorded enumerate' entities drawn index).map fun connection =>
    (connection.edge, if connection.label = [] then none else some connection.label))
  simp only [relations]
  rw [map_sortedByKey fun _ => summary, map_sortedByKey fun _ => summary]
  apply sortedByKey_eq
  · exact hgroups.perm (f := fun edge labels => (edge, summary labels)) hgroups'
      (fun record => (hrecorded.map _).mem_iff)
      fun edge labels labels' hlabels => by rw [summary_eq hlabels]
  · rw [List.map_map]
    exact hgroups.keys_nodup

theorem relations_outside (entities drawn : List Entity) (index : TypeIndex) :
    (relations enumerate entities drawn index).2.Perm
      (relations enumerate' entities drawn index).2 := by
  simp only [relations]
  exact (((recorded_perm h entities drawn index).map _).filter _).dedup

end Settled

/-- An index that holds types alone. -/
def TypeIndex.HoldsTypes (index : TypeIndex) : Prop :=
  ∀ entry ∈ index, (pumlKind entry.2.1.kind).isSome

theorem TypeIndex.build_holdsTypes (documents : List FileDoc) :
    (TypeIndex.build documents).HoldsTypes := by
  have hentity : ∀ (document : FileDoc) (index : TypeIndex), index.HoldsTypes →
      ∀ entity ∈ document.entities,
        (if (pumlKind entity.kind).isSome && !(index.map Prod.fst).contains entity.name then
          index ++ [(entity.name, entity, document)] else index : TypeIndex).HoldsTypes := by
    intro document index hindex entity _
    split_ifs with htype
    · intro entry hmem
      rcases List.mem_append.mp hmem with hmem | hmem
      · exact hindex entry hmem
      · obtain rfl := List.mem_singleton.mp hmem
        exact (Bool.and_eq_true_iff.mp htype).1
    · exact hindex
  have hempty : TypeIndex.HoldsTypes [] := by simp [TypeIndex.HoldsTypes]
  exact List.foldlRecOn documents _ hempty fun index hindex document _ =>
    List.foldlRecOn document.entities _ hindex (hentity document)

theorem outsideBox_isSome {index : TypeIndex} (htypes : index.HoldsTypes) {name : Line}
    (h : name ∈ index.known) : (outsideBox index name).isSome := by
  obtain ⟨entry, hmem, rfl⟩ := List.mem_map.mp h
  have hlookup : (index.lookup entry.1).isSome :=
    List.lookup_isSome_iff.mpr ⟨entry, hmem, beq_self_eq_true _⟩
  obtain ⟨found, hfound⟩ := Option.isSome_iff_exists.mp hlookup
  have hmemfound : (entry.1, found) ∈ index := by
    obtain ⟨before, after, hindex, -⟩ := List.lookup_eq_some_iff.mp hfound
    simp [hindex]
  obtain ⟨keyword, hkeyword⟩ :=
    Option.isSome_iff_exists.mp (htypes (entry.1, found) hmemfound)
  simp [outsideBox, hfound, hkeyword]

theorem drawnBox_isSome (operations : List (Line × List Line)) (document : FileDoc) :
    ∀ entity ∈ document.drawn, (drawnBox operations entity).isSome := by
  intro entity hmem
  rw [drawnBox, Option.isSome_map]
  exact (List.mem_filter.mp hmem).2

theorem mapM_isSome {α β : Type*} {f : α → Option β} {entries : List α}
    (h : ∀ entry ∈ entries, (f entry).isSome) : (entries.mapM f).isSome := by
  induction entries with
  | nil => rfl
  | cons entry entries ih =>
    obtain ⟨first, hfirst⟩ := Option.isSome_iff_exists.mp (h entry (by simp))
    obtain ⟨rest, hrest⟩ := Option.isSome_iff_exists.mp
      (ih fun later hmem => h later (List.mem_cons_of_mem _ hmem))
    rw [List.mapM_cons, hfirst, hrest]
    rfl

section Found
variable [PythonCharacters]

theorem mem_known_of_outside {enumerate : List Line → List Line} {entities drawn : List Entity}
    {index : TypeIndex} {name : Line}
    (h : name ∈ (relations enumerate entities drawn index).2) : name ∈ index.known := by
  simp only [relations, List.mem_dedup] at h
  obtain ⟨connection, hrecorded, rfl⟩ := List.mem_map.mp (List.mem_of_mem_filter h)
  have hkept := (List.mem_filter.mp hrecorded).2
  exact List.contains_iff_mem.mp (Bool.and_eq_true_iff.mp hkept).2

theorem renderDiagram_isSome (enumerate : List Line → List Line) (document : FileDoc)
    {index : TypeIndex} (htypes : index.HoldsTypes) (operations : List (Line × List Line)) :
    (renderDiagram enumerate document index operations).isSome := by
  have houtside : ∀ name ∈
      sortedNames (relations enumerate document.entities document.drawn index).2,
      (outsideBox index name).isSome := fun name hmem =>
    outsideBox_isSome htypes (mem_known_of_outside ((List.mergeSort_perm _ _).subset hmem))
  obtain ⟨boxes, hboxes⟩ := Option.isSome_iff_exists.mp
    (mapM_isSome (drawnBox_isSome operations document))
  obtain ⟨neighbours, hneighbours⟩ := Option.isSome_iff_exists.mp (mapM_isSome houtside)
  simp only [renderDiagram, hboxes, hneighbours]
  split_ifs
  · rfl
  · rfl
  · rfl
  · rfl

theorem renderDiagram_eq {enumerate enumerate' : List Line → List Line}
    (h : ∀ names, (enumerate names).Perm (enumerate' names)) (document : FileDoc)
    (index : TypeIndex) (operations : List (Line × List Line)) :
    renderDiagram enumerate document index operations =
      renderDiagram enumerate' document index operations := by
  have houtside := relations_outside h document.entities document.drawn index
  have hnil : ∀ {names names' : List Line}, names.Perm names' → (names = [] ↔ names' = []) := by
    intro names names' hperm
    rw [← List.length_eq_zero_iff, ← List.length_eq_zero_iff, hperm.length_eq]
  simp only [renderDiagram, relations_edges h, sortedNames_eq houtside, hnil houtside]

/-- The diagram of a file is always drawn, and always the same. -/
theorem renderDiagram_settled (documents : List FileDoc) (document : FileDoc) :
    ∃ diagram, ∀ enumerate : List Line → List Line, (∀ names, (enumerate names).Perm names) →
      renderDiagram enumerate document (TypeIndex.build documents)
        (collectOperations documents) = some diagram := by
  have hdrawn := renderDiagram_isSome id document (TypeIndex.build_holdsTypes documents)
    (collectOperations documents)
  obtain ⟨diagram, hdiagram⟩ := Option.isSome_iff_exists.mp hdrawn
  refine ⟨diagram, fun enumerate h => ?_⟩
  rw [renderDiagram_eq h, ← hdiagram]
  rfl

end Found

end LightPhi.Docs
