import LightPhi.Base.Exploration
import LightPhi.Docs.Entities

/-! The entities of one file, written each inside the type that owns it. -/
namespace LightPhi.Docs
open Base

abbrev Line := List Char

/-- A named entry of a list, with its description. -/
def entryLine (name : Line) (remark : String) (description : Line) : Line :=
  "- **".toList ++ '`' :: (name ++ '`' :: ("**".toList ++ remark.toList ++ " — ".toList ++
    description))

def backticks (n : Nat) : Line := List.replicate n '`'

/-- The line that opens a directive. -/
def directiveLine (fence : Line) (directive : Line) (argument : Line) : Line :=
  fence ++ '{' :: (directive ++ '}' :: argument)

/-- The notes of one sort, each in a directive of its own. -/
def admonitions (entries : List Line) (directive title : String) : List Line :=
  entries.flatMap fun entry =>
    directiveLine (backticks 3) directive.toList
        (if title = "" then [] else ' ' :: title.toList) ::
      ((if title = "" then [] else [":class: note".toList, []]) ++ [entry, backticks 3, []])

/-- The body of one entity. -/
def renderDoc (doc : DocComment) : List Line :=
  (if doc.brief = [] then [] else [doc.brief, []]) ++
  doc.details.map (fun detail => if strip detail = [] then [] else detail) ++
  (if doc.details = [] then [] else [[]]) ++
  doc.tparams.map (fun param => entryLine param.1 " (template)" param.2) ++
  doc.params.map (fun param => entryLine param.1 "" param.2) ++
  (if doc.params = [] ∧ doc.tparams = [] then [] else [[]]) ++
  (if doc.returns = [] then [] else ["**Returns** — ".toList ++ doc.returns, []]) ++
  admonitions doc.preconditions "admonition" "Precondition" ++
  admonitions doc.notes "note" "" ++
  admonitions doc.warnings "warning" "" ++
  admonitions doc.postconditions "admonition" "Postcondition"

def enumeratorDirective : Domain → Line
  | .c => "c:enumerator".toList
  | .cpp => "cpp:enumerator".toList

def renderMembers (domain : Domain) (members : List (Line × Line)) : List Line :=
  members.flatMap fun member =>
    directiveLine (backticks 3) (enumeratorDirective domain) (' ' :: member.1) ::
      ((if member.2 = [] then [] else [member.2]) ++ [backticks 3, []])

/-- A field of a list, with its type and its description. -/
def fieldLine (field : Field) : Line :=
  "- ".toList ++ '`' :: (field.name ++ "` (`".toList ++ field.type ++ "`) — ".toList ++
    field.description)

/-- The fields that are published and described. -/
def renderFields (fields : List Field) : List Line :=
  let documented := fields.filter fun field =>
    field.access = .ofPublic ∧ field.description ≠ []
  if documented = [] then []
  else ["**Fields**".toList, []] ++ documented.map fieldLine ++ [[]]

/-- What stands in the directive of an entity before its members. -/
def entityBody (domain : Domain) (entity : Entity) : List Line :=
  renderDoc entity.doc ++ renderMembers domain entity.members ++ renderFields entity.fields

section Emission
variable [PythonCharacters] (domain : Domain) (entities : List Entity)

def typeNames : List Line := (entities.filter fun entity => entity.kind.isType).map Entity.name

/-- A member is written inside the type that owns it; a type of its owner's name is that type. -/
def isMember (entity : Entity) : Bool :=
  let isTheType := entity.kind.isType && entity.name == entity.owner
  entity.owner != [] && (typeNames entities).contains entity.owner && !isTheType

def childrenOf (name : Line) : List Entity :=
  entities.filter fun entity => isMember entities entity ∧ entity.owner = name

def rootsOf : List Entity := entities.filter fun entity => !isMember entities entity

/-- Only a type owns members. -/
def membersOf (entity : Entity) : List Entity :=
  if entity.kind.isType then childrenOf entities entity.name else []

/-- What one declaration is known by: overloads share a name. -/
def entityKey (entity : Entity) : EntityKind × Line × Line :=
  (entity.kind, entity.owner, signatureFor entity domain)

structure Emission where
  emitted : List (EntityKind × Line × Line) := []
  lines : List Line := []

def fenceAt (depth : Nat) : Line := backticks (6 - min depth 2)

def entityHead (entity : Entity) (depth : Nat) : List Line :=
  directiveLine (fenceAt depth) (directives domain entity.kind)
      (' ' :: signatureFor entity domain) :: entityBody domain entity

/-- One entity with its members. The fuel stands for the depth of the recursion. -/
def emit : Nat → Nat → Emission → Entity → Option Emission
  | 0, _, _, _ => none
  | fuel + 1, depth, emission, entity =>
    if entityKey domain entity ∈ emission.emitted then some emission
    else do
      let emission ← (membersOf entities entity).foldlM (emit fuel (depth + 1))
        { emitted := emission.emitted ++ [entityKey domain entity]
          lines := emission.lines ++ entityHead domain entity depth }
      some { emission with lines := emission.lines ++ [fenceAt depth, []] }

def renderEntities (fuel : Nat) : Option (List Line) :=
  ((rootsOf entities).foldlM (emit domain entities fuel 0) {}).map Emission.lines

/-- The entities as they are written, the first on the outside. -/
def forestOf : Forest Entity :=
  ((exploreAll (explore (entityKey domain) (membersOf entities) (entities.length + 1)) []
    (rootsOf entities)).map Prod.fst).getD .nil

def printForest : Nat → Forest Entity → List Line
  | _, .nil => []
  | depth, .cons entity inner rest =>
    entityHead domain entity depth ++ printForest (depth + 1) inner ++ [fenceAt depth, []] ++
      printForest depth rest

variable {domain entities}

theorem printForest_append (depth : Nat) (f g : Forest Entity) :
    printForest domain depth (f.append g) =
      printForest domain depth f ++ printForest domain depth g := by
  induction f with
  | nil => rfl
  | cons entity inner rest _ ih => simp [Forest.append, printForest, ih]

/-- What an emission makes of a forest. -/
def Emission.printed (domain : Domain) (depth : Nat) (emission : Emission)
    (found : Forest Entity × List (EntityKind × Line × Line)) : Emission where
  emitted := found.2
  lines := emission.lines ++ printForest domain depth found.1

theorem foldlM_emit {fuel depth : Nat}
    (hemit : ∀ emission entity, emit domain entities fuel depth emission entity =
      (explore (entityKey domain) (membersOf entities) fuel emission.emitted entity).map
        (emission.printed domain depth)) (starts : List Entity) (emission : Emission) :
    starts.foldlM (emit domain entities fuel depth) emission =
      (exploreAll (explore (entityKey domain) (membersOf entities) fuel) emission.emitted
        starts).map (emission.printed domain depth) := by
  induction starts generalizing emission with
  | nil => simp [exploreAll, Emission.printed, printForest]
  | cons entity starts ih =>
    rw [List.foldlM_cons, hemit, exploreAll]
    cases explore (entityKey domain) (membersOf entities) fuel emission.emitted entity with
    | none => rfl
    | some found =>
      obtain ⟨first, visited⟩ := found
      simp only [Option.map_some, Option.bind_eq_bind, Option.bind_some, ih, Emission.printed]
      cases exploreAll (explore (entityKey domain) (membersOf entities) fuel) visited starts with
      | none => rfl
      | some found => simp [Emission.printed, printForest_append]

/-- The emission explores the entities from their roots. -/
theorem emit_eq (fuel depth : Nat) (emission : Emission) (entity : Entity) :
    emit domain entities fuel depth emission entity =
      (explore (entityKey domain) (membersOf entities) fuel emission.emitted entity).map
        (emission.printed domain depth) := by
  induction fuel generalizing depth emission entity with
  | zero => rfl
  | succ fuel ih =>
    rw [emit, explore]
    split_ifs with hemitted
    · simp [Emission.printed, printForest]
    · rw [foldlM_emit fun emission entity => ih (depth + 1) emission entity]
      cases exploreAll (explore (entityKey domain) (membersOf entities) fuel)
          (emission.emitted ++ [entityKey domain entity]) (membersOf entities entity) with
      | none => rfl
      | some found => simp [Emission.printed, printForest]

omit [PythonCharacters] in
theorem mem_of_mem_membersOf {entity member : Entity} (h : member ∈ membersOf entities entity) :
    member ∈ entities := by
  rw [membersOf] at h
  split_ifs at h
  · exact List.mem_of_mem_filter h
  · cases h

theorem forestOf_explores (domain : Domain) (entities : List Entity) : ∃ after,
    Explores (entityKey domain) (membersOf entities) [] (rootsOf entities)
      (forestOf domain entities) after ∧
    ∀ fuel, entities.length < fuel →
      exploreAll (explore (entityKey domain) (membersOf entities) fuel) [] (rootsOf entities) =
        some (forestOf domain entities, after) := by
  have hmembers : ∀ entity ∈ entities, entityKey domain entity ∈ entities.map (entityKey domain) ∧
      ∀ member ∈ membersOf entities entity, member ∈ entities :=
    fun entity hmem => ⟨List.mem_map_of_mem hmem, fun member => mem_of_mem_membersOf⟩
  have hroots : ∀ entity ∈ rootsOf entities, entity ∈ entities := fun _ => List.mem_of_mem_filter
  obtain ⟨forest, after, hexplores, hfuel⟩ := exists_forest hmembers hroots
  rw [List.length_map] at hfuel
  have hforest : forestOf domain entities = forest := by
    rw [forestOf, hfuel _ (Nat.lt_succ_self _)]
    rfl
  rw [hforest]
  exact ⟨after, hexplores, hfuel⟩

theorem renderEntities_eq {fuel : Nat} (h : entities.length < fuel) :
    renderEntities domain entities fuel =
      some (printForest domain 0 (forestOf domain entities)) := by
  obtain ⟨after, -, hfuel⟩ := forestOf_explores domain entities
  rw [renderEntities, foldlM_emit fun emission entity => emit_eq fuel 0 emission entity,
    hfuel fuel h]
  simp [Emission.printed]

theorem mem_of_mem_forestOf {entity : Entity} (h : entity ∈ (forestOf domain entities).nodes) :
    entity ∈ entities := by
  obtain ⟨after, hexplores, -⟩ := forestOf_explores domain entities
  exact hexplores.branches.nodes_all (fun _ _ _ => mem_of_mem_membersOf)
    (fun root hroot => List.mem_of_mem_filter (hexplores.roots.subset hroot)) entity h

/-- The rendering ends. It writes the roots, and inside every type that it writes its members,
each declaration once. -/
theorem renders_each_once :
    (∀ fuel, entities.length < fuel → renderEntities domain entities fuel =
      some (printForest domain 0 (forestOf domain entities))) ∧
    (forestOf domain entities).roots.Sublist (rootsOf entities) ∧
    (forestOf domain entities).Branches (membersOf entities) ∧
    ((forestOf domain entities).nodes.map (entityKey domain)).Nodup ∧
    (∀ entity ∈ rootsOf entities,
      entityKey domain entity ∈ (forestOf domain entities).nodes.map (entityKey domain)) ∧
    ∀ type ∈ (forestOf domain entities).nodes, ∀ member ∈ membersOf entities type,
      entityKey domain member ∈ (forestOf domain entities).nodes.map (entityKey domain) := by
  obtain ⟨after, hexplores, -⟩ := forestOf_explores domain entities
  have hvisits : after = (forestOf domain entities).nodes.map (entityKey domain) :=
    hexplores.visits
  rw [← hvisits]
  exact ⟨fun fuel => renderEntities_eq, hexplores.roots, hexplores.branches,
    hexplores.once List.nodup_nil, hexplores.enters, hexplores.closed⟩

end Emission

end LightPhi.Docs
