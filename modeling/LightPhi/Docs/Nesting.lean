import LightPhi.Base.Fences
import LightPhi.Docs.Rendering

/-! The rendered entities as their reader nests them. The reader is a parameter: which lines open a
fence, which close it, and inside of which fences it reads on. -/
namespace LightPhi.Docs
open Base

/-- The directives that the rendering writes. -/
def writtenDirectives : List Line :=
  ["cpp:class", "cpp:struct", "cpp:enum-class", "cpp:function", "cpp:type", "cpp:var",
    "cpp:member", "cpp:enumerator", "c:struct", "c:enum", "c:function", "c:type", "c:var",
    "c:macro", "c:member", "c:enumerator", "admonition", "note", "warning"].map String.toList

theorem directives_written (domain : Domain) (kind : EntityKind) :
    directives domain kind ∈ writtenDirectives := by
  cases domain <;> cases kind <;> decide

theorem enumeratorDirective_written (domain : Domain) :
    enumeratorDirective domain ∈ writtenDirectives := by
  cases domain <;> decide

theorem written_plain : ∀ directive ∈ writtenDirectives, '`' ∉ directive := by
  decide

/-- What the rendering relies on in a reader, and what is documented of it: how backticks open and
close, that the written directives are read inside, and that its other lines open nothing. -/
structure ReadsDirectives {Mark : Type*} (F : Fencing Mark Line Line) (ticks : Nat → Mark) :
    Prop where
  opens_backticks : ∀ {n info}, 3 ≤ n → '`' ∉ info →
    F.opens (backticks n ++ info) = some (ticks n, strip info)
  closes_backticks : ∀ {m n}, 3 ≤ n → F.closes (ticks m) (backticks n) = decide (m ≤ n)
  not_closes_info : ∀ {m n info}, 3 ≤ n → '`' ∉ info → strip info ≠ [] →
    F.closes (ticks m) (backticks n ++ info) = false
  not_closes_of_not_opens : ∀ {n text}, F.opens text = none → F.closes (ticks n) text = false
  shorter : ∀ {m n}, m ≤ n → F.Shorter (ticks m) (ticks n)
  nests_directive : ∀ {directive argument}, directive ∈ writtenDirectives →
    argument.head?.all (· == ' ') = true →
      F.nests (strip ('{' :: (directive ++ '}' :: argument))) = true
  opens_blank : F.opens [] = none
  opens_option : F.opens ":class: note".toList = none
  opens_fields : F.opens "**Fields**".toList = none
  opens_returns : ∀ text, F.opens ("**Returns** — ".toList ++ text) = none
  opens_entry : ∀ name remark text, F.opens (entryLine name remark text) = none
  opens_field : ∀ field : Field, '`' ∉ field.name → F.opens (fieldLine field) = none

/-- What an entity must keep to for its own lines to stay inside its directive. -/
structure Entity.Tame [PythonCharacters] {Mark : Type*} (F : Fencing Mark Line Line)
    (ticks : Nat → Mark) (domain : Domain) (entity : Entity) : Prop where
  signature : '`' ∉ signatureFor entity domain
  brief : F.opens entity.doc.brief = none
  details : F.Whole (ticks 4)
    (entity.doc.details.map fun detail => if strip detail = [] then [] else detail)
  entries : ∀ entry ∈ entity.doc.preconditions ++ entity.doc.notes ++ entity.doc.warnings ++
    entity.doc.postconditions, F.opens entry = none
  members : ∀ member ∈ entity.members, '`' ∉ member.1 ∧ F.opens member.2 = none
  fields : ∀ field ∈ entity.fields, '`' ∉ field.name

theorem plain_directive {directive argument : Line} (hwritten : directive ∈ writtenDirectives)
    (hargument : '`' ∉ argument) : '`' ∉ '{' :: (directive ++ '}' :: argument) := by
  simp [written_plain directive hwritten, hargument]

theorem strip_brace_ne_nil (rest : Line) : strip ('{' :: rest) ≠ [] := by
  have hleft : lstrip ('{' :: rest) = '{' :: rest := by
    rw [lstrip, List.dropWhile_cons_of_neg (by decide)]
  rw [strip, hleft, rstrip, List.reverse_cons, dropWhile_append_cons (by decide)]
  simp

section Reader
variable {Mark : Type*} {F : Fencing Mark Line Line} {ticks : Nat → Mark}
  (hreads : ReadsDirectives F ticks)
include hreads

section Parts
variable {n : Nat} {directive argument : Line}

section Directive
variable (hn : 3 ≤ n) (hwritten : directive ∈ writtenDirectives) (hargument : '`' ∉ argument)
include hn hwritten hargument

theorem opens_directiveLine : F.opens (directiveLine (backticks n) directive argument) =
    some (ticks n, strip ('{' :: (directive ++ '}' :: argument))) :=
  hreads.opens_backticks hn (plain_directive hwritten hargument)

theorem not_closes_directiveLine (m : Nat) :
    F.closes (ticks m) (directiveLine (backticks n) directive argument) = false :=
  hreads.not_closes_info hn (plain_directive hwritten hargument) (strip_brace_ne_nil _)

end Directive

theorem whole_plain {lines : List Line} (h : ∀ text ∈ lines, F.opens text = none) :
    F.Whole (ticks n) lines :=
  .of_lines fun text hmem => ⟨h text hmem, hreads.not_closes_of_not_opens (h text hmem)⟩

theorem whole_line {text : Line} (h : F.opens text = none) : F.Whole (ticks n) [text, []] := by
  apply whole_plain hreads
  intro line hmem
  rcases List.mem_cons.mp hmem with rfl | hmem
  · exact h
  · obtain rfl := List.mem_singleton.mp hmem
    exact hreads.opens_blank

theorem whole_unless {p : Prop} [Decidable p] {lines : List Line}
    (h : F.Whole (ticks n) lines) : F.Whole (ticks n) (if p then [] else lines) := by
  split_ifs
  · exact whole_plain hreads (by simp)
  · exact h

/-- A directive in three backticks whose lines open no fence. -/
theorem whole_directive (hn : 3 < n) (hwritten : directive ∈ writtenDirectives)
    (hargument : '`' ∉ argument) (hspace : argument.head?.all (· == ' ') = true)
    {content : List Line} (h : ∀ text ∈ content, F.opens text = none) :
    F.Whole (ticks n)
      (directiveLine (backticks 3) directive argument :: content ++ [backticks 3, []]) := by
  apply Fencing.Whole.nested (hreads.nests_directive hwritten hspace)
    (opens_directiveLine hreads le_rfl hwritten hargument)
  · rw [hreads.closes_backticks le_rfl]
    rfl
  · exact not_closes_directiveLine hreads le_rfl hwritten hargument n
  · rw [hreads.closes_backticks le_rfl]
    exact decide_eq_false (Nat.not_le.mpr hn)
  · exact hreads.shorter hn.le
  · exact whole_plain hreads h
  · exact whole_plain hreads (by simpa using hreads.opens_blank)

theorem whole_admonitions {entries : List Line} {directive title : String}
    (hwritten : directive.toList ∈ writtenDirectives) (htitle : '`' ∉ title.toList)
    (h : ∀ entry ∈ entries, F.opens entry = none) :
    F.Whole (ticks 4) (admonitions entries directive title) := by
  apply Fencing.Whole.flatMap
  intro entry hmem
  have hentry := h entry hmem
  split_ifs
  · have hlines : ∀ text ∈ [entry], F.opens text = none := by simpa using hentry
    exact whole_directive hreads (by decide) hwritten (by simp) rfl hlines
  · have hlines : ∀ text ∈ [":class: note".toList, [], entry], F.opens text = none := by
      intro text htext
      rcases List.mem_cons.mp htext with rfl | htext
      · exact hreads.opens_option
      · rcases List.mem_cons.mp htext with rfl | htext
        · exact hreads.opens_blank
        · obtain rfl := List.mem_singleton.mp htext
          exact hentry
    exact whole_directive hreads (by decide) hwritten (by simpa using htitle) rfl hlines

theorem whole_entries (params : List (Line × Line)) (remark : String) :
    F.Whole (ticks 4) (params.map fun param => entryLine param.1 remark param.2) := by
  apply whole_plain hreads
  intro text hmem
  obtain ⟨param, -, rfl⟩ := List.mem_map.mp hmem
  exact hreads.opens_entry _ _ _

theorem whole_renderFields {fields : List Field} (h : ∀ field ∈ fields, '`' ∉ field.name) :
    F.Whole (ticks 4) (renderFields fields) := by
  rw [renderFields]
  apply whole_unless hreads
  apply Fencing.Whole.append
  · apply Fencing.Whole.append
    · exact whole_line hreads hreads.opens_fields
    · apply whole_plain hreads
      intro text hmem
      obtain ⟨field, hfield, rfl⟩ := List.mem_map.mp hmem
      exact hreads.opens_field field (h field (List.mem_of_mem_filter hfield))
  · exact whole_plain hreads (by simpa using hreads.opens_blank)

end Parts

section Entity
variable [PythonCharacters] {domain : Domain} {entity : Entity}

theorem whole_renderDoc (h : entity.Tame F ticks domain) :
    F.Whole (ticks 4) (renderDoc entity.doc) := by
  have hentries : ∀ {entries : List Line}, (∀ entry ∈ entries, entry ∈ entity.doc.preconditions ++
      entity.doc.notes ++ entity.doc.warnings ++ entity.doc.postconditions) →
      ∀ entry ∈ entries, F.opens entry = none :=
    fun hsub entry hmem => h.entries entry (hsub entry hmem)
  have hblank : F.Whole (ticks 4) [[]] := whole_plain hreads (by simpa using hreads.opens_blank)
  have hbrief : F.Whole (ticks 4)
      (if entity.doc.brief = [] then [] else [entity.doc.brief, []]) :=
    whole_unless hreads (whole_line hreads h.brief)
  have hreturns : F.Whole (ticks 4) (if entity.doc.returns = [] then []
      else ["**Returns** — ".toList ++ entity.doc.returns, []]) :=
    whole_unless hreads (whole_line hreads (hreads.opens_returns _))
  apply Fencing.Whole.append
  · apply Fencing.Whole.append
    · apply Fencing.Whole.append
      · apply Fencing.Whole.append
        · exact (((((hbrief.append h.details).append (whole_unless hreads hblank)).append
            (whole_entries hreads _ _)).append (whole_entries hreads _ _)).append
            (whole_unless hreads hblank)).append hreturns
        · exact whole_admonitions hreads (by decide) (by decide)
            (hentries fun _ hmem => by simp [hmem])
      · exact whole_admonitions hreads (by decide) (by decide)
          (hentries fun _ hmem => by simp [hmem])
    · exact whole_admonitions hreads (by decide) (by decide)
        (hentries fun _ hmem => by simp [hmem])
  · exact whole_admonitions hreads (by decide) (by decide)
      (hentries fun _ hmem => by simp [hmem])

theorem whole_renderMembers (h : entity.Tame F ticks domain) :
    F.Whole (ticks 4) (renderMembers domain entity.members) := by
  apply Fencing.Whole.flatMap
  intro member hmem
  obtain ⟨hname, hdescription⟩ := h.members member hmem
  apply whole_directive hreads (by decide) (enumeratorDirective_written domain)
    (by simpa using hname) rfl
  split_ifs
  · simp
  · simpa using hdescription

theorem whole_entityBody (h : entity.Tame F ticks domain) :
    F.Whole (ticks 4) (entityBody domain entity) :=
  ((whole_renderDoc hreads h).append (whole_renderMembers hreads h)).append
    (whole_renderFields hreads h.fields)

end Entity

end Reader

section Forest
variable [PythonCharacters] {Mark : Type*} (F : Fencing Mark Line Line) (domain : Domain)

/-- The directive that an entity is written as. -/
def entityInfo (entity : Entity) : Line :=
  strip ('{' :: (directives domain entity.kind ++ '}' :: ' ' :: signatureFor entity domain))

/-- The directives of a forest: each holds what it says of its entity, and those inside. -/
def directivesOf : Forest Entity → Blocks Line Line
  | .nil => .nil
  | .cons entity inner rest =>
    .fenced (entityInfo domain entity)
      ((F.read (entityBody domain entity)).append (directivesOf inner))
      (.line [] (directivesOf rest))

variable {F domain} {ticks : Nat → Mark} (hreads : ReadsDirectives F ticks)

include hreads

/-- The fences inside an entity are no longer than that of the entity at the depth. -/
theorem printForest_not_closes {forest : Forest Entity} {depth : Nat}
    (htame : ∀ entity ∈ forest.nodes, entity.Tame F ticks domain) :
    ∀ text ∈ printForest domain depth forest, F.closes (ticks (7 - min depth 2)) text = false := by
  induction forest generalizing depth with
  | nil => simp [printForest]
  | cons entity inner rest ihinner ihrest =>
    have hentity : entity.Tame F ticks domain := htame entity (by simp [Forest.nodes])
    have hlong : 3 ≤ 6 - min depth 2 := by omega
    intro text hmem
    simp only [printForest, entityHead, List.mem_append, List.mem_cons, List.not_mem_nil,
      or_false] at hmem
    rcases hmem with (((rfl | hbody) | hinner) | (rfl | rfl)) | hrest
    · exact not_closes_directiveLine hreads hlong (directives_written domain entity.kind)
        (by simpa using hentity.signature) _
    · exact (hreads.shorter (by omega)).not_closes
        (Fencing.Writes.not_closes (whole_entityBody hreads hentity) text hbody)
    · exact (hreads.shorter (by omega)).not_closes
        (ihinner (fun member hnode => htame member (by simp [Forest.nodes, hnode])) text hinner)
    · rw [fenceAt, hreads.closes_backticks hlong]
      exact decide_eq_false (by omega)
    · exact hreads.not_closes_of_not_opens hreads.opens_blank
    · exact ihrest (fun later hnode => htame later (by simp [Forest.nodes, hnode])) text hrest

section Cons
variable {entity : Entity} {inner rest : Forest Entity} {depth : Nat}

omit hreads in
theorem printForest_cons : printForest domain depth (.cons entity inner rest) =
    directiveLine (backticks (6 - min depth 2)) (directives domain entity.kind)
        (' ' :: signatureFor entity domain) ::
      (entityBody domain entity ++ printForest domain (depth + 1) inner) ++
        fenceAt depth :: ([] :: printForest domain depth rest) := by
  simp [printForest, entityHead, fenceAt]

variable (hentity : entity.Tame F ticks domain)
include hentity

theorem opens_entity : F.opens (directiveLine (backticks (6 - min depth 2))
      (directives domain entity.kind) (' ' :: signatureFor entity domain)) =
    some (ticks (6 - min depth 2), entityInfo domain entity) := by
  have hargument : '`' ∉ ' ' :: signatureFor entity domain := by simpa using hentity.signature
  exact opens_directiveLine hreads (by omega) (directives_written domain entity.kind) hargument

theorem read_entityBody (later : List Line) :
    F.read (entityBody domain entity ++ later) =
      (F.read (entityBody domain entity)).append (F.read later) :=
  Fencing.Writes.read_append (whole_entityBody hreads hentity) later

/-- Members with shorter fences are read inside. -/
theorem read_printForest_cons
    (hinner : ∀ text ∈ printForest domain (depth + 1) inner,
      F.closes (ticks (6 - min depth 2)) text = false) :
    F.read (printForest domain depth (.cons entity inner rest)) =
      .fenced (entityInfo domain entity)
        ((F.read (entityBody domain entity)).append
          (F.read (printForest domain (depth + 1) inner)))
        (.line [] (F.read (printForest domain depth rest))) := by
  have hcloses : F.closes (ticks (6 - min depth 2)) (fenceAt depth) = true := by
    rw [fenceAt, hreads.closes_backticks (by omega)]
    exact decide_eq_true le_rfl
  have hcontent : ∀ text ∈ entityBody domain entity ++ printForest domain (depth + 1) inner,
      F.closes (ticks (6 - min depth 2)) text = false := by
    intro text hmem
    rcases List.mem_append.mp hmem with hmem | hmem
    · exact (hreads.shorter (by omega)).not_closes
        (Fencing.Writes.not_closes (whole_entityBody hreads hentity) text hmem)
    · exact hinner text hmem
  rw [printForest_cons, Fencing.read_fence (opens_entity hreads hentity) hcloses hcontent,
    entityInfo, if_pos (hreads.nests_directive (directives_written domain entity.kind) rfl),
    read_entityBody hreads hentity, Fencing.read, hreads.opens_blank]

/-- A member whose fence is as long cuts the directive of its type short. -/
theorem read_printForest_deep {member : Entity} {within later : Forest Entity}
    (hmember : member.Tame F ticks domain) (hdepth : 2 ≤ depth) :
    F.read (printForest domain depth (.cons entity (.cons member within later) rest)) ≠
      directivesOf F domain (.cons entity (.cons member within later) rest) := by
  have hfence : 6 - min (depth + 1) 2 = 6 - min depth 2 := by omega
  have hopener : F.opens (directiveLine (backticks (6 - min (depth + 1) 2)) _ _) = some _ :=
    opens_entity hreads hmember
  rw [hfence] at hopener
  have hkept : F.closes (ticks (6 - min depth 2)) (directiveLine (backticks (6 - min depth 2))
      (directives domain member.kind) (' ' :: signatureFor member domain)) = false :=
    not_closes_directiveLine hreads (by omega) (directives_written domain member.kind)
      (by simpa using hmember.signature) _
  have hbody : ∀ text ∈ entityBody domain entity,
      F.closes (ticks (6 - min depth 2)) text = false := fun text hmem =>
    (hreads.shorter (by omega)).not_closes
      (Fencing.Writes.not_closes (whole_entityBody hreads hentity) text hmem)
  obtain ⟨tail, htail⟩ : ∃ tail,
      printForest domain depth (.cons entity (.cons member within later) rest) =
        directiveLine (backticks (6 - min depth 2)) (directives domain entity.kind)
            (' ' :: signatureFor entity domain) ::
          (entityBody domain entity ++
            directiveLine (backticks (6 - min depth 2)) (directives domain member.kind)
              (' ' :: signatureFor member domain) :: tail) := by
    simp only [printForest_cons, hfence, List.cons_append, List.append_assoc]
    exact ⟨_, rfl⟩
  have htake : ∀ opener, F.closes (ticks (6 - min depth 2)) opener = false →
      (entityBody domain entity ++ opener :: tail).takeWhile
          (fun text => !F.closes (ticks (6 - min depth 2)) text) =
        entityBody domain entity ++ opener :: tail.takeWhile
          (fun text => !F.closes (ticks (6 - min depth 2)) text) := by
    intro opener hopener
    rw [List.takeWhile_append_of_pos (by simpa using hbody),
      List.takeWhile_cons_of_pos (by simp [hopener])]
  have hrun : ∀ text ∈ tail.takeWhile (fun text => !F.closes (ticks (6 - min depth 2)) text),
      F.closes (ticks (6 - min depth 2)) text = false := by
    intro text hmem
    simpa using List.mem_takeWhile_imp hmem
  intro hread
  rw [htail, Fencing.read_opener (opens_entity hreads hentity), htake _ hkept, entityInfo,
    if_pos (hreads.nests_directive (directives_written domain entity.kind) rfl),
    read_entityBody hreads hentity, Fencing.read_unclosed hopener hrun] at hread
  -- the rest of the directive is cut off where the blank line behind the member should be
  obtain ⟨-, hinside, -⟩ := Blocks.fenced.inj hread
  obtain ⟨-, -, hbehind⟩ := Blocks.fenced.inj (Blocks.append_left_cancel hinside)
  cases hbehind

end Cons

theorem read_printForest_iff {forest : Forest Entity} {depth : Nat} (hdepth : depth ≤ 2)
    (htame : ∀ entity ∈ forest.nodes, entity.Tame F ticks domain) :
    F.read (printForest domain depth forest) = directivesOf F domain forest ↔
      forest.depth + depth ≤ 3 := by
  induction forest generalizing depth with
  | nil =>
    rw [printForest, Fencing.read, directivesOf, Forest.depth]
    exact ⟨fun _ => by omega, fun _ => rfl⟩
  | cons entity inner rest ihinner ihrest =>
    have hentity : entity.Tame F ticks domain := htame entity (by simp [Forest.nodes])
    have hinside : ∀ member ∈ inner.nodes, member.Tame F ticks domain :=
      fun member hmem => htame member (by simp [Forest.nodes, hmem])
    have hbehind : ∀ later ∈ rest.nodes, later.Tame F ticks domain :=
      fun later hmem => htame later (by simp [Forest.nodes, hmem])
    rw [Forest.depth]
    rcases Nat.lt_or_eq_of_le hdepth with hless | rfl
    · have hbound : 6 - min depth 2 = 7 - min (depth + 1) 2 := by omega
      have hinner : ∀ text ∈ printForest domain (depth + 1) inner,
          F.closes (ticks (6 - min depth 2)) text = false := by
        rw [hbound]
        exact printForest_not_closes hreads hinside
      have hin : F.read (printForest domain (depth + 1) inner) = _ ↔ _ :=
        ihinner hless hinside
      rw [read_printForest_cons hreads hentity hinner, directivesOf]
      constructor
      · intro hread
        obtain ⟨-, hbody, hline⟩ := Blocks.fenced.inj hread
        have hmembers := hin.mp (Blocks.append_left_cancel hbody)
        have hlater := (ihrest hdepth hbehind).mp (Blocks.line.inj hline).2
        omega
      · intro hdeep
        rw [hin.mpr (by omega), (ihrest hdepth hbehind).mpr (by omega)]
    · cases inner with
      | nil =>
        rw [read_printForest_cons hreads hentity (by simp [printForest]), directivesOf, printForest,
          Fencing.read, directivesOf]
        constructor
        · intro hread
          obtain ⟨-, -, hline⟩ := Blocks.fenced.inj hread
          have hlater := (ihrest hdepth hbehind).mp (Blocks.line.inj hline).2
          rw [Forest.depth]
          omega
        · intro hdeep
          rw [(ihrest hdepth hbehind).mpr (by omega)]
      | cons member within later =>
        have hmember : member.Tame F ticks domain := hinside member (by simp [Forest.nodes])
        constructor
        · intro hread
          exact absurd hread (read_printForest_deep hreads hentity hmember le_rfl)
        · intro hdeep
          rw [Forest.depth] at hdeep
          omega

/-- A reader finds every member in the directive of its type, and in every directive what is said
of its entity, just when none stands more than three deep: from there on the fences no longer grow
shorter. -/
theorem rendering_nests_iff {entities : List Entity} {fuel : Nat} (hfuel : entities.length < fuel)
    (htame : ∀ entity ∈ entities, entity.Tame F ticks domain) :
    (renderEntities domain entities fuel).map F.read =
        some (directivesOf F domain (forestOf domain entities)) ↔
      (forestOf domain entities).depth ≤ 3 := by
  have hnodes : ∀ entity ∈ (forestOf domain entities).nodes, entity.Tame F ticks domain :=
    fun entity hmem => htame entity (mem_of_mem_forestOf hmem)
  rw [renderEntities_eq hfuel, Option.map_some, Option.some.injEq,
    read_printForest_iff hreads (Nat.zero_le 2) hnodes, Nat.add_zero]

end Forest

/-- The character and the length of the fence that a line begins with, behind at most three spaces,
and what follows it. -/
def fenceOf (text : Line) : Option ((Char × Nat) × Line) :=
  let body := text.dropWhile (· == ' ')
  (body.head?.filter fun c => c ∈ ['`', '~', ':']).bind fun c =>
    let fence := body.takeWhile (· == c)
    if text.length ≤ body.length + 3 ∧ 3 ≤ fence.length then
      some ((c, fence.length), body.drop fence.length)
    else none

/-- A reader of fences of backticks, tildes and colons that knows the written directives. -/
def markdown : Fencing (Char × Nat) Line Line where
  opens text := (fenceOf text).bind fun found =>
    if found.1.1 = '`' ∧ '`' ∈ found.2 then none else some (found.1, strip found.2)
  closes mark text := (fenceOf text).any fun found =>
    found.1.1 = mark.1 ∧ mark.2 ≤ found.1.2 ∧ found.2.all isSpaceOrTab
  nests info := writtenDirectives.any fun directive =>
    ('{' :: (directive ++ ['}'])).isPrefixOf info

theorem fenceOf_of_head {c : Char} (hc : c ∉ [' ', '`', '~', ':']) (rest : Line) :
    fenceOf (c :: rest) = none := by
  simp only [List.mem_cons, List.not_mem_nil, or_false, not_or] at hc
  simp [fenceOf, hc]

theorem opens_of_head {c : Char} (hc : c ∉ [' ', '`', '~', ':']) (rest : Line) :
    markdown.opens (c :: rest) = none := by
  simp [markdown, fenceOf_of_head hc]

theorem fenceOf_backticks {n : Nat} (hn : 3 ≤ n) {info : Line} (hinfo : '`' ∉ info) :
    fenceOf (backticks n ++ info) = some (('`', n), info) := by
  have hcons : backticks n = '`' :: backticks (n - 1) := by
    obtain ⟨n, rfl⟩ := Nat.exists_eq_add_of_le' (Nat.one_le_of_lt hn)
    rfl
  have hbody : (backticks n ++ info).dropWhile (· == ' ') = backticks n ++ info := by
    rw [hcons, List.cons_append, List.dropWhile_cons_of_neg (by decide)]
  have hhead : (backticks n ++ info).head? = some '`' := by
    rw [hcons, List.cons_append, List.head?_cons]
  have hfence : (backticks n ++ info).takeWhile (· == '`') = backticks n := by
    rw [List.takeWhile_append_of_pos (by simp [backticks])]
    cases info with
    | nil => simp
    | cons c info =>
      have hc : c ≠ '`' := fun h => hinfo (by simp [h])
      simp [hc]
  have hlength : (backticks n).length = n := List.length_replicate
  have hmark : (some '`').filter (fun c => c ∈ ['`', '~', ':']) = some '`' := by decide
  simp only [fenceOf, hbody, hhead, hmark, Option.bind_some, hfence, hlength]
  rw [if_pos ⟨by omega, hn⟩, List.drop_left' hlength]

theorem strip_eq_nil_of_spaces {text : Line} (h : text.all isSpaceOrTab = true) :
    strip text = [] := by
  have hleft : lstrip text = [] := by
    rw [lstrip, List.dropWhile_eq_nil_iff]
    intro c hmem
    have hc := List.all_eq_true.mp h c hmem
    simp only [isSpaceOrTab, Bool.or_eq_true, beq_iff_eq] at hc
    rcases hc with rfl | rfl
    · decide
    · decide
  rw [strip, hleft]
  rfl

/-- Behind a character that is no space, stripping keeps what stands before it. -/
theorem strip_append_cons {before after : Line} {c d : Char} (hc : isspace c = false)
    (hd : isspace d = false) : strip (c :: (before ++ d :: after)) =
      c :: (before ++ d :: rstrip after) := by
  have hleft : lstrip (c :: (before ++ d :: after)) = c :: (before ++ d :: after) := by
    rw [lstrip, List.dropWhile_cons_of_neg (by simp [hc])]
  have hreverse : (c :: (before ++ d :: after)).reverse =
      after.reverse ++ d :: (before.reverse ++ [c]) := by simp
  rw [strip, hleft, rstrip, hreverse, dropWhile_append_cons hd]
  simp [rstrip]

theorem markdown_reads : ReadsDirectives markdown (fun n => ('`', n)) where
  opens_backticks hn hinfo := by
    simp [markdown, fenceOf_backticks hn hinfo, hinfo]
  closes_backticks {m n} hn := by
    have hfence : fenceOf (backticks n ++ []) = some (('`', n), []) :=
      fenceOf_backticks hn (by simp)
    rw [List.append_nil] at hfence
    simp only [markdown, hfence, Option.any_some]
    exact decide_eq_decide.mpr (by simp)
  not_closes_info {m n info} hn hinfo hstrip := by
    have hspaces : info.all isSpaceOrTab = false := by
      by_contra h
      exact hstrip (strip_eq_nil_of_spaces (by simpa using h))
    simp only [markdown, fenceOf_backticks hn hinfo, Option.any_some, hspaces]
    simp
  not_closes_of_not_opens {n text} h := by
    simp only [markdown] at h ⊢
    cases hfence : fenceOf text with
    | none => rfl
    | some found =>
      simp only [hfence, Option.bind_some] at h
      split_ifs at h with hinfo
      simp only [Option.any_some, decide_eq_false_iff_not, not_and, List.all_eq_true]
      intro _ _ hspaces
      exact absurd (hspaces '`' hinfo.2) (by decide)
  shorter {m n} hle text h := by
    simp only [markdown, Option.any_eq_true, decide_eq_true_eq] at h ⊢
    obtain ⟨found, hfound, hchar, hlength, hspaces⟩ := h
    exact ⟨found, hfound, hchar, hle.trans hlength, hspaces⟩
  nests_directive {directive argument} hwritten _ := by
    rw [strip_append_cons (by decide) (by decide)]
    simp only [markdown, List.any_eq_true]
    refine ⟨directive, hwritten, List.isPrefixOf_iff_prefix.mpr ⟨rstrip argument, ?_⟩⟩
    simp
  opens_blank := rfl
  opens_option := by decide
  opens_fields := by decide
  opens_returns text := opens_of_head (by decide) _
  opens_entry name remark text := opens_of_head (by decide) _
  opens_field field _ := opens_of_head (by decide) _

/-- A type with a constructor and a note on it. -/
def notedEntities : List Entity :=
  [{ kind := .ofClass, name := "Q".toList, signature := "class Q".toList
     doc :=
      { brief := "A queue.".toList
        details := ["```cpp".toList, "Q q;".toList, "```".toList] } },
   { kind := .ofFunction, name := "Q".toList, signature := "Q()".toList, owner := "Q".toList
     doc := { notes := ["Empty.".toList] } }]

attribute [local instance] asciiPython

theorem notedEntities_tame :
    ∀ entity ∈ notedEntities, entity.Tame markdown (fun n => ('`', n)) .cpp := by
  have hcode : markdown.Whole ('`', 4) ["```cpp".toList, "Q q;".toList, "```".toList] := by
    have hnests : markdown.nests "cpp".toList = false := by decide
    have hopens : markdown.opens "```cpp".toList = some (('`', 3), "cpp".toList) := by decide
    have hwrites : markdown.Writes ('`', 4) (.fenced "cpp".toList (.ofLines ["Q q;".toList]) .nil)
        ("```cpp".toList :: ["Q q;".toList] ++ "```".toList :: []) :=
      .literal hnests hopens (by decide) (by decide) (by decide) (by decide) (by decide) .nil
    exact hwrites.whole
  intro entity hmem
  rcases List.mem_cons.mp hmem with rfl | hmem
  · exact
      { signature := by decide
        brief := by decide
        details := hcode
        entries := by simp
        members := by simp
        fields := by simp }
  · obtain rfl := List.mem_singleton.mp hmem
    exact
      { signature := by decide
        brief := by decide
        details := whole_plain markdown_reads (by simp)
        entries := by decide
        members := by simp
        fields := by simp }

theorem rendering_nests_noted :
    (renderEntities .cpp notedEntities 3).map markdown.read =
      some (directivesOf markdown .cpp (forestOf .cpp notedEntities)) :=
  (rendering_nests_iff markdown_reads (by decide) notedEntities_tame).mpr (by decide)

end LightPhi.Docs
