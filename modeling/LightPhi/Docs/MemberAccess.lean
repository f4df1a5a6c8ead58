import LightPhi.Docs.Scopes

/-! The access of a member: the label above it in its class or struct. -/
namespace LightPhi.Docs
open Base

inductive Access where
  | ofPublic
  | ofPrivate
  | ofProtected
  deriving DecidableEq

def Access.word : Access → List Char
  | .ofPublic => "public".toList
  | .ofPrivate => "private".toList
  | .ofProtected => "protected".toList

/-- What `word\s*:` matches at the head of a text. -/
def labelOf (text : List Char) (access : Access) : Option (Access × Nat) := do
  let behind ← behindWord access.word text
  match lstrip behind with
  | ':' :: rest => some (access, text.length - rest.length)
  | _ => none

/-- An access label at the head of a text, with its length. -/
def accessLabel (text : List Char) : Option (Access × Nat) :=
  [Access.ofPublic, .ofPrivate, .ofProtected].findSome? (labelOf text)

def defaultAccess (keyword : ScopeKeyword) : Access :=
  if keyword = .ofClass then .ofPrivate else .ofPublic

abbrev AccessWalk := ScopeWalk (ScopeKeyword × Access)

/-- The label that is read at the head of a text: one at the depth of the top of the stack. -/
def AccessWalk.label (walk : AccessWalk) (text : List Char) : Option (Access × Nat) := do
  let top ← walk.stack.getLast?
  if walk.depth = top.1 then accessLabel text else none

def AccessWalk.relabel (walk : AccessWalk) (access : Access) : AccessWalk :=
  { walk with stack := updateLast (fun top => (top.1, top.2.1, access)) walk.stack }

/-- The loop up to the offset. A text that ends before it has no character to read; behind a label
the loop goes on where that ends. -/
def accessLoop (opens : Nat → Option (ScopeKeyword × Access)) (offset : Nat) :
    (index resume : Nat) → AccessWalk → List Char → Option AccessWalk
  | index, _, walk, [] => if index < offset then none else some walk
  | index, resume, walk, c :: rest =>
    if offset ≤ index then some walk
    else if index < resume then accessLoop opens offset (index + 1) resume walk rest
    else match walk.label (c :: rest) with
      | some (access, length) =>
        accessLoop opens offset (index + 1) (index + length) (walk.relabel access) rest
      | none => accessLoop opens offset (index + 1) resume (walk.read opens index c) rest

def memberAccessAt [PythonCharacters] (blanked : List Char) (offset : Nat) : Option Access := do
  let found := (scopeMatches blanked).filter fun found => found.1 ≤ offset
  let opens := fun index => (found.lookup (index + 1)).map fun scope =>
    (scope.keyword, defaultAccess scope.keyword)
  let walk ← accessLoop opens offset 0 0 {} blanked
  let owner := walk.stack.reverse.find? fun entry => entry.2.1 ≠ .ofNamespace
  some (owner.elim .ofPublic (·.2.2))

theorem exists_spaces (text : List Char) :
    ∃ spaces, text = spaces ++ lstrip text ∧ ∀ c ∈ spaces, isspace c = true :=
  ⟨text.takeWhile isspace, List.takeWhile_append_dropWhile.symm, fun _ => List.mem_takeWhile_imp⟩

/-- Neither the first letter of a label nor a brace. -/
def InLabel (c : Char) : Prop := c ≠ 'p' ∧ weight c = 0

theorem inLabel_of_all {letters : List Char}
    (h : letters.all (fun c => c ≠ 'p' && weight c = 0) = true) : ∀ c ∈ letters, InLabel c := by
  simpa [InLabel] using h

theorem inLabel_of_isspace {c : Char} (h : isspace c = true) : InLabel c := by
  constructor
  · rintro rfl
    exact absurd h (by decide)
  · rw [weight, if_neg, if_neg]
    · rintro rfl
      exact absurd h (by decide)
    · rintro rfl
      exact absurd h (by decide)

theorem Access.exists_letters (access : Access) :
    ∃ letters, access.word = 'p' :: letters ∧ ∀ c ∈ letters, InLabel c := by
  cases access with
  | ofPublic => exact ⟨"ublic".toList, rfl, inLabel_of_all rfl⟩
  | ofPrivate => exact ⟨"rivate".toList, rfl, inLabel_of_all rfl⟩
  | ofProtected => exact ⟨"rotected".toList, rfl, inLabel_of_all rfl⟩

theorem accessLabel_eq_some {text : List Char} {access : Access} {length : Nat}
    (h : accessLabel text = some (access, length)) :
    ∃ inside rest, text = 'p' :: (inside ++ rest) ∧ length = inside.length + 1 ∧
      ∀ c ∈ inside, InLabel c := by
  obtain ⟨access', -, hlabel⟩ := List.exists_of_findSome?_eq_some h
  obtain ⟨behind, hword, hcolon⟩ := Option.bind_eq_some_iff.mp hlabel
  rw [behindWord] at hword
  split_ifs at hword with hbegins
  obtain ⟨after, rfl⟩ := List.isPrefixOf_iff_prefix.mp hbegins
  rw [List.drop_left, Option.some.injEq] at hword
  subst hword
  obtain ⟨letters, hletters, hplain⟩ := access'.exists_letters
  obtain ⟨spaces, hafter, hspaces⟩ := exists_spaces after
  split at hcolon
  · rename_i rest hrest
    obtain ⟨-, hlength⟩ := Prod.mk.inj (Option.some.inj hcolon)
    rw [hrest] at hafter
    subst hafter
    refine ⟨letters ++ spaces ++ [':'], rest, ?_, ?_, ?_⟩
    · rw [hletters]
      simp
    · rw [← hlength, hletters]
      simp only [List.cons_append, List.length_cons, List.length_append, List.length_nil]
      omega
    · intro c hc
      rcases List.mem_append.mp hc with hc | hc
      · rcases List.mem_append.mp hc with hc | hc
        · exact hplain c hc
        · exact inLabel_of_isspace (hspaces c hc)
      · obtain rfl := List.mem_singleton.mp hc
        exact ⟨by decide, rfl⟩
  · cases hcolon

theorem inLabel_of_accessLabel {blanked : List Char} {n k : Nat} {access : Access} {length : Nat}
    (h : accessLabel (blanked.drop n) = some (access, length)) (hlow : n < k)
    (hhigh : k < n + length) : ∀ c ∈ blanked[k]?, InLabel c := by
  obtain ⟨inside, rest, htext, rfl, hinside⟩ := accessLabel_eq_some h
  obtain ⟨j, rfl⟩ := Nat.exists_eq_add_of_lt hlow
  have hat : blanked[n + j + 1]? = inside[j]? := by
    rw [Nat.add_assoc, ← List.getElem?_drop, htext, List.getElem?_cons_succ,
      List.getElem?_append_left (by omega)]
  intro c hc
  rw [hat] at hc
  exact hinside c (List.mem_of_getElem? hc)

theorem accessLabel_eq_none {c : Char} (hc : c ≠ 'p') (rest : List Char) :
    accessLabel (c :: rest) = none := by
  by_contra hsome
  obtain ⟨⟨access, length⟩, hlabel⟩ := Option.ne_none_iff_exists'.mp hsome
  obtain ⟨inside, rest', htext, -⟩ := accessLabel_eq_some hlabel
  exact hc (List.cons.inj htext).1

/-- The label at a place directly inside the scope whose brace is at `i`. -/
def labelInside (blanked : List Char) (i k : Nat) : Option Access :=
  if i < k ∧ height weight blanked k = height weight blanked i + 1 then
    (accessLabel (blanked.drop k)).map (·.1)
  else none

/-- The access that a scope opened before a place gives there: that of the last label inside. -/
def accessInside (blanked : List Char) (offset : Nat) (entry : Nat × Scope) : Access :=
  ((List.range offset).filterMap (labelInside blanked entry.1)).getLast?.getD
    (defaultAccess entry.2.keyword)

section Inside
variable {blanked : List Char} {n : Nat}

theorem accessInside_succ (entry : Nat × Scope) : accessInside blanked (n + 1) entry =
    (labelInside blanked entry.1 n).getD (accessInside blanked n entry) := by
  rw [accessInside, List.range_succ, List.filterMap_append, List.getLast?_append]
  cases hlabel : labelInside blanked entry.1 n with
  | none => simp [hlabel, accessInside]
  | some access => simp [hlabel]

/-- A scope that is opened now has no label yet. -/
theorem accessInside_self (scope : Scope) :
    accessInside blanked (n + 1) (n, scope) = defaultAccess scope.keyword := by
  have hnone : (List.range (n + 1)).filterMap (labelInside blanked n) = [] := by
    rw [List.filterMap_eq_nil_iff]
    intro k hk
    have hle := List.mem_range.mp hk
    exact if_neg fun hlow => by omega
  rw [accessInside, hnone]
  rfl

/-- Of the scopes left unclosed, only the last can have the place directly inside. -/
theorem labelInside_of_mem {mark : Nat → Option Scope} {before : List (Nat × Scope)}
    {top entry : Nat × Scope} (htop : unclosed weight blanked mark n = before ++ [top])
    (hmem : entry ∈ before) : labelInside blanked entry.1 n = none := by
  have hpairwise : (unclosed weight blanked mark n).Pairwise _ := unclosed_pairwise mark n
  have htopmem : top ∈ unclosed weight blanked mark n := by
    rw [htop]
    simp
  rw [htop] at hpairwise
  obtain ⟨-, -, hlow⟩ := List.pairwise_append.mp hpairwise
  have hbelow := (hlow entry hmem top (by simp)).2
  have hunder := height_lt_of_mem htopmem
  exact if_neg fun hdirect => by omega

end Inside

theorem ScopeWalk.Keeps.congr {β γ : Type*} {mark : Nat → Option β} {value value' : Nat × β → γ}
    {blanked : List Char} {n : Nat} {walk : ScopeWalk γ} (h : walk.Keeps mark value blanked n)
    (hvalue : ∀ entry ∈ unclosed weight blanked mark n, value entry = value' entry) :
    walk.Keeps mark value' blanked n := by
  constructor
  · exact h.depth_eq
  · rw [h.stack_eq]
    refine List.map_congr_left fun entry hmem => ?_
    rw [hvalue entry hmem]

section Loop
variable [PythonCharacters] {blanked : List Char} {n : Nat} {walk : AccessWalk}
  {opens : Nat → Option (ScopeKeyword × Access)}

/-- The walk keeps, with every scope left unclosed, the access that it gives so far. -/
def AccessWalk.Attends (blanked : List Char) (n : Nat) (walk : AccessWalk) : Prop :=
  walk.Keeps (openerAt blanked) (fun entry => (entry.2.keyword, accessInside blanked n entry))
    blanked n

/-- What the character at a place puts on the stack. -/
def openedAt (blanked : List Char) (i : Nat) : Option (ScopeKeyword × Access) :=
  (openerAt blanked i).map fun scope => (scope.keyword, defaultAccess scope.keyword)

theorem AccessWalk.Attends.getLast?_eq (h : walk.Attends blanked n) :
    walk.stack.getLast? = (unclosed weight blanked (openerAt blanked) n).getLast?.map fun top =>
      (height weight blanked top.1 + 1, top.2.keyword, accessInside blanked n top) := by
  rw [h.stack_eq, List.getLast?_map]

theorem AccessWalk.Attends.unlabelled (h : walk.Attends blanked n)
    (hlabel : walk.label (blanked.drop n) = none) {entry : Nat × Scope}
    (hmem : entry ∈ unclosed weight blanked (openerAt blanked) n) :
    accessInside blanked (n + 1) entry = accessInside blanked n entry := by
  have hnone : labelInside blanked entry.1 n = none := by
    rcases List.eq_nil_or_concat' (unclosed weight blanked (openerAt blanked) n) with hnil | hlast
    · rw [hnil] at hmem
      cases hmem
    · obtain ⟨before, top, htop⟩ := hlast
      rw [htop] at hmem
      rcases List.mem_append.mp hmem with hmem | hself
      · exact labelInside_of_mem htop hmem
      · obtain rfl := List.mem_singleton.mp hself
        rw [label, h.getLast?_eq, htop, List.getLast?_concat, Option.map_some,
          Option.bind_eq_bind, Option.bind_some, h.depth_eq] at hlabel
        rw [labelInside]
        split_ifs with hdirect
        · rw [if_pos hdirect.2] at hlabel
          rw [hlabel]
          rfl
        · rfl
  rw [accessInside_succ, hnone]
  rfl

/-- A character on which no label is read. -/
theorem AccessWalk.Attends.read (h : walk.Attends blanked n) {c : Char} (hc : blanked[n]? = some c)
    (hlabel : walk.label (blanked.drop n) = none)
    (hopens : opens n = openedAt blanked n) :
    AccessWalk.Attends blanked (n + 1) (walk.read opens n c) := by
  have hkeeps : walk.Keeps (openerAt blanked)
      (fun entry => (entry.2.keyword, accessInside blanked (n + 1) entry)) blanked n :=
    ScopeWalk.Keeps.congr h fun entry hmem => by rw [h.unlabelled hlabel hmem]
  apply hkeeps.read hc
  rw [hopens, openedAt]
  congr 1
  funext scope
  rw [accessInside_self]

/-- A character inside a label. -/
theorem AccessWalk.Attends.inside (h : walk.Attends blanked n) {c : Char}
    (hc : blanked[n]? = some c) (hinside : InLabel c) : walk.Attends blanked (n + 1) := by
  obtain ⟨hp, hweight⟩ := hinside
  have hlabel : walk.label (blanked.drop n) = none := by
    obtain ⟨hn, rfl⟩ := List.getElem?_eq_some_iff.mp hc
    rw [List.drop_eq_getElem_cons hn, AccessWalk.label, accessLabel_eq_none hp]
    cases walk.stack.getLast? <;> simp
  have hread : ∀ opens, walk.read opens n c = walk := by
    intro opens
    rw [ScopeWalk.read, if_neg, if_neg]
    · rintro rfl
      exact absurd hweight (by decide)
    · rintro rfl
      exact absurd hweight (by decide)
  have hkept : AccessWalk.Attends blanked (n + 1) (walk.read (openedAt blanked) n c) :=
    h.read hc hlabel rfl
  rwa [hread] at hkept

theorem AccessWalk.Attends.relabel (h : walk.Attends blanked n) {access : Access} {length : Nat}
    (hlabel : walk.label (blanked.drop n) = some (access, length)) :
    (walk.relabel access).Attends blanked (n + 1) := by
  obtain ⟨top, htop, hdepth⟩ := Option.bind_eq_some_iff.mp hlabel
  split_ifs at hdepth with hdirect
  obtain ⟨inside, rest, htext, -, -⟩ := accessLabel_eq_some hdepth
  have hhead : blanked[n]? = some 'p' := by
    rw [← List.head?_drop, htext]
    rfl
  have hheight : height weight blanked (n + 1) = height weight blanked n :=
    (height_succ weight hhead).trans (Int.add_zero _)
  rw [h.getLast?_eq] at htop
  obtain ⟨entry, hlast, rfl⟩ := Option.map_eq_some_iff.mp htop
  obtain ⟨before, hbefore⟩ := List.getLast?_eq_some_iff.mp hlast
  rw [h.depth_eq] at hdirect
  have hmem : entry ∈ unclosed weight blanked (openerAt blanked) n := by
    rw [hbefore]
    simp
  have hself : accessInside blanked (n + 1) entry = access := by
    have hlow : entry.1 < n := (mem_unclosed.mp hmem).1
    rw [accessInside_succ, labelInside, if_pos ⟨hlow, hdirect⟩, hdepth]
    rfl
  have hothers : ∀ other ∈ before,
      accessInside blanked (n + 1) other = accessInside blanked n other := by
    intro other hother
    rw [accessInside_succ, labelInside_of_mem hbefore hother]
    rfl
  constructor
  · exact h.depth_eq.trans hheight.symm
  · rw [AccessWalk.relabel, h.stack_eq, unclosed_level hheight, hbefore]
    simp only [updateLast, List.map_append, List.map_cons, List.map_nil, List.dropLast_concat,
      List.getLast?_concat, Option.toList_some, hself]
    congr 1
    refine List.map_congr_left fun other hother => ?_
    rw [hothers other hother]

theorem accessLoop_attends {offset index resume : Nat} (hindex : index ≤ offset)
    (hlength : offset ≤ blanked.length) (h : walk.Attends blanked index)
    (hresume : ∀ k, index ≤ k → k < resume → ∀ c ∈ blanked[k]?, InLabel c)
    (hopens : ∀ k < offset, opens k = openedAt blanked k) :
    ∃ walk', accessLoop opens offset index resume walk (blanked.drop index) = some walk' ∧
      AccessWalk.Attends blanked offset walk' := by
  generalize htext : blanked.drop index = text
  induction text generalizing index resume walk with
  | nil =>
    have hend : blanked.length ≤ index := List.drop_eq_nil_iff.mp htext
    obtain rfl : index = offset := by omega
    exact ⟨walk, by rw [accessLoop, if_neg (lt_irrefl _)], h⟩
  | cons c rest ih =>
    have hat : blanked[index]? = some c := by
      rw [← List.head?_drop, htext]
      rfl
    have hrest : blanked.drop (index + 1) = rest := by
      rw [← List.drop_drop, htext]
      rfl
    rw [accessLoop]
    split_ifs with hdone hskip
    · obtain rfl : index = offset := by omega
      exact ⟨walk, rfl, h⟩
    · exact ih (by omega) (h.inside hat (hresume index le_rfl hskip c hat))
        (fun k hlow hk => hresume k (by omega) hk) hrest
    · rw [← htext]
      cases hlabel : AccessWalk.label walk (blanked.drop index) with
      | none =>
        exact ih (by omega) (h.read hat hlabel (hopens index (by omega)))
          (fun k hlow hk => by omega) hrest
      | some label =>
        obtain ⟨access, length⟩ := label
        obtain ⟨top, -, hdepth⟩ := Option.bind_eq_some_iff.mp hlabel
        split_ifs at hdepth
        exact ih (by omega) (h.relabel hlabel)
          (fun k hlow hk => inLabel_of_accessLabel hdepth hlow hk) hrest

end Loop

theorem accessLoop_short {opens : Nat → Option (ScopeKeyword × Access)} {offset index resume : Nat}
    {text : List Char} (h : index + text.length < offset) (walk : AccessWalk) :
    accessLoop opens offset index resume walk text = none := by
  induction text generalizing index resume walk with
  | nil =>
    rw [List.length_nil, Nat.add_zero] at h
    rw [accessLoop, if_pos h]
  | cons c rest ih =>
    rw [List.length_cons] at h
    rw [accessLoop, if_neg (by omega)]
    split_ifs
    · exact ih (by omega) walk
    · split
      · exact ih (by omega) _
      · exact ih (by omega) _

/-- The innermost class or struct left unclosed at a place. -/
def ownerAt [PythonCharacters] (blanked : List Char) (offset : Nat) : Option (Nat × Scope) :=
  (unclosed weight blanked (openerAt blanked) offset).reverse.find? fun entry =>
    entry.2.keyword ≠ .ofNamespace

/-- The access at a place is that of the last label before it directly inside the innermost class
or struct, and without such a label what the keyword says. -/
theorem memberAccessAt_owner [PythonCharacters] (blanked : List Char) (offset : Nat) :
    memberAccessAt blanked offset =
      if offset ≤ blanked.length then
        some ((ownerAt blanked offset).elim .ofPublic (accessInside blanked offset))
      else none := by
  rw [memberAccessAt]
  split_ifs with hlength
  · have hopens : ∀ k < offset, (((scopeMatches blanked).filter fun found =>
        found.1 ≤ offset).lookup (k + 1)).map (fun scope =>
          (scope.keyword, defaultAccess scope.keyword)) = openedAt blanked k := by
      intro k hk
      rw [lookup_filter_le hk, lookup_scopeMatches, openedAt]
    have hquiet : ∀ k, 0 ≤ k → k < 0 → ∀ c ∈ blanked[k]?, InLabel c := fun k _ hk => by omega
    obtain ⟨walk, hloop, hwalk⟩ := accessLoop_attends (Nat.zero_le offset) hlength
      ScopeWalk.keeps_start hquiet hopens
    rw [List.drop_zero] at hloop
    have howner : walk.stack.reverse.find? (fun entry => entry.2.1 ≠ .ofNamespace) =
        (ownerAt blanked offset).map fun entry => (height weight blanked entry.1 + 1,
          entry.2.keyword, accessInside blanked offset entry) := by
      rw [hwalk.stack_eq, ← List.map_reverse, List.find?_map, ownerAt]
      rfl
    simp only [hloop, Option.bind_eq_bind, Option.bind_some, howner]
    cases ownerAt blanked offset <;> rfl
  · rw [accessLoop_short (by omega)]
    rfl

end LightPhi.Docs
