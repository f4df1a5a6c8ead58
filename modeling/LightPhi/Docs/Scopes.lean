import LightPhi.Base.Matches
import LightPhi.Base.Unclosed
import LightPhi.Docs.Bodies
import LightPhi.Docs.DocComment

/-! The scopes around a place in a header, found by one walk over its braces. -/
namespace LightPhi.Docs
open Base

inductive ScopeKeyword where
  | ofNamespace
  | ofClass
  | ofStruct
  deriving DecidableEq

def ScopeKeyword.word : ScopeKeyword → List Char
  | .ofNamespace => "namespace".toList
  | .ofClass => "class".toList
  | .ofStruct => "struct".toList

structure Scope where
  keyword : ScopeKeyword
  name : List Char
  deriving DecidableEq

/-- What `\s+` leaves of a text, where it matches. -/
def behindSpaces : List Char → Option (List Char)
  | [] => none
  | c :: rest => if isspace c then some (lstrip rest) else none

/-- What a word leaves of a text that begins with it. -/
def behindWord (word text : List Char) : Option (List Char) :=
  if word.isPrefixOf text then some (text.drop word.length) else none

/-- What `word\s+` leaves of a text, where it matches. -/
def behindKeyword (word text : List Char) : Option (List Char) :=
  (behindWord word text).bind behindSpaces

/-- What `[A-Za-z_]` matches. -/
def startsName (c : Char) : Bool := c.isAlpha || c == '_'

/-- What `[^;{]*` stops at. -/
def endsHead (c : Char) : Bool := c == ';' || c == '{'

section Pattern
variable [PythonCharacters]

def inName (c : Char) : Bool := isWord c || c == ':'

/-- What `keyword\s+([A-Za-z_][\w:]*)` matches: the scope, and what is left of the text. -/
def scopeNamed (keyword : ScopeKeyword) (text : List Char) : Option (Scope × List Char) := do
  let named ← behindKeyword keyword.word text
  let first ← named.head?
  if startsName first then
    some ({ keyword, name := named.takeWhile inName }, named.dropWhile inName)
  else none

def scopeHead (text : List Char) : Option (Scope × List Char) :=
  [ScopeKeyword.ofNamespace, .ofClass, .ofStruct].findSome? fun keyword => scopeNamed keyword text

/-- The rest of the pattern, `[^;{]*\{`. -/
def opensScope (text : List Char) : Option (Scope × List Char) := do
  let (scope, behind) ← scopeHead text
  match behind.dropWhile fun c => !endsHead c with
  | '{' :: rest => some (scope, rest)
  | _ => none

/-- A scope opener at the head of a text, behind the character before it, with its length. -/
def scopeMatch (previous : Option Char) (text : List Char) : Option (Scope × Nat) := do
  let first ← text.head?
  if previous.any isWord != isWord first then
    let (scope, rest) ← ((behindKeyword "export".toList text).bind opensScope).or (opensScope text)
    some (scope, text.length - rest.length)
  else none

/-- The scope openers of a text, each with where its match ends. -/
def scopeMatches (blanked : List Char) : List (Nat × Scope) := findAll scopeMatch none 0 0 blanked

end Pattern

/-- The walk: the depth, and the stack from its bottom to its top. -/
structure ScopeWalk (β : Type*) where
  depth : Int := 0
  stack : List (Int × β) := []

/-- One character at an index, where `opens` tells what an opening brace opens. -/
def ScopeWalk.read {β : Type*} (opens : Nat → Option β) (walk : ScopeWalk β) (index : Nat)
    (c : Char) : ScopeWalk β :=
  if c = '{' then
    { depth := walk.depth + 1
      stack := walk.stack ++ ((opens index).map (walk.depth + 1, ·)).toList }
  else if c = '}' then
    { depth := walk.depth - 1
      stack := walk.stack.rdropWhile fun entry => walk.depth ≤ entry.1 }
  else walk

/-- The namespace, and the innermost type, that scopes make from the outermost to the innermost. -/
def namesOf (scopes : List Scope) : List Char × List Char :=
  let namespaces := scopes.filter fun scope => scope.keyword = .ofNamespace
  let types := scopes.filter fun scope => scope.keyword ≠ .ofNamespace
  ("::".toList.intercalate (namespaces.map Scope.name), (types.map Scope.name).getLast?.getD [])

def scopesAt [PythonCharacters] (blanked : List Char) (offset : Nat) : List Char × List Char :=
  let opens := (scopeMatches blanked).takeWhile fun found => found.1 ≤ offset
  let walk := (blanked.take offset).zipIdx.foldl
    (fun walk entry => walk.read (fun index => opens.lookup (index + 1)) entry.2 entry.1)
    ({} : ScopeWalk Scope)
  namesOf (walk.stack.map (·.2))

/-- The walk over the first characters keeps what is left unclosed, each with the depth that its
brace opens. -/
structure ScopeWalk.Keeps {β γ : Type*} (mark : Nat → Option β) (value : Nat × β → γ)
    (blanked : List Char) (n : Nat) (walk : ScopeWalk γ) : Prop where
  depth_eq : walk.depth = height weight blanked n
  stack_eq : walk.stack = (unclosed weight blanked mark n).map fun entry =>
    (height weight blanked entry.1 + 1, value entry)

section Walk
variable {β γ : Type*} {mark : Nat → Option β} {value : Nat × β → γ} {opens : Nat → Option γ}
  {blanked : List Char} {n : Nat} {walk : ScopeWalk γ}

/-- Off the stack goes what the depth no longer holds up. -/
theorem rdropWhile_unclosed (depth : Int) :
    ((unclosed weight blanked mark n).map fun entry =>
      (height weight blanked entry.1 + 1, value entry)).rdropWhile (fun entry => depth ≤ entry.1) =
    ((unclosed weight blanked mark n).filter fun entry =>
      height weight blanked entry.1 < depth - 1).map fun entry =>
        (height weight blanked entry.1 + 1, value entry) := by
  rw [rdropWhile_eq_filter, List.filter_map]
  · congr 1
    refine List.filter_congr fun entry _ => ?_
    simp only [Function.comp_apply, ← decide_not, decide_eq_decide]
    omega
  · rw [List.pairwise_map]
    refine (unclosed_pairwise mark n).imp fun hab hle => ?_
    simp only [decide_eq_true_eq] at hle ⊢
    omega

theorem ScopeWalk.Keeps.read (h : walk.Keeps mark value blanked n) {c : Char}
    (hc : blanked[n]? = some c) (hopens : opens n = (mark n).map fun b => value (n, b)) :
    (walk.read opens n c).Keeps mark value blanked (n + 1) := by
  have hheight := height_succ weight hc
  rw [ScopeWalk.read]
  split_ifs with hopen hclose
  · rw [weight_eq_one_iff.mpr hopen] at hheight
    constructor
    · rw [h.depth_eq, hheight]
    · rw [unclosed_rises (by omega), List.map_append, h.stack_eq, h.depth_eq, hopens]
      cases mark n <;> rfl
  · rw [weight_eq_neg_one_iff.mpr hclose] at hheight
    constructor
    · rw [h.depth_eq, hheight]
      rfl
    · rw [unclosed_falls (by omega), h.stack_eq, h.depth_eq, rdropWhile_unclosed, hheight]
      rfl
  · rw [weight, if_neg hopen, if_neg hclose, Int.add_zero] at hheight
    constructor
    · rw [h.depth_eq, hheight]
    · rw [unclosed_level hheight, h.stack_eq]

theorem ScopeWalk.keeps_start : ({} : ScopeWalk γ).Keeps mark value blanked 0 where
  depth_eq := (height_zero weight blanked).symm
  stack_eq := rfl

theorem ScopeWalk.keeps_walk {offset : Nat} 
    (hopens : ∀ i < offset, opens i = (mark i).map fun b => value (i, b))
    (hn : n ≤ offset) :
    ((blanked.take n).zipIdx.foldl (fun walk entry => walk.read opens entry.2 entry.1)
      ({} : ScopeWalk γ)).Keeps mark value blanked n := by
  induction n with
  | zero => exact ScopeWalk.keeps_start
  | succ n ih =>
    have hkeeps := ih (Nat.le_of_succ_le hn)
    cases hat : blanked[n]? with
    | none =>
      have hlength := List.getElem?_eq_none_iff.mp hat
      rw [List.take_of_length_le hlength] at hkeeps
      rw [List.take_of_length_le (Nat.le_succ_of_le hlength)]
      have hheight := height_succ_none weight hat
      constructor
      · rw [hkeeps.depth_eq, hheight]
      · rw [unclosed_level hheight, hkeeps.stack_eq]
    | some c =>
      have hlength : (blanked.take n).length = n := by
        rw [List.length_take]
        have := (List.getElem?_eq_some_iff.mp hat).1
        omega
      rw [List.take_add_one, hat, Option.toList_some, List.zipIdx_append, List.foldl_append]
      rw [hlength, Nat.zero_add]
      exact hkeeps.read hat (hopens n hn)

end Walk

theorem endsHead_iff {c : Char} : endsHead c = true ↔ c = ';' ∨ c = '{' := by
  simp [endsHead]

theorem unstopped_of_all {word : List Char} (h : word.all (fun c => !endsHead c) = true) :
    ∀ c ∈ word, endsHead c = false := by
  simpa using h

theorem behindKeyword_suffix {word text behind : List Char}
    (h : behindKeyword word text = some behind) : behind <:+ text := by
  obtain ⟨after, hword, hspaces⟩ := Option.bind_eq_some_iff.mp h
  have hafter : after <:+ text := by
    rw [behindWord] at hword
    split_ifs at hword
    obtain rfl := Option.some.inj hword
    exact List.drop_suffix _ _
  cases after with
  | nil => cases hspaces
  | cons c after =>
    rw [behindSpaces] at hspaces
    split_ifs at hspaces
    obtain rfl := Option.some.inj hspaces
    exact ((List.dropWhile_suffix isspace).trans (List.suffix_cons c after)).trans hafter

theorem scopeHead_suffix [PythonCharacters] {text behind : List Char} {scope : Scope}
    (h : scopeHead text = some (scope, behind)) : behind <:+ text := by
  obtain ⟨keyword, -, hnamed⟩ := List.exists_of_findSome?_eq_some h
  obtain ⟨named, hkeyword, hfirst⟩ := Option.bind_eq_some_iff.mp hnamed
  obtain ⟨first, -, hscope⟩ := Option.bind_eq_some_iff.mp hfirst
  split_ifs at hscope
  obtain ⟨-, rfl⟩ := Prod.mk.inj (Option.some.inj hscope)
  exact (List.dropWhile_suffix inName).trans (behindKeyword_suffix hkeyword)

section Heads
variable {c : Char} (hc : endsHead c = true)
include hc

theorem isspace_of_endsHead : isspace c = false := by
  rcases endsHead_iff.mp hc with rfl | rfl
  · decide
  · decide

theorem behindWord_append {word : List Char} (hword : ∀ d ∈ word, endsHead d = false)
    (before rest : List Char) :
    behindWord word (before ++ c :: rest) = (behindWord word before).map (· ++ c :: rest) := by
  have hsame : word.isPrefixOf (before ++ c :: rest) = word.isPrefixOf before := by
    induction word generalizing before with
    | nil => simp
    | cons d word ih =>
      have hne : d ≠ c := by
        rintro rfl
        simp [hword d (by simp)] at hc
      cases before with
      | nil => simp [List.isPrefixOf, hne]
      | cons e before => simp [List.isPrefixOf, ih fun f hf => hword f (List.mem_cons_of_mem d hf)]
  rw [behindWord, behindWord, hsame]
  split_ifs with hbegins
  · have hle := (List.isPrefixOf_iff_prefix.mp hbegins).length_le
    rw [List.drop_append_of_le_length hle, Option.map_some]
  · rfl

theorem behindSpaces_append (before rest : List Char) :
    behindSpaces (before ++ c :: rest) = (behindSpaces before).map (· ++ c :: rest) := by
  have hspace := isspace_of_endsHead hc
  cases before with
  | nil => simp [behindSpaces, hspace]
  | cons d before =>
    rw [List.cons_append, behindSpaces, behindSpaces, lstrip, dropWhile_append_cons hspace]
    split_ifs
    · rfl
    · rfl

theorem behindKeyword_append {word : List Char} (hword : ∀ d ∈ word, endsHead d = false)
    (before rest : List Char) :
    behindKeyword word (before ++ c :: rest) =
      (behindKeyword word before).map (· ++ c :: rest) := by
  rw [behindKeyword, behindKeyword, behindWord_append hc hword]
  cases behindWord word before with
  | none => rfl
  | some behind => exact behindSpaces_append hc behind rest

variable [PythonCharacters]

theorem isWord_of_endsHead : isWord c = false := by
  rcases endsHead_iff.mp hc with rfl | rfl
  · simp [isWord, PythonCharacters.isalnum_ascii]
  · simp [isWord, PythonCharacters.isalnum_ascii]

theorem inName_of_endsHead : inName c = false := by
  rw [inName, isWord_of_endsHead hc]
  rcases endsHead_iff.mp hc with rfl | rfl
  · rfl
  · rfl

theorem scopeNamed_append (keyword : ScopeKeyword) (before rest : List Char) :
    scopeNamed keyword (before ++ c :: rest) =
      (scopeNamed keyword before).map fun found => (found.1, found.2 ++ c :: rest) := by
  have hword : ∀ d ∈ keyword.word, endsHead d = false := by
    cases keyword
    · exact unstopped_of_all rfl
    · exact unstopped_of_all rfl
    · exact unstopped_of_all rfl
  rw [scopeNamed, scopeNamed, behindKeyword_append hc hword]
  cases behindKeyword keyword.word before with
  | none => rfl
  | some named =>
    have hname := inName_of_endsHead hc
    cases named with
    | nil =>
      have hstart : startsName c = false := by
        rcases endsHead_iff.mp hc with rfl | rfl
        · decide
        · decide
      simp [hstart]
    | cons d named =>
      simp only [Option.map_some, Option.bind_eq_bind, Option.bind_some, List.cons_append,
        List.head?_cons]
      rw [← List.cons_append, takeWhile_append_cons hname, dropWhile_append_cons hname]
      split_ifs
      · rfl
      · rfl

theorem scopeHead_append (before rest : List Char) :
    scopeHead (before ++ c :: rest) =
      (scopeHead before).map fun found => (found.1, found.2 ++ c :: rest) := by
  simp only [scopeHead, List.findSome?_cons, List.findSome?_nil, scopeNamed_append hc]
  cases scopeNamed .ofNamespace before with
  | some found => rfl
  | none =>
    cases scopeNamed .ofClass before with
    | some found => rfl
    | none => cases scopeNamed .ofStruct before <;> rfl

theorem opensScope_append {before : List Char} (hfree : ∀ d ∈ before, endsHead d = false)
    (rest : List Char) : opensScope (before ++ c :: rest) =
      if c = '{' then (scopeHead before).map fun found => (found.1, rest) else none := by
  rw [opensScope, scopeHead_append hc]
  cases hhead : scopeHead before with
  | none => simp
  | some found =>
    obtain ⟨scope, behind⟩ := found
    have hbehind : behind.dropWhile (fun d => !endsHead d) = [] := by
      rw [List.dropWhile_eq_nil_iff]
      intro d hd
      simp [hfree d ((scopeHead_suffix hhead).subset hd)]
    simp only [Option.map_some, Option.bind_eq_bind, Option.bind_some]
    rw [dropWhile_append_cons (by simp [hc]), hbehind, List.nil_append]
    rcases endsHead_iff.mp hc with rfl | rfl
    · rfl
    · rfl

end Heads

variable [PythonCharacters]

theorem opensScope_unstopped {text : List Char} (hfree : ∀ c ∈ text, endsHead c = false) :
    opensScope text = none := by
  rw [opensScope]
  cases hhead : scopeHead text with
  | none => rfl
  | some found =>
    obtain ⟨scope, behind⟩ := found
    have hbehind : behind.dropWhile (fun d => !endsHead d) = [] := by
      rw [List.dropWhile_eq_nil_iff]
      intro d hd
      simp [hfree d ((scopeHead_suffix hhead).subset hd)]
    simp [hbehind]

/-- The scope that a declaration head opens: with or without its `export`. -/
def headScope (head : List Char) : Option Scope :=
  (((behindKeyword "export".toList head).bind scopeHead).or (scopeHead head)).map (·.1)

theorem scopeMatch_append {c : Char} (hc : endsHead c = true) {before : List Char}
    (hfree : ∀ d ∈ before, endsHead d = false) (previous : Option Char) (rest : List Char) :
    scopeMatch previous (before ++ c :: rest) =
      if c = '{' ∧ previous.any isWord != isWord (before.head?.getD c) then
        (headScope before).map (·, before.length + 1)
      else none := by
  have hexport : ∀ d ∈ "export".toList, endsHead d = false := unstopped_of_all rfl
  have hfirst : (before ++ c :: rest).head? = some (before.head?.getD c) := by
    cases before <;> rfl
  have hopens : ((behindKeyword "export".toList (before ++ c :: rest)).bind opensScope).or
      (opensScope (before ++ c :: rest)) =
      if c = '{' then (headScope before).map (·, rest) else none := by
    rw [behindKeyword_append hc hexport, opensScope_append hc hfree, headScope]
    cases hbehind : behindKeyword "export".toList before with
    | none =>
      split_ifs
      · cases scopeHead before <;> rfl
      · rfl
    | some behind =>
      have hfree' : ∀ d ∈ behind, endsHead d = false := fun d hd =>
        hfree d ((behindKeyword_suffix hbehind).subset hd)
      rw [Option.map_some, Option.bind_some, opensScope_append hc hfree', Option.bind_some]
      split_ifs
      · cases scopeHead behind <;> cases scopeHead before <;> rfl
      · rfl
  rw [scopeMatch, hfirst]
  simp only [Option.bind_eq_bind, Option.bind_some, hopens]
  by_cases hopen : c = '{'
  · rw [if_pos hopen]
    cases headScope before with
    | none => simp
    | some scope =>
      have hlength : before.length + (rest.length + 1) - rest.length = before.length + 1 := by
        omega
      simp [hopen, hlength]
  · simp [hopen]

theorem scopeMatch_unstopped {previous : Option Char} {text : List Char}
    (hfree : ∀ c ∈ text, endsHead c = false) : scopeMatch previous text = none := by
  have hexported : (behindKeyword "export".toList text).bind opensScope = none := by
    cases hbehind : behindKeyword "export".toList text with
    | none => rfl
    | some behind =>
      exact opensScope_unstopped fun d hd => hfree d ((behindKeyword_suffix hbehind).subset hd)
  rw [scopeMatch, hexported, opensScope_unstopped hfree]
  cases text with
  | nil => rfl
  | cons c rest => simp

theorem scopeMatch_endsAt : EndsAt scopeMatch endsHead where
  reaches {previous text scope length} h := by
    have hstops : ¬ ∀ c ∈ text, endsHead c = false := by
      intro hfree
      rw [scopeMatch_unstopped hfree] at h
      cases h
    obtain ⟨before, c, rest, rfl, hbefore, hc⟩ := exists_stretch hstops
    rw [scopeMatch_append hc hbefore] at h
    split_ifs at h
    obtain ⟨_, -, hlength⟩ := Option.map_eq_some_iff.mp h
    exact ⟨before, c, rest, rfl, hbefore, hc, (Prod.mk.inj hlength).2.symm⟩
  cut {before c} previous rest hfree hc := by
    rw [scopeMatch_append hc hfree, scopeMatch_append hc hfree]
  fresh {c} text hc := by
    rw [scopeMatch, scopeMatch]
    simp [isWord_of_endsHead hc]

/-- The first scope that a declaration head names. -/
def firstScope : Option Char → List Char → Option Scope
  | _, [] => none
  | previous, c :: rest =>
    if previous.any isWord != isWord c then
      (headScope (c :: rest)).or (firstScope (some c) rest)
    else firstScope (some c) rest

/-- What stands before a place, behind the last `;` or `{`. -/
def declarationHead (blanked : List Char) (i : Nat) : List Char :=
  (blanked.take i).rtakeWhile fun c => !endsHead c

/-- The scope that the character at a place opens. -/
def openerAt (blanked : List Char) (i : Nat) : Option Scope :=
  if blanked[i]? = some '{' then firstScope none (declarationHead blanked i) else none

theorem headScope_nil : headScope [] = none := rfl

theorem findFirst_scopeMatch {c : Char} (hc : endsHead c = true) (previous : Option Char)
    {head : List Char} (hfree : ∀ d ∈ head, endsHead d = false) :
    findFirst scopeMatch previous (head ++ [c]) =
      if c = '{' then firstScope previous head else none := by
  induction head generalizing previous with
  | nil =>
    have hnone := scopeMatch_append hc hfree previous []
    rw [List.nil_append] at hnone
    rw [List.nil_append, findFirst, hnone]
    simp [headScope_nil, firstScope, findFirst]
  | cons d head ih =>
    have hmatch := scopeMatch_append hc hfree previous []
    rw [List.cons_append, List.head?_cons, Option.getD_some] at hmatch
    rw [List.cons_append, findFirst, hmatch, ih _ fun e he => hfree e (List.mem_cons_of_mem d he),
      firstScope]
    by_cases hopen : c = '{'
    · cases previous.any isWord != isWord d with
      | false => simp [hopen]
      | true => cases headScope (d :: head) <;> simp [hopen]
    · simp [hopen]

theorem lookup_scopeMatches (blanked : List Char) (i : Nat) :
    (scopeMatches blanked).lookup (i + 1) = openerAt blanked i := by
  have hprevious : ∀ c ∈ (none : Option Char), endsHead c = true := by simp
  have hfound := scopeMatch_endsAt.findAll_lookup hprevious 0 i blanked
  rw [Nat.zero_add] at hfound
  rw [scopeMatches, hfound, openerAt]
  cases hat : blanked[i]? with
  | none => rfl
  | some c =>
    rw [Option.bind_some]
    split_ifs with hends hopen
    · rw [findFirst_scopeMatch hends, if_pos (Option.some.inj hopen), declarationHead]
      intro d hd
      simpa using List.mem_rtakeWhile_imp hd
    · rw [findFirst_scopeMatch hends, if_neg]
      · rintro rfl
        exact hopen rfl
      · intro d hd
        simpa using List.mem_rtakeWhile_imp hd
    · rename_i hopen
      obtain rfl := Option.some.inj hopen
      exact absurd (by decide) hends
    · rfl

/-- The scopes around a place are those that a declaration head before it opens with a brace that
is unclosed at the place. -/
theorem scopesAt_unclosed (blanked : List Char) (offset : Nat) :
    scopesAt blanked offset =
      namesOf ((unclosed weight blanked (openerAt blanked) offset).map (·.2)) := by
  have hopens : ∀ i < offset,
      ((scopeMatches blanked).takeWhile fun found => found.1 ≤ offset).lookup (i + 1) =
        (openerAt blanked i).map fun scope => scope := by
    intro i hi
    rw [scopeMatches, takeWhile_le_eq_filter (scopeMatch_endsAt.findAll_pairwise none 0 0 blanked),
      lookup_filter_le hi]
    rw [Option.map_id']
    exact lookup_scopeMatches blanked i
  have hkeeps : ScopeWalk.Keeps (openerAt blanked) (·.2) blanked offset _ :=
    ScopeWalk.keeps_walk hopens le_rfl
  rw [scopesAt, hkeeps.stack_eq, List.map_map]
  rfl

end LightPhi.Docs
