import LightPhi.Docs.MemberAccess

/-! Documented declarations, and how the documentation writes them. -/
namespace LightPhi.Docs

inductive EntityKind where
  | ofClass
  | ofStruct
  | ofEnum
  | ofFunction
  | ofType
  | ofVar
  | ofMacro
  | ofMember
  deriving DecidableEq

def EntityKind.isType : EntityKind → Bool
  | .ofClass | .ofStruct | .ofEnum => true
  | _ => false

/-- A data member that a type declares. -/
structure Field where
  access : Access
  type : List Char
  name : List Char
  declaration : List Char
  description : List Char
  deriving DecidableEq

/-- One documented declaration and the comment attached to it. -/
structure Entity where
  kind : EntityKind
  name : List Char
  signature : List Char
  doc : DocComment := {}
  owner : List Char := []
  members : List (List Char × List Char) := []
  bases : List (List Char) := []
  fields : List Field := []
  deriving DecidableEq

inductive Domain where
  | c
  | cpp
  deriving DecidableEq

def directives : Domain → EntityKind → List Char
  | .cpp, .ofClass => "cpp:class".toList
  | .cpp, .ofStruct => "cpp:struct".toList
  | .cpp, .ofEnum => "cpp:enum-class".toList
  | .cpp, .ofFunction => "cpp:function".toList
  | .cpp, .ofType => "cpp:type".toList
  | .cpp, .ofVar => "cpp:var".toList
  | .cpp, .ofMacro => "c:macro".toList
  | .cpp, .ofMember => "cpp:member".toList
  | .c, .ofClass => "c:struct".toList
  | .c, .ofStruct => "c:struct".toList
  | .c, .ofEnum => "c:enum".toList
  | .c, .ofFunction => "c:function".toList
  | .c, .ofType => "c:type".toList
  | .c, .ofVar => "c:var".toList
  | .c, .ofMacro => "c:macro".toList
  | .c, .ofMember => "c:member".toList

/-- Where the member-initialiser list of a constructor begins. -/
def initializerAt : Int → Option Char → List Char → Option Nat
  | _, _, [] => none
  | depth, previous, c :: rest =>
    if c = '(' ∨ c = '[' then (initializerAt (depth + 1) (some c) rest).map (· + 1)
    else if c = ')' ∨ c = ']' then (initializerAt (depth - 1) (some c) rest).map (· + 1)
    else if c = ':' ∧ depth = 0 then
      if rest.head? = some ':' ∨ previous = some ':' then
        (initializerAt depth (some c) rest).map (· + 1)
      else some 0
    else (initializerAt depth (some c) rest).map (· + 1)

def stripInitializer (signature : List Char) : List Char :=
  match initializerAt 0 none signature with
  | some index => strip (signature.take index)
  | none => signature

/-- A text without what the first of some words matches at its head, with spaces behind it. -/
def withoutKeyword (words : List (List Char)) (text : List Char) : List Char :=
  (words.findSome? fun word => behindKeyword word text).getD text

/-- A text without `export`, `inline`, `static` or `friend` at its head. -/
def withoutNoise (signature : List Char) : List Char :=
  ((["export", "inline", "static", "friend"].map String.toList).findSome? fun word =>
    behindKeyword word (lstrip signature)).getD signature

def withoutDefine (signature : List Char) : List Char :=
  match signature with
  | '#' :: rest => (behindKeyword "define".toList (lstrip rest)).getD signature
  | _ => signature

/-- What `template\s*<[^>]*>` matches at the head of a text. -/
def templateOf (signature : List Char) : Option (List Char) := do
  let behind ← behindWord "template".toList signature
  match lstrip behind with
  | '<' :: inner =>
    match inner.dropWhile fun c => c ≠ '>' with
    | '>' :: rest => some (signature.take (signature.length - rest.length))
    | _ => none
  | _ => none

/-- A text without the keyword that says which kind of type it declares. -/
def withoutTypeKeyword (body : List Char) : List Char :=
  (((behindKeyword "enum".toList body).bind (behindKeyword "class".toList)).or
    ((["enum", "class", "struct", "union"].map String.toList).findSome? fun word =>
      behindKeyword word body)).getD body

section Signature
variable [PythonCharacters]

/-- A macro with the names of its parameters. -/
def macroName (definition : List Char) : List Char :=
  if definition.head?.any startsName then
    let name := definition.takeWhile isWord
    match definition.drop name.length with
    | '(' :: inner =>
      let parameters := inner.takeWhile fun c => c ≠ ')'
      match inner.drop parameters.length with
      | ')' :: _ => name ++ '(' :: (parameters ++ [')'])
      | _ => name
    | _ => name
  else definition.takeWhile fun c => c ≠ ' '

/-- The declaration as the documentation's domain wants to read it. -/
def signatureFor (entity : Entity) (domain : Domain) : List Char :=
  let signature := withoutKeyword (["typedef", "using"].map String.toList)
    (strip (withoutNoise entity.signature))
  match entity.kind with
  | .ofMacro => macroName (withoutDefine signature)
  | .ofFunction => stripInitializer signature
  | .ofType | .ofVar | .ofMember => signature
  | .ofClass | .ofStruct | .ofEnum =>
    match domain with
    | .c => entity.name
    | .cpp =>
      match templateOf signature with
      | some template =>
        -- one character behind the template is taken to be a space
        strip (template ++ ' ' :: withoutTypeKeyword (signature.drop (template.length + 1)))
      | none => strip (withoutTypeKeyword signature)

end Signature

end LightPhi.Docs
