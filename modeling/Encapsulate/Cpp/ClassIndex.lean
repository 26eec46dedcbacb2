import Encapsulate.Cpp.SourceFile

/-!
The records known to a unit, by qualified name. Of several records of one name
the first counts, and the primary file comes before its headers. A written type
is resolved from the innermost enclosing scope outwards and, failing that, by a
unique record that ends in the written name. Members are searched in a record
and then below its bases in order, at most sixteen bases up.
-/

namespace Encapsulate.Cpp

structure ClassIndex where
  records : List Record

namespace ClassIndex

def get? (index : ClassIndex) (name : String) : Option Record :=
  index.records.find? (·.qualifiedName == name)

def contains (index : ClassIndex) (name : String) : Bool :=
  index.records.any (·.qualifiedName == name)

/-- Adds a record unless one of its name is there. -/
def insertNew (index : ClassIndex) (r : Record) : ClassIndex :=
  if index.contains r.qualifiedName then index else ⟨index.records ++ [r]⟩

def ofUnit (u : SourceUnit) : ClassIndex :=
  (u.files.flatMap SourceFile.records).foldl insertNew ⟨[]⟩

def size (index : ClassIndex) : Nat :=
  index.records.length

def uniqueEnding (index : ClassIndex) (name : String) : Option String :=
  let ending := ':' :: ':' :: name.toList
  match (index.records.map Record.qualifiedName).filter fun q => Text.endsWith q.toList ending with
  | [only] => some only
  | _ => none

def resolveType (index : ClassIndex) (written : String) (scope : List String) : Option String :=
  let name := lookupName written
  if name.isEmpty then none
  else if [':', ':'].isPrefixOf (Text.trimStart written.toList) then
    if index.contains name then some name else none
  else
    match (Name.candidates scope name).find? index.contains with
    | some candidate => some candidate
    | none => index.uniqueEnding name

/-- The record reached through a declared type: the type itself, or the element
of a standard container or smart pointer. -/
def resolveValueType (index : ClassIndex) (written : String) (scope : List String) :
    Option String :=
  (index.resolveType written scope).orElse fun _ =>
    (elementType written).bind fun element => index.resolveType element scope

/-- What `pick` finds in a record or, failing that, below the first base where it
finds something at most `steps` bases up, with the record where it was found. -/
def search {α : Type} (index : ClassIndex) (pick : Record → Option α) :
    Nat → String → Option (Record × α)
  | steps, name =>
    match index.get? name with
    | none => none
    | some r =>
      match pick r with
      | some a => some (r, a)
      | none =>
        match steps with
        | 0 => none
        | rest + 1 => r.bases.findSome? fun base =>
          (index.resolveType base r.scope).bind (search index pick rest)

def maxBaseSteps : Nat := 16

def lookupField (index : ClassIndex) (record field : String) : Option (Record × Field) :=
  index.search (fun r => r.fields.find? (·.name == field)) maxBaseSteps record

def lookupMethod (index : ClassIndex) (record method : String) : Option (Record × Method) :=
  index.search (fun r => r.methods.find? (·.name == method)) maxBaseSteps record

def fieldClass (index : ClassIndex) (owner : Record) (field : Field) : Option String :=
  index.resolveValueType field.type.base owner.innerScope

def methodClass (index : ClassIndex) (record method : String) : Option String := do
  let (owner, m) ← index.lookupMethod record method
  let result ← m.resultType
  index.resolveValueType result.base owner.innerScope

end ClassIndex

end Encapsulate.Cpp
