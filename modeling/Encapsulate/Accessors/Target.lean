import Encapsulate.Cpp.SourceFile
import Encapsulate.Diagnostic

/-!
The fields to be encapsulated. Configured names are compared with the qualified
names of all fields of a unit, the primary file first, then its headers, each
record before the records nested in it. The first field that is not an array
becomes the target of its name; arrays met before it are reported, since an
accessor cannot return them by reference. Names without a field are passed over.
-/

namespace Encapsulate.Accessors

open Cpp

structure Target where
  qualifiedName : String
  name : String
  type : TypeRef
  /-- The type with const added at the top level, as written in accessors. -/
  constType : String
  /-- Qualified name of the record that declares the field. -/
  owner : String
  /-- Whether the field is declared in the primary file. -/
  isOwned : Bool
  /-- The declaration, in the file that holds it. -/
  span : Span
deriving DecidableEq, Repr

/-- A field where it is declared. -/
structure Occurrence where
  file : SourceFile
  isOwned : Bool
  owner : Record
  field : Field

namespace Occurrence

def ofFile (isOwned : Bool) (file : SourceFile) : List Occurrence :=
  file.records.flatMap fun owner => owner.fields.map fun field => ⟨file, isOwned, owner, field⟩

def all (u : SourceUnit) : List Occurrence :=
  ofFile true u.primary ++ u.headers.flatMap (ofFile false)

def target (o : Occurrence) : Target :=
  { qualifiedName := o.field.qualifiedName
    name := o.field.name
    type := o.field.type
    constType := o.field.type.constSpelled
    owner := o.owner.qualifiedName
    isOwned := o.isOwned
    span := o.field.span }

def arrayWarning (o : Occurrence) : Diagnostic :=
  .locate .warning o.file.path o.file.source o.field.span.start
    ("field '" ++ o.field.qualifiedName
      ++ "' has array type and cannot be returned by reference; skipped")

end Occurrence

/-- Targets in the order of discovery, and what was reported on the way. -/
structure Selection where
  targets : List Target := []
  diagnostics : List Diagnostic := []

namespace Selection

def contains (s : Selection) (qualifiedName : String) : Bool :=
  s.targets.any (·.qualifiedName == qualifiedName)

def consider (wanted : List String) (s : Selection) (o : Occurrence) : Selection :=
  if !wanted.contains o.field.qualifiedName || s.contains o.field.qualifiedName then s
  else if o.field.type.isArray then { s with diagnostics := s.diagnostics ++ [o.arrayWarning] }
  else { s with targets := s.targets ++ [o.target] }

end Selection

/-- The targets among the fields of a unit; a leading `::` of a name is ignored. -/
def select (fields : List String) (u : SourceUnit) : Selection :=
  (Occurrence.all u).foldl (Selection.consider (fields.map Name.withoutGlobal)) {}

end Encapsulate.Accessors
