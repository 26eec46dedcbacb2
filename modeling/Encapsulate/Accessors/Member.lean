import Encapsulate.Accessors.Target
import Encapsulate.Edit
import Encapsulate.Text.Line

/-!
The accessors added to the record that declares a target: a const getter, a
getter and a setter. Accessors whose name the record already uses are left out.
They follow the record's last user-provided member function or, in a record
without one, stand at the end of its body.
-/

namespace Encapsulate.Accessors

open Cpp

/-- Where the accessors of a field are inserted. -/
inductive Anchor where
  /-- In front of the closing brace at this offset. -/
  | beforeBrace (offset : Nat)
  /-- After the member function that ends at this offset. -/
  | afterMethod (offset : Nat)
deriving DecidableEq, Repr

def Anchor.ofRecord (r : Record) : Anchor :=
  match r.userMethods.getLast? with
  | some m => .afterMethod m.span.stop
  | none => .beforeBrace r.closeBrace

/-- The accessors of one target. -/
structure AccessorSpec where
  field : String
  getter : String
  setter : String
  owner : String
  anchor : Anchor
  constType : String
  valueType : String
  hasGetters : Bool
  hasSetter : Bool
deriving DecidableEq, Repr

namespace AccessorSpec

def constGetterText (spec : AccessorSpec) : String :=
  referenceTo spec.constType ++ spec.getter ++ "() const \x7b return " ++ spec.field ++ "; \x7d"

def getterText (spec : AccessorSpec) : String :=
  referenceTo spec.valueType ++ spec.getter ++ "() \x7b return " ++ spec.field ++ "; \x7d"

def setterText (spec : AccessorSpec) : String :=
  "void " ++ spec.setter ++ "(" ++ referenceTo spec.constType ++ "_" ++ spec.field ++ ") \x7b "
    ++ spec.field ++ " = _" ++ spec.field ++ "; \x7d"

def members (spec : AccessorSpec) : List String :=
  (if spec.hasGetters then [spec.constGetterText, spec.getterText] else [])
    ++ (if spec.hasSetter then [spec.setterText] else [])

def ofTarget (t : Target) (r : Record) : AccessorSpec :=
  { field := t.name
    getter := Name.getter t.name
    setter := Name.setter t.name
    owner := r.qualifiedName
    anchor := .ofRecord r
    constType := t.constType
    valueType := t.type.spelled
    hasGetters := !r.hasMember (Name.getter t.name)
    hasSetter := !r.hasMember (Name.setter t.name) }

def warnings (file : SourceFile) (t : Target) (spec : AccessorSpec) : List Diagnostic :=
  let warn (name what : String) : Diagnostic :=
    .locate .warning file.path file.source t.span.start
      ("'" ++ spec.owner ++ "' already declares '" ++ name ++ "'; " ++ what ++ " not generated")
  (if spec.hasGetters then [] else [warn spec.getter "getters"])
    ++ (if spec.hasSetter then [] else [warn spec.setter "setter"])

end AccessorSpec

def ownedTargets (file : SourceFile) (targets : List Target) : List (Target × Record) :=
  (targets.filter (·.isOwned)).filterMap fun t =>
    (file.findRecord t.owner).map fun r => (t, r)

def specs (file : SourceFile) (targets : List Target) : List AccessorSpec :=
  (ownedTargets file targets).map fun (t, r) => .ofTarget t r

def specWarnings (file : SourceFile) (targets : List Target) : List Diagnostic :=
  (ownedTargets file targets).flatMap fun (t, r) =>
    AccessorSpec.warnings file t (.ofTarget t r)

def memberIndent (file : SourceFile) (targets : List Target) (owner : String) : String :=
  match targets.find? fun t => t.isOwned && t.owner == owner with
  | some t => String.ofList (Text.lineIndent file.source t.span.start)
  | none => ""

def braceOnLine (file : SourceFile) (owner : String) (offset : Nat) : Bool :=
  match file.findRecord owner with
  | some r => !(Text.slice file.source ⟨offset, r.closeBrace⟩).contains '\n'
  | none => false

def insertion (file : SourceFile) (targets : List Target) (spec : AccessorSpec) : Option Edit :=
  let members := spec.members
  let oneLine := String.intercalate " " members
  if members.isEmpty then none
  else
    match spec.anchor with
    | .afterMethod offset =>
      if braceOnLine file spec.owner offset then
        some (.insertAfter offset (" " ++ oneLine))
      else
        let indent := String.ofList (Text.lineIndent file.source offset)
        some (.insertAfter offset (String.join (members.map fun m => "\n" ++ indent ++ m)))
    | .beforeBrace offset =>
      let start := Text.lineStart file.source offset
      if (Text.trim (Text.slice file.source ⟨start, offset⟩)).isEmpty then
        let indent := memberIndent file targets spec.owner
        some (.insertBefore start (String.join (members.map fun m => indent ++ m ++ "\n")))
      else
        some (.insertBefore offset (oneLine ++ " "))

def insertions (file : SourceFile) (targets : List Target) : EditQueue :=
  (specs file targets).filterMap (insertion file targets)

def insertedCount (file : SourceFile) (targets : List Target) : Nat :=
  ((specs file targets).flatMap (·.members)).length

end Encapsulate.Accessors
