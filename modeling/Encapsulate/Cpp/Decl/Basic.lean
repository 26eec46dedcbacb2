import Encapsulate.Cpp.Code.Basic

/-!
Declarations of a file: namespaces, records, functions and variables, nested as
they are written. Bodies and initializers are code.
-/

namespace Encapsulate.Cpp

inductive RecordKind where
  | structType
  | classType
  | unionType
deriving DecidableEq, Repr

/-- A data member that is not static. -/
structure Field where
  name : String
  qualifiedName : String
  type : TypeRef
  /-- The whole member declaration, with its semicolon. -/
  span : Span
deriving DecidableEq, Repr

inductive MethodKind where
  | constructor
  | destructor
  | method
  | operator
deriving DecidableEq, Repr

def MethodKind.ofName (record name : String) : MethodKind :=
  if ['~'].isPrefixOf name.toList then .destructor
  else if "operator".toList.isPrefixOf name.toList then .operator
  else if name == record then .constructor
  else .method

structure Method where
  name : String
  kind : MethodKind
  /-- Neither defaulted nor deleted. -/
  isUserProvided : Bool
  /-- Absent for constructors, destructors and conversion operators. -/
  resultType : Option TypeRef
  span : Span
deriving DecidableEq, Repr

structure Record where
  kind : RecordKind
  name : String
  qualifiedName : String
  /-- Names of the enclosing namespaces and records, outermost first. -/
  scope : List String
  /-- Base classes as written. -/
  bases : List String
  fields : List Field
  methods : List Method
  /-- Names of static data, nested types and aliases. -/
  otherMembers : List String
  span : Span
  /-- Offset of the brace that closes the body. -/
  closeBrace : Nat
deriving DecidableEq, Repr

namespace Record

def innerScope (r : Record) : List String :=
  r.scope ++ [r.name]

def hasMember (r : Record) (name : String) : Bool :=
  r.fields.any (·.name == name) || r.methods.any (·.name == name) || r.otherMembers.contains name

def userMethods (r : Record) : List Method :=
  r.methods.filter (·.isUserProvided)

end Record

structure Function where
  /-- Unqualified name. -/
  name : String
  qualifiedName : String
  scope : List String
  /-- The record of a member function, or the qualifier written in front of the name. -/
  record : Option String
  params : List Binding
  resultType : Option TypeRef
  body : Option Code
  span : Span

inductive Decl where
  | space (name : Option String) (decls : List Decl)
  /-- A record with its nested records and inline member functions. -/
  | record (record : Record) (decls : List Decl)
  | function (function : Function)
  | global (scope : List String) (binding : Binding)

namespace Decl

mutual

def records : Decl → List Record
  | .space _ ds => recordsOf ds
  | .record r ds => r :: recordsOf ds
  | .function _ => []
  | .global _ _ => []

def recordsOf : List Decl → List Record
  | [] => []
  | d :: ds => records d ++ recordsOf ds

end

mutual

def functions : Decl → List Function
  | .space _ ds => functionsOf ds
  | .record _ ds => functionsOf ds
  | .function f => [f]
  | .global _ _ => []

def functionsOf : List Decl → List Function
  | [] => []
  | d :: ds => functions d ++ functionsOf ds

end

mutual

def globals : Decl → List (String × Var)
  | .space _ ds => globalsOf ds
  | .record _ _ => []
  | .function _ => []
  | .global scope b => [(Name.qualify scope b.var.name, b.var)]

def globalsOf : List Decl → List (String × Var)
  | [] => []
  | d :: ds => globals d ++ globalsOf ds

end

mutual

/-- The trees of code in a declaration: parameter initializers, bodies and
initializers of variables, in source order. -/
def codes : Decl → List Code
  | .space _ ds => codesOf ds
  | .record _ ds => codesOf ds
  | .function f => Binding.inits f.params ++ f.body.toList
  | .global _ b => b.init.toList

def codesOf : List Decl → List Code
  | [] => []
  | d :: ds => codes d ++ codesOf ds

end

end Decl

end Encapsulate.Cpp
