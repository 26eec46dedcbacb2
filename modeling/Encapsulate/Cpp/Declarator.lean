import Encapsulate.Cpp.ParseTree
import Encapsulate.Cpp.TypeRef

/-!
Declarators: the part of a declaration that gives one entity its name and adds
pointers, references and array bounds to the common specifier. A declarator is a
chain of nodes from the outside in; each step of the chain is classified once by
the kind of its node.
-/

namespace Encapsulate.Cpp

open ParseTree

/-- What one node of a declarator chain contributes. -/
inductive DeclaratorStep where
  | initialized
  | pointer
  | reference
  | array
  | parenthesized
  | attributed
  | function
  | name
deriving DecidableEq, Repr

def DeclaratorStep.ofKind : String → DeclaratorStep
  | "init_declarator" => .initialized
  | "pointer_declarator" => .pointer
  | "reference_declarator" => .reference
  | "array_declarator" => .array
  | "parenthesized_declarator" => .parenthesized
  | "attributed_declarator" => .attributed
  | "function_declarator" => .function
  | _ => .name

def nameKinds : List String :=
  ["identifier", "field_identifier", "type_identifier", "destructor_name", "operator_name",
   "qualified_identifier"]

mutual

def declaredName (source : List Char) : ParseTree → Option String
  | .node i cs =>
    if nameKinds.contains i.kind then some (Text.sliceString source i.span)
    else if i.kind == "template_function" then (field? "name" cs).map (text source)
    else if hasField "declarator" cs then nameInDeclarator source cs
    else nameInFirst source cs

def nameInDeclarator (source : List Char) : List ParseTree → Option String
  | [] => none
  | c :: cs => if fills "declarator" c then declaredName source c else nameInDeclarator source cs

def nameInFirst (source : List Char) : List ParseTree → Option String
  | [] => none
  | c :: cs => if isItem c then declaredName source c else nameInFirst source cs

end

mutual

/-- The function declarator inside a declarator, seen through the pointers and
references of the result type; nothing for a pointer or reference to a function. -/
def functionDeclarator : ParseTree → Option ParseTree
  | .node i cs =>
    match DeclaratorStep.ofKind i.kind with
    | .function =>
      match field? "declarator" cs with
      | some inner => if inner.kind == "parenthesized_declarator" then none else some (.node i cs)
      | none => none
    | .pointer => functionInDeclarator cs
    | .reference | .attributed => functionInNamed cs
    | .initialized | .array | .parenthesized | .name => none

def functionInDeclarator : List ParseTree → Option ParseTree
  | [] => none
  | c :: cs => if fills "declarator" c then functionDeclarator c else functionInDeclarator cs

/-- Looks into the first named child, which may be a comment. -/
def functionInNamed : List ParseTree → Option ParseTree
  | [] => none
  | c :: cs => if c.info.isNamed then functionDeclarator c else functionInNamed cs

end

def isFunctionDeclarator (t : ParseTree) : Bool :=
  (functionDeclarator t).isSome

def isRecordSpecifier (t : ParseTree) : Bool :=
  ["class_specifier", "struct_specifier", "union_specifier"].contains t.kind
    && hasField "body" t.children

def specifierType (source : List Char) (cs : List ParseTree) : TypeRef :=
  let base := match field? "type" cs with
    | none => ""
    | some spec =>
      if isRecordSpecifier spec then
        ((field? "name" spec.children).map (text source)).getD ""
      else
        text source spec
  let qualifiers := ((items cs).filter (·.kind == "type_qualifier")).map (text source)
  { base
    isConst := qualifiers.any fun q => q == "const" || q == "constexpr"
    isVolatile := qualifiers.contains "volatile" }

/-- A name, if the declarator has one, with its full type. -/
structure Declared where
  name : Option String
  type : TypeRef
deriving DecidableEq, Repr

mutual

/-- Adds the parts of a declarator to the type `t` of what encloses it. -/
def declared (source : List Char) (t : TypeRef) : ParseTree → Declared
  | .node i cs =>
    match DeclaratorStep.ofKind i.kind with
    | .initialized => declaredInner source t cs
    | .pointer =>
      let isConst := (items cs).any fun c => c.kind == "type_qualifier" && text source c == "const"
      declaredInner source { t with pointers := t.pointers ++ [isConst] } cs
    | .reference =>
      let written := Text.trimStart (Text.slice source i.span)
      let reference := if ['&', '&'].isPrefixOf written then .rvalue else .lvalue
      declaredFirst source { t with reference := some reference } cs
    | .array => declaredInner source { t with isArray := true } cs
    | .parenthesized | .attributed => declaredFirst source t cs
    | .function => ⟨none, t⟩
    | .name => ⟨declaredName source (.node i cs), t⟩

def declaredInner (source : List Char) (t : TypeRef) : List ParseTree → Declared
  | [] => ⟨none, t⟩
  | c :: cs => if fills "declarator" c then declared source t c else declaredInner source t cs

def declaredFirst (source : List Char) (t : TypeRef) : List ParseTree → Declared
  | [] => ⟨none, t⟩
  | c :: cs => if isItem c then declared source t c else declaredFirst source t cs

end

def declaredBy (source : List Char) (cs : List ParseTree) : Option ParseTree → Declared
  | none => ⟨none, specifierType source cs⟩
  | some declarator => declared source (specifierType source cs) declarator

/-- The type in front of a function's name; nothing for a declaration without a
specifier, such as a constructor. -/
def resultType (source : List Char) (cs : List ParseTree) (declarator : ParseTree) :
    Option TypeRef :=
  let t := (declaredBy source cs (some declarator)).type
  if t.base.isEmpty then none else some t

end Encapsulate.Cpp
