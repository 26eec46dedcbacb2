import Encapsulate.Cpp.Code.Reading
import Encapsulate.Cpp.Decl.Basic

/-!
Declarations read from parsed text. The scope is passed down from the enclosing
namespaces and records, so that every name is qualified where it is read. What a
record's members contribute is collected member by member and concatenated.
-/

namespace Encapsulate.Cpp

open ParseTree

def namespaceSegments (written : List Char) : List String :=
  let segments := (Name.segments written).map fun s =>
    Text.trim (Name.dropInline (Text.trim s))
  (segments.filter (!·.isEmpty)).map String.ofList

/-- Wraps declarations in one namespace for each segment, or in a namespace
without a name when there is none. -/
def Decl.nest (segments : List String) (decls : List Decl) : List Decl :=
  match segments with
  | [] => [.space none decls]
  | _ => segments.foldr (fun name inner => [.space (some name) inner]) decls

/-- The constructs that may hold declarations outside of functions. -/
inductive DeclConstruct where
  | space
  | record
  | function
  | declaration
  | typedef
  /-- Templates, linkage blocks and preprocessor branches: their items count as if they
  stood outside. -/
  | container
  | include
  | other
deriving DecidableEq, Repr

def DeclConstruct.ofKind : String → DeclConstruct
  | "namespace_definition" => .space
  | "class_specifier" | "struct_specifier" | "union_specifier" => .record
  | "function_definition" => .function
  | "declaration" => .declaration
  | "type_definition" => .typedef
  | "template_declaration" | "linkage_specification" | "declaration_list" | "preproc_ifdef"
  | "preproc_if" | "preproc_else" | "preproc_elif" | "preproc_elifdef" => .container
  | "preproc_include" => .include
  | _ => .other

/-- The constructs that may be members of a record. -/
inductive MemberConstruct where
  | field
  | function
  | declaration
  | typedef
  | alias
  | container
  | other
deriving DecidableEq, Repr

def MemberConstruct.ofKind : String → MemberConstruct
  | "field_declaration" => .field
  | "function_definition" => .function
  | "declaration" => .declaration
  | "type_definition" => .typedef
  | "alias_declaration" => .alias
  | "template_declaration" | "preproc_ifdef" | "preproc_if" | "preproc_else"
  | "preproc_elif" => .container
  | _ => .other

def RecordKind.ofKind : String → RecordKind
  | "class_specifier" => .classType
  | "union_specifier" => .unionType
  | _ => .structType

/-- What members contribute to their record. -/
structure Members where
  fields : List Field := []
  methods : List Method := []
  others : List String := []
  decls : List Decl := []

namespace Members

def append (a b : Members) : Members :=
  ⟨a.fields ++ b.fields, a.methods ++ b.methods, a.others ++ b.others, a.decls ++ b.decls⟩

instance : Append Members :=
  ⟨append⟩

def concat (ms : List Members) : Members :=
  ms.foldr append {}

end Members

/-- The record that members belong to. -/
structure Owner where
  name : String
  qualifiedName : String
  innerScope : List String

def isUserProvided (source : List Char) (member : ParseTree) : Bool :=
  let hasClause := member.children.any fun (c : ParseTree) =>
    c.kind == "default_method_clause" || c.kind == "delete_method_clause"
  let written := Text.trimEnd
    (Text.dropEndWhile (· == ';') (Text.trimEnd (Text.slice source member.span)))
  !(hasClause || Text.endsWith written "= default".toList
    || Text.endsWith written "= delete".toList)

/-- A function declared by `declarator` in the declaration `node`, whose function
declarator is `signature`; without its body. -/
def readPrototype (source : List Char) (scope : List String)
    (node declarator signature : ParseTree) : Option Function := do
  let written ← declaredName source signature
  let (record, name) := match Name.splitLast written.toList with
    | some (owner, name) => (some (String.ofList owner), String.ofList name)
    | none => (none, written)
  return { name, record, scope
           qualifiedName := Name.qualify scope written
           params := Code.readParamsField source signature.children
           resultType := resultType source node.children declarator
           body := none
           span := node.span }

def readFunction (source : List Char) (scope : List String) (record : Option String)
    (node : ParseTree) : Option Function := do
  let declarator ← field? "declarator" node.children
  let signature ← functionDeclarator declarator
  let f ← readPrototype source scope node declarator signature
  return { f with
           record := record.orElse fun _ => f.record
           body := Code.readField source .body "body" node.children }

/-- The function or variable that one declarator of a declaration outside of
records introduces. -/
def readDeclarator (source : List Char) (scope : List String) (node declarator : ParseTree) :
    List Decl :=
  match functionDeclarator declarator with
  | some signature =>
    ((readPrototype source scope node declarator signature).map Decl.function).toList
  | none =>
    let own := Code.readField source .initializer "value" node.children
    let d := declaredBy source node.children (some declarator)
    ((d.bind? (Code.readValue source own declarator) declarator.span).map
      (Decl.global scope)).toList

def baseNames (source : List Char) (cs : List ParseTree) : List String :=
  match cs.find? (·.kind == "base_class_clause") with
  | none => []
  | some clause =>
    ((items clause.children).filter fun c =>
      c.kind != "access_specifier" && c.kind != "virtual").map (text source)

def closeBrace (body : ParseTree) : Nat :=
  match (body.children.filter (·.info.kind == "\x7d")).getLast? with
  | some brace => brace.info.span.start
  | none => body.span.stop - 1

def methodOf (source : List Char) (owner : Owner) (member : ParseTree) (name : String)
    (result : Option TypeRef) : Method :=
  { name, kind := .ofName owner.name name, isUserProvided := isUserProvided source member
    resultType := result, span := member.span }

def memberOfDeclaration (source : List Char) (owner : Owner) (member declarator : ParseTree) :
    Members :=
  match declaredName source declarator with
  | none => {}
  | some name =>
    if isFunctionDeclarator declarator then
      { methods := [methodOf source owner member name
          (resultType source member.children declarator)] }
    else
      { others := [name] }

def memberOfField (source : List Char) (owner : Owner) (member declarator : ParseTree) :
    Members :=
  if isFunctionDeclarator declarator then
    memberOfDeclaration source owner member declarator
  else
    let d := declaredBy source member.children (some declarator)
    match d.name with
    | none => {}
    | some name =>
      let isStatic := member.children.any fun (c : ParseTree) =>
        c.kind == "storage_class_specifier" && text source c == "static"
      if isStatic then { others := [name] }
      else
        { fields := [⟨name, owner.qualifiedName ++ "::" ++ name, d.type, member.span⟩] }

def memberOfFunction (source : List Char) (owner : Owner) (member : ParseTree) : Members :=
  match readFunction source owner.innerScope (some owner.qualifiedName) member with
  | none => {}
  | some f =>
    { methods := [methodOf source owner member f.name f.resultType], decls := [.function f] }

/-- The name of an enumeration defined in the type position of a member declaration. -/
def enumName (source : List Char) (cs : List ParseTree) : Option String := do
  let type ← field? "type" cs
  guard (!isRecordSpecifier type && type.kind == "enum_specifier")
  let name ← field? "name" type.children
  return text source name

namespace Decl

def ofRecord (r : Record × List Decl) : Decl :=
  .record r.1 r.2

mutual

def read (source : List Char) (scope : List String) : ParseTree → List Decl
  | .node i cs =>
    match DeclConstruct.ofKind i.kind with
    | .space =>
      let segments := ((field? "name" cs).map fun name =>
        namespaceSegments (Text.slice source name.span)).getD []
      nest segments (readBody source (scope ++ segments) cs)
    | .record => ((readRecord source scope none (.node i cs)).map ofRecord).toList
    | .function => ((readFunction source scope none (.node i cs)).map Decl.function).toList
    | .declaration =>
      ((readTypeRecord source scope none cs).map ofRecord).toList
        ++ (fieldAll "declarator" cs).flatMap (readDeclarator source scope (.node i cs))
    | .typedef =>
      let name := (field? "declarator" cs).bind (declaredName source)
      ((readTypeRecord source scope name cs).map ofRecord).toList
    | .container => readItems source scope cs
    | .include | .other => []

def readItems (source : List Char) (scope : List String) : List ParseTree → List Decl
  | [] => []
  | c :: cs =>
    if isItem c then read source scope c ++ readItems source scope cs
    else readItems source scope cs

def readBody (source : List Char) (scope : List String) : List ParseTree → List Decl
  | [] => []
  | .node i ks :: cs =>
    if fills "body" (.node i ks) then readItems source scope ks else readBody source scope cs

/-- The record defined by a specifier with a body, under its own name or else
`hint`, with the declarations nested in it. -/
def readRecord (source : List Char) (scope : List String) (hint : Option String) :
    ParseTree → Option (Record × List Decl)
  | .node i cs => do
    let body ← field? "body" cs
    let named := (field? "name" cs).map fun name => lookupName (text source name)
    let name ← named.orElse fun _ => hint
    let owner : Owner := ⟨name, Name.qualify scope name, scope ++ [name]⟩
    let members := readMembersBody source owner cs
    return (
      { kind := .ofKind i.kind, name, qualifiedName := owner.qualifiedName, scope
        bases := baseNames source cs
        fields := members.fields, methods := members.methods, otherMembers := members.others
        span := i.span, closeBrace := closeBrace body },
      members.decls)

def readTypeRecord (source : List Char) (scope : List String) (hint : Option String) :
    List ParseTree → Option (Record × List Decl)
  | [] => none
  | c :: cs =>
    if fills "type" c then
      if isRecordSpecifier c then readRecord source scope hint c else none
    else
      readTypeRecord source scope hint cs

def readMembersBody (source : List Char) (owner : Owner) : List ParseTree → Members
  | [] => {}
  | .node i ks :: cs =>
    if fills "body" (.node i ks) then readMembers source owner ks
    else readMembersBody source owner cs

def readMembers (source : List Char) (owner : Owner) : List ParseTree → Members
  | [] => {}
  | c :: cs =>
    if isItem c then readMember source owner c ++ readMembers source owner cs
    else readMembers source owner cs

def readMember (source : List Char) (owner : Owner) : ParseTree → Members
  | .node i cs =>
    let declarators := fieldAll "declarator" cs
    match MemberConstruct.ofKind i.kind with
    | .field =>
      let nested : Members := match readTypeRecord source owner.innerScope none cs with
        | some (r, ds) => { others := [r.name], decls := [.record r ds] }
        | none => { others := (enumName source cs).toList }
      nested ++ Members.concat (declarators.map (memberOfField source owner (.node i cs)))
    | .function => memberOfFunction source owner (.node i cs)
    | .declaration =>
      Members.concat (declarators.map (memberOfDeclaration source owner (.node i cs)))
    | .typedef => { others := declarators.filterMap (declaredName source) }
    | .alias => { others := ((field? "name" cs).map (text source)).toList }
    | .container => readMembers source owner cs
    | .other => {}

end

end Decl

mutual

def includesOf (source : List Char) : ParseTree → List String
  | .node i cs =>
    match DeclConstruct.ofKind i.kind with
    | .include =>
      match field? "path" cs with
      | some path =>
        if path.kind == "string_literal" then
          let quoted := Text.slice source path.span
          [String.ofList (Text.dropEndWhile (· == '"') (quoted.dropWhile (· == '"')))]
        else []
      | none => []
    | .space => includesOfBody source cs
    | .container => includesOfItems source cs
    | .record | .function | .declaration | .typedef | .other => []

def includesOfItems (source : List Char) : List ParseTree → List String
  | [] => []
  | c :: cs =>
    if isItem c then includesOf source c ++ includesOfItems source cs
    else includesOfItems source cs

def includesOfBody (source : List Char) : List ParseTree → List String
  | [] => []
  | .node i ks :: cs =>
    if fills "body" (.node i ks) then includesOfItems source ks else includesOfBody source cs

end

end Encapsulate.Cpp
