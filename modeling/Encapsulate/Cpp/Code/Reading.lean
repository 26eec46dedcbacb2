import Encapsulate.Cpp.Code.Basic
import Encapsulate.Cpp.Declarator

/-!
Code read from parsed text. Reading never fails: a construct without a shape of
its own becomes a node of a catch-all shape whose children are read in turn, and
a part that error recovery left out becomes an empty group at the end of its
parent. The kind of each node is classified once; everything else is recursion
on the tree.
-/

namespace Encapsulate.Cpp

open ParseTree

/-- The constructs that reading tells apart. -/
inductive Construct where
  | block | exprStmt | declaration | returnStmt | throwStmt | branch | switch | caseLabel
  | loop (kind : LoopKind)
  | elseClause
  | member | assign | binary | conditional | comma | braced | step | unary | paren | call
  | subscript | lambda | identifier | this
  /-- A literal: an expression without parts. -/
  | literal
  /-- A statement without parts. -/
  | simpleStmt
  | otherExpr
  | otherStmt
  | group
deriving DecidableEq, Repr

def Construct.ofKind : String → Construct
  | "compound_statement" => .block
  | "expression_statement" => .exprStmt
  | "declaration" => .declaration
  | "return_statement" => .returnStmt
  | "throw_statement" => .throwStmt
  | "if_statement" => .branch
  | "switch_statement" => .switch
  | "case_statement" => .caseLabel
  | "while_statement" => .loop .testFirst
  | "do_statement" => .loop .testLast
  | "for_statement" => .loop .counted
  | "for_range_loop" => .loop .ranged
  | "else_clause" => .elseClause
  | "field_expression" => .member
  | "assignment_expression" => .assign
  | "binary_expression" => .binary
  | "conditional_expression" => .conditional
  | "comma_expression" => .comma
  | "compound_literal_expression" => .braced
  | "update_expression" => .step
  | "unary_expression" | "pointer_expression" => .unary
  | "parenthesized_expression" => .paren
  | "call_expression" => .call
  | "subscript_expression" => .subscript
  | "lambda_expression" => .lambda
  | "identifier" | "qualified_identifier" => .identifier
  | "this" => .this
  | "string_literal" | "raw_string_literal" | "concatenated_string" | "char_literal"
  | "number_literal" | "true" | "false" | "null" | "nullptr" | "user_defined_literal" => .literal
  | "break_statement" | "continue_statement" | "goto_statement" | "type_definition"
  | "alias_declaration" | "using_declaration" | "static_assert_declaration" => .simpleStmt
  | kind =>
    if Text.endsWith kind.toList "_expression".toList then .otherExpr
    else if Text.endsWith kind.toList "_statement".toList then .otherStmt
    else .group

def parameterKinds : List String :=
  ["parameter_declaration", "optional_parameter_declaration"]

def Declared.bind? (d : Declared) (init : Option Code) (span : Span) : Option Binding :=
  d.name.map fun name => ⟨⟨name, d.type, init.isSome, span⟩, init⟩

/-- The parts of a member access: whether `->` stands between the object and the
field, and the field's name. -/
def memberParts (source : List Char) (cs : List ParseTree) : Option (Bool × String) := do
  let object ← field? "argument" cs
  let field ← field? "field" cs
  let between := Text.slice source ⟨object.span.stop, field.span.start⟩
  return (Text.occursIn ['-', '>'] between, text source field)

def assignOperator (source : List Char) (cs : List ParseTree) : Option CompoundOp :=
  (field? "operator" cs).bind fun token => CompoundOp.ofToken? (text source token)

def binaryOperator (source : List Char) (cs : List ParseTree) : String :=
  ((field? "operator" cs).map (text source)).getD ""

def stepParts (source : List Char) (cs : List ParseTree) : Option (StepOp × Fixity) := do
  let token ← field? "operator" cs
  let operand ← field? "argument" cs
  return (if text source token == "--" then .decrement else .increment,
    if token.span.start < operand.span.start then .pre else .post)

def unaryOperator (source : List Char) (cs : List ParseTree) : Option UnaryOp := do
  let token ← field? "operator" cs
  let op ← UnaryOp.ofToken? (text source token)
  guard (hasField "argument" cs)
  return op

def loopElement (source : List Char) (span : Span) (cs : List ParseTree) : Option Var :=
  let d := declaredBy source cs (field? "declarator" cs)
  d.name.map fun name => ⟨name, d.type, false, span⟩

namespace Code

mutual

def read (source : List Char) (role : Role) : ParseTree → Code
  | .node i cs =>
    let make (shape : Shape) (parts : List Code) : Code := .node ⟨role, shape, i.span⟩ parts
    let required (role : Role) (field : String) : Code :=
      (readField source role field cs).getD (.node ⟨role, .group, .point i.span.stop⟩ [])
    match Construct.ofKind i.kind with
    | .block => make .block (readItems source .item cs)
    | .exprStmt => make .exprStmt (readFirst source .item cs).toList
    | .declaration =>
      let own := readField source .initializer "value" cs
      let bindings :=
        if hasField "declarator" cs then
          readDeclarators source (specifierType source cs) own cs
        else if own.isSome then
          [⟨⟨"", specifierType source cs, true, i.span⟩, own⟩]
        else
          []
      make (.declaration (Binding.vars bindings)) (Binding.inits bindings)
    | .returnStmt => make .returnStmt (readFirst source .item cs).toList
    | .throwStmt => make .throwStmt (readFirst source .item cs).toList
    | .branch =>
      make .branch (required .condition "condition" :: required .consequence "consequence" ::
        (readField source .alternative "alternative" cs).toList)
    | .switch =>
      make .switch [required .condition "condition", required .body "body"]
    | .caseLabel =>
      make .caseLabel ((readField source .value "value" cs).toList ++
        readOthers source .body "value" cs)
    | .loop kind =>
      let body := required .body "body"
      match kind with
      | .ranged =>
        make (.loop .ranged (loopElement source i.span cs))
          ((readField source .init "initializer" cs).toList ++
            (readField source .range "right" cs).toList ++ [body])
      | .counted =>
        make (.loop .counted none)
          ((readField source .init "initializer" cs).toList ++
            (readField source .condition "condition" cs).toList ++
            (readField source .update "update" cs).toList ++ [body])
      | .testFirst | .testLast =>
        make (.loop kind none) ((readField source .condition "condition" cs).toList ++ [body])
    | .elseClause => (readFirst source role cs).getD (make .group [])
    | .member =>
      match memberParts source cs with
      | some (isArrow, field) =>
        make (.member isArrow field) (readField source .item "argument" cs).toList
      | none => make .otherExpr (readItems source .item cs)
    | .assign =>
      make (.assign (assignOperator source cs))
        [required .left "left", required .right "right"]
    | .binary =>
      make (.binary (binaryOperator source cs))
        [required .left "left", required .right "right"]
    | .conditional =>
      make .conditional
        (required .condition "condition" ::
          (readField source .consequence "consequence" cs).toList ++
          [required .alternative "alternative"])
    | .comma =>
      make .comma [required .left "left", required .right "right"]
    | .braced =>
      match field? "type" cs with
      | some type =>
        make .call (.node ⟨.item, .identifier (text source type), type.span⟩ [] ::
          readFieldItems source .item "value" cs)
      | none => make .otherExpr (readItems source .item cs)
    | .step =>
      match stepParts source cs with
      | some (op, fixity) => make (.step op fixity) (readField source .item "argument" cs).toList
      | none => make .otherExpr (readItems source .item cs)
    | .unary =>
      match unaryOperator source cs with
      | some op => make (.unary op) (readField source .item "argument" cs).toList
      | none => make .otherExpr (readItems source .item cs)
    | .paren =>
      match readFirst source .item cs with
      | some inner => make .paren [inner]
      | none => make .otherExpr []
    | .call =>
      make .call (required .item "function" ::
        readFieldItems source .item "arguments" cs)
    | .subscript =>
      match readField source .item "argument" cs with
      | some base => make .subscript (base :: readIndices source "argument" cs)
      | none => make .otherExpr (readItems source .item cs)
    | .lambda =>
      let params := readSignature source cs
      make (.lambda (Binding.vars params))
        (Binding.inits params ++ (readField source .body "body" cs).toList)
    | .identifier => make (.identifier (Text.sliceString source i.span)) []
    | .this => make .this []
    | .literal => make .otherExpr []
    | .simpleStmt => make .otherStmt []
    | .otherExpr => make .otherExpr (readItems source .item cs)
    | .otherStmt => make .otherStmt (readItems source .item cs)
    | .group => make .group (readItems source .item cs)

def readItems (source : List Char) (role : Role) : List ParseTree → List Code
  | [] => []
  | c :: cs =>
    if isItem c then read source role c :: readItems source role cs else readItems source role cs

def readFirst (source : List Char) (role : Role) : List ParseTree → Option Code
  | [] => none
  | c :: cs => if isItem c then some (read source role c) else readFirst source role cs

def readField (source : List Char) (role : Role) (field : String) : List ParseTree → Option Code
  | [] => none
  | c :: cs =>
    if fills field c then some (read source role c) else readField source role field cs

def readFieldItems (source : List Char) (role : Role) (field : String) :
    List ParseTree → List Code
  | [] => []
  | .node i ks :: cs =>
    if fills field (.node i ks) then readItems source role ks
    else readFieldItems source role field cs

def readOthers (source : List Char) (role : Role) (field : String) : List ParseTree → List Code
  | [] => []
  | c :: cs =>
    if fills field c then readItems source role cs
    else if isItem c then read source role c :: readOthers source role field cs
    else readOthers source role field cs

/-- Indices of a subscript: every item other than the child that fills a field,
with argument lists opened. -/
def readIndices (source : List Char) (field : String) : List ParseTree → List Code
  | [] => []
  | .node i ks :: cs =>
    if fills field (.node i ks) then readIndexItems source cs
    else if !isItem (.node i ks) then readIndices source field cs
    else if i.kind == "subscript_argument_list" then
      readItems source .item ks ++ readIndices source field cs
    else
      read source .item (.node i ks) :: readIndices source field cs

def readIndexItems (source : List Char) : List ParseTree → List Code
  | [] => []
  | .node i ks :: cs =>
    if !isItem (.node i ks) then readIndexItems source cs
    else if i.kind == "subscript_argument_list" then
      readItems source .item ks ++ readIndexItems source cs
    else
      read source .item (.node i ks) :: readIndexItems source cs

/-- The value a declarator gives to what it declares: that of its innermost
initializer, or `own` when it has no initializer. -/
def readValue (source : List Char) (own : Option Code) : ParseTree → Option Code
  | .node i cs =>
    match DeclaratorStep.ofKind i.kind with
    | .initialized => readInnerValue source (readField source .initializer "value" cs) cs
    | .pointer | .array => readInnerValue source own cs
    | .reference | .parenthesized | .attributed => readFirstValue source own cs
    | .function | .name => own

def readInnerValue (source : List Char) (own : Option Code) : List ParseTree → Option Code
  | [] => own
  | c :: cs =>
    if fills "declarator" c then readValue source own c else readInnerValue source own cs

def readFirstValue (source : List Char) (own : Option Code) : List ParseTree → Option Code
  | [] => own
  | c :: cs => if isItem c then readValue source own c else readFirstValue source own cs

/-- The variables that the declarators among the children introduce. Function
declarators and declarators without a name are passed over. -/
def readDeclarators (source : List Char) (specifier : TypeRef) (own : Option Code) :
    List ParseTree → List Binding
  | [] => []
  | c :: cs =>
    let rest := readDeclarators source specifier own cs
    if fills "declarator" c && !isFunctionDeclarator c then
      ((declared source specifier c).bind? (readValue source own c) c.span).toList ++ rest
    else
      rest

def readParams (source : List Char) : List ParseTree → List Binding
  | [] => []
  | .node i ks :: cs =>
    if parameterKinds.contains i.kind && isItem (.node i ks) then
      ((declaredBy source ks (field? "declarator" ks)).bind?
        (readField source .initializer "default_value" ks) i.span).toList ++ readParams source cs
    else
      readParams source cs

def readParamsField (source : List Char) : List ParseTree → List Binding
  | [] => []
  | .node i ks :: cs =>
    if fills "parameters" (.node i ks) then readParams source ks else readParamsField source cs

def readSignature (source : List Char) : List ParseTree → List Binding
  | [] => []
  | .node i ks :: cs =>
    if fills "declarator" (.node i ks) then readParamsField source ks
    else readSignature source cs

end

end Code

end Encapsulate.Cpp
