import Encapsulate.Cpp.TypeRef
import Encapsulate.Span
import Encapsulate.Tree

/-!
Statements and expressions. Code is a tree: each node has a shape that says what
construct it is, its span, and the role it plays in its parent. What a shape does
not distinguish is kept as a node of a catch-all shape, so that spans and nesting
stay complete. The children of a node stand in source order, but the condition of
a loop always stands before its body, also where the body is written first. The
initializers of a declaration or a lambda's parameters are the children of the node
that declares them, one for each variable marked as initialized.
-/

namespace Encapsulate.Cpp

/-- A variable or parameter. -/
structure Var where
  name : String
  type : TypeRef
  isInitialized : Bool
  span : Span
deriving DecidableEq, Repr

/-- Operators of compound assignments. -/
inductive CompoundOp where
  | add | sub | mul | div | rem | shl | shr | bitAnd | bitOr | bitXor
deriving DecidableEq, Repr

namespace CompoundOp

def ofToken? : String → Option CompoundOp
  | "+=" => some .add
  | "-=" => some .sub
  | "*=" => some .mul
  | "/=" => some .div
  | "%=" => some .rem
  | "<<=" => some .shl
  | ">>=" => some .shr
  | "&=" | "and_eq" => some .bitAnd
  | "|=" | "or_eq" => some .bitOr
  | "^=" | "xor_eq" => some .bitXor
  | _ => none

def symbol : CompoundOp → String
  | .add => "+"
  | .sub => "-"
  | .mul => "*"
  | .div => "/"
  | .rem => "%"
  | .shl => "<<"
  | .shr => ">>"
  | .bitAnd => "&"
  | .bitOr => "|"
  | .bitXor => "^"

end CompoundOp

inductive StepOp where
  | increment
  | decrement
deriving DecidableEq, Repr

def StepOp.symbol : StepOp → String
  | .increment => "+"
  | .decrement => "-"

/-- Whether `++` or `--` stands before or after its operand. -/
inductive Fixity where
  | pre
  | post
deriving DecidableEq, Repr

inductive UnaryOp where
  | addressOf | deref | minus | plus | not | bitNot
deriving DecidableEq, Repr

def UnaryOp.ofToken? : String → Option UnaryOp
  | "&" => some .addressOf
  | "*" => some .deref
  | "-" => some .minus
  | "+" => some .plus
  | "!" | "not" => some .not
  | "~" | "compl" => some .bitNot
  | _ => none

/-- Whether a loop tests before or after its body, counts, or runs over a range. -/
inductive LoopKind where
  | testFirst | testLast | counted | ranged
deriving DecidableEq, Repr

/-- The place of a node in its parent, as far as it matters. -/
inductive Role where
  | left | right
  | condition | consequence | alternative
  | init | update | range
  | body
  | value
  | initializer
  | item
deriving DecidableEq, Repr

/-- What construct a node is. -/
inductive Shape where
  /-- `base.field` or `base->field`. -/
  | member (isArrow : Bool) (field : String)
  /-- Plain or compound assignment of `right` to `left`. -/
  | assign (op : Option CompoundOp)
  | binary (op : String)
  /-- `condition ? consequence : alternative`, where the consequence may be left out. -/
  | conditional
  | comma
  | step (op : StepOp) (fixity : Fixity)
  | unary (op : UnaryOp)
  | paren
  /-- The callee, then the arguments. -/
  | call
  /-- The base, then the indices. -/
  | subscript
  | lambda (params : List Var)
  | identifier (name : String)
  | this
  | otherExpr
  | block
  | exprStmt
  | declaration (vars : List Var)
  | returnStmt
  | throwStmt
  /-- `condition`, `consequence` and perhaps `alternative`. -/
  | branch
  /-- `condition` and `body`. -/
  | switch
  /-- A label with its `value`, unless it is the default, and the statements it owns. -/
  | caseLabel
  /-- The clauses of the header, then the body; `element` is what a range is bound to. -/
  | loop (kind : LoopKind) (element : Option Var)
  | otherStmt
  /-- Neither expression nor statement: condition clauses, initializer lists, errors. -/
  | group
deriving DecidableEq, Repr

inductive Shape.Sort where
  | expression
  | statement
  | group
deriving DecidableEq, Repr

def Shape.sort : Shape → Shape.Sort
  | .member .. | .assign _ | .binary _ | .conditional | .comma | .step .. | .unary _ | .paren
  | .call | .subscript | .lambda _ | .identifier _ | .this | .otherExpr => .expression
  | .block | .exprStmt | .declaration _ | .returnStmt | .throwStmt | .branch | .switch
  | .caseLabel | .loop .. | .otherStmt => .statement
  | .group => .group

structure CodeNode where
  role : Role
  shape : Shape
  span : Span
deriving DecidableEq, Repr

def CodeNode.isParen (n : CodeNode) : Bool :=
  n.shape == .paren

abbrev Code := Tree CodeNode

/-- A variable with its initializer, if it has one. -/
structure Binding where
  var : Var
  init : Option Code

namespace Binding

def vars (bs : List Binding) : List Var :=
  bs.map var

def inits (bs : List Binding) : List Code :=
  bs.filterMap init

end Binding

namespace Code

def shape (c : Code) : Shape :=
  c.info.shape

def span (c : Code) : Span :=
  c.info.span

def unparen (c : Code) : Code :=
  c.skip CodeNode.isParen

end Code

end Encapsulate.Cpp
