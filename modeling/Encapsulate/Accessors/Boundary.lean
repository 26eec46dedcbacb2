import Encapsulate.Accessors.Plan
import Encapsulate.Text.Line

/-!
The statement that the helper statements of a usage attach to. It is found on the
way up from the usage through its ancestors, given innermost first. Leaving an
operand that is evaluated conditionally or in a fixed order fixes the usage for
good. A declaration in the header of another statement is passed over.
-/

namespace Encapsulate.Accessors

open Cpp

structure Boundary where
  /-- Number of ancestors of the statement, which tells it from the other ancestors
  of the usage. -/
  depth : Nat
  span : Span
  position : Position
  /-- Whether the statement is not directly inside a block or a case label. -/
  needsBlock : Bool
  /-- Leading spaces and tabs of the line on which the statement starts. -/
  indent : String
deriving DecidableEq, Repr

def shortCircuit : List String :=
  ["&&", "||", "and", "or"]

/-- Why nothing can be moved out of the operand `child` of an expression. -/
def sequencedPlace (parent child : CodeNode) : Option FixedPlace :=
  match parent.shape with
  | .conditional =>
    if child.role == .consequence || child.role == .alternative then some .conditionalOperand
    else none
  | .binary op =>
    if child.role == .right && shortCircuit.contains op then some .conditionalOperand else none
  | .comma => some .commaOperand
  | _ => none

def inStatementSlot (stmt : CodeNode) (outer : List CodeNode) : Bool :=
  match outer.head?.map CodeNode.shape with
  | some .block | some .otherStmt => true
  | some .caseLabel | some (.loop ..) | some .switch => stmt.role == .body
  | some .branch => stmt.role == .consequence || stmt.role == .alternative
  | _ => false

def directlyInBlock (stmt : CodeNode) (outer : List CodeNode) : Bool :=
  match outer.head?.map CodeNode.shape with
  | some .block => true
  | some .caseLabel => stmt.role == .body
  | _ => false

/-- The position of a usage in the statement `stmt`, reached through `child`, of
which it is all up to parentheses when `isAll`. None when the way up goes on. -/
def positionIn (stmt child : CodeNode) (isAll : Bool) (outer : List CodeNode) : Option Position :=
  match stmt.shape with
  | .exprStmt => some (if isAll then .whole else .inside true)
  | .declaration _ => if inStatementSlot stmt outer then some (.inside true) else none
  | .returnStmt | .throwStmt | .branch | .switch => some (.inside false)
  | .caseLabel => some (.fixed .caseLabel)
  | .loop .. =>
    match child.role with
    | .init => some (if isAll then .whole else .inside false)
    | .update => some (if isAll then .whole else .fixed .loopUpdate)
    | .range => some (.inside false)
    | .condition => some (.fixed .loopCondition)
    | _ => some (.fixed .loop)
  | _ => some (.fixed .otherStatement)

/-- The boundary reached from `child`, given what fixes the usage so far and
whether it is all of `child` up to parentheses. -/
def boundaryFrom (source : List Char) (fixed : Option FixedPlace) (isAll : Bool)
    (child : CodeNode) : List CodeNode → Option Boundary
  | [] => none
  | parent :: outer =>
    match parent.shape.sort with
    | .expression =>
      boundaryFrom source (fixed.orElse fun _ => sequencedPlace parent child)
        (isAll && parent.isParen) parent outer
    | .group => boundaryFrom source fixed false parent outer
    | .statement =>
      match positionIn parent child isAll outer with
      | none => boundaryFrom source fixed false parent outer
      | some position =>
        some { depth := outer.length
               span := parent.span
               position := (fixed.map Position.fixed).getD position
               needsBlock := !directlyInBlock parent outer
               indent := String.ofList (Text.indentBefore source parent.span.start) }

def boundary (source : List Char) (site : CodeNode) (ancestors : List CodeNode) :
    Option Boundary :=
  boundaryFrom source none true site ancestors

def parenthesizedSpan (node : CodeNode) : List CodeNode → Span
  | [] => node.span
  | parent :: outer => if parent.isParen then parenthesizedSpan parent outer else node.span

end Encapsulate.Accessors
