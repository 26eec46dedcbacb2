import Encapsulate.Accessors.Boundary
import Encapsulate.Accessors.Target
import Encapsulate.Cpp.Typing
import Encapsulate.Edit

/-!
The search for usages of targets in function bodies. Each body is visited once
from the top down with the list of ancestors at hand, while the names in force
are kept up to date. A usage found on the way is replaced; the texts of its
object and right-hand side are rendered first, with the usages inside them
already replaced. Edits that reach out of a rendered part, such as helper
statements, are handed on to the enclosing queue.
-/

namespace Encapsulate.Accessors

open Cpp

/-- Counters of one run. -/
structure Stats where
  targets : Nat := 0
  reads : Nat := 0
  writes : Nat := 0
  hoisted : Nat := 0
  unsupported : Nat := 0
  escapes : Nat := 0
  /-- Members named like a target on an object of unknown type. -/
  unresolved : Nat := 0
  accessorsInserted : Nat := 0
deriving DecidableEq, Repr

/-- What stays fixed during a search. -/
structure Setting where
  file : SourceFile
  symbols : Symbols
  targets : List Target

/-- What a search has come to so far. -/
structure Scan where
  env : Env := {}
  queue : EditQueue := []
  diagnostics : List Diagnostic := []
  stats : Stats := {}
  /-- Texts that close the blocks put around open statements, by the number of
  ancestors of the statement. -/
  closings : List (Nat × String) := []

/-- A member access that reaches a target. -/
structure Usage where
  target : Target
  isArrow : Bool
  /-- The object expression. -/
  base : Code

/-- The usage that a node inside parentheses is, if it reaches a target. -/
def usage? (setting : Setting) (env : Env) (c : Code) : Option Usage :=
  match c.unparen with
  | .node i cs =>
    match i.shape, cs with
    | .member isArrow _, base :: _ =>
      (env.resolveMember setting.symbols (.node i cs)).bind fun field =>
        (setting.targets.find? (·.qualifiedName == field.qualifiedName)).map fun target =>
          ⟨target, isArrow, base⟩
    | _, _ => none

def hasSideEffect (n : CodeNode) : Bool :=
  match n.shape with
  | .assign _ | .step .. | .call => true
  | _ => false

def isPrimary (c : Code) : Bool :=
  match c.shape with
  | .binary _ | .assign _ | .conditional | .comma | .lambda _ => false
  | .otherExpr => c.children.isEmpty
  | shape => shape.sort == .expression

namespace Scan

def push (s : Scan) (e : Edit) : Scan :=
  { s with queue := s.queue ++ [e] }

def report (s : Scan) (setting : Setting) (severity : Severity) (offset : Nat)
    (message : String) : Scan :=
  let d := Diagnostic.locate severity setting.file.path setting.file.source offset message
  { s with diagnostics := s.diagnostics ++ [d] }

def pushScope (s : Scan) : Scan :=
  { s with env := s.env.pushScope }

def popScope (s : Scan) : Scan :=
  { s with env := s.env.popScope }

def declare (s : Scan) (setting : Setting) (v : Var) (initClass : Option String) : Scan :=
  { s with env := s.env.declare setting.symbols v.name v.type initClass }

def declareAll (s : Scan) (setting : Setting) (vs : List Var) : Scan :=
  vs.foldl (fun s v => s.declare setting v none) s

/-- Ends the block around a statement with the given number of ancestors, if one
was opened. -/
def close (s : Scan) (depth stop : Nat) : Scan :=
  match s.closings.lookup depth with
  | some text =>
    { s.push (.insertAfter stop text) with closings := s.closings.filter (·.1 != depth) }
  | none => s

/-- Opens a block around the boundary statement, once. -/
def openBlock (s : Scan) (b : Boundary) : Scan :=
  if b.needsBlock && (s.closings.lookup b.depth).isNone then
    { s.push (.insertBefore b.span.start ("\x7b\n" ++ b.indent)) with
      closings := (b.depth, "\n" ++ b.indent ++ "\x7d") :: s.closings }
  else
    s

def hoist (s : Scan) (b : Boundary) (side : Side) (text : String) : Scan :=
  let s := s.openBlock b
  let s := match side with
    | .before => s.push (.insertBefore b.span.start (text ++ ";\n" ++ b.indent))
    | .after => s.push (.insertAfter b.span.stop ("\n" ++ b.indent ++ text ++ ";"))
  { s with stats := { s.stats with hoisted := s.stats.hoisted + 1 } }

def reportUnresolved (s : Scan) (setting : Setting) (span : Span) (field : String)
    (objectClass : Option String) : Scan :=
  match setting.targets.find? (·.name == field), objectClass with
  | some target, none =>
    let s := s.report setting .warning span.start
      ("cannot resolve the object type in '" ++ setting.file.text span
        ++ "'; a usage of '" ++ target.qualifiedName ++ "' may be left unchanged")
    { s with stats := { s.stats with unresolved := s.stats.unresolved + 1 } }
  | _, _ => s

def reportEscape (s : Scan) (setting : Setting) (offset : Nat) (target : Target)
    (how : String) : Scan :=
  let s := s.report setting .warning offset
    ("'" ++ target.qualifiedName ++ "' escapes the accessors: " ++ how ++ "; left unchanged")
  { s with stats := { s.stats with escapes := s.stats.escapes + 1 } }

def reportRefusal (s : Scan) (setting : Setting) (offset : Nat) (target : Target)
    (operation : Operation) (reason : Refusal) : Scan :=
  let s := s.report setting .warning offset
    ("cannot rewrite " ++ operation.describe ++ " of '" ++ target.qualifiedName ++ "': "
      ++ reason.message)
  { s with stats := { s.stats with unsupported := s.stats.unsupported + 1 } }

/-- An object expression that the rewritten form evaluates twice is noted if that
may matter. -/
def noteDuplicate (s : Scan) (setting : Setting) (offset : Nat) (u : Usage)
    (operation : Operation) : Scan :=
  if operation.duplicatesBase && u.base.any hasSideEffect then
    s.report setting .note offset
      ("base expression of '" ++ u.target.qualifiedName
        ++ "' has side effects and is evaluated twice after the rewrite")
  else
    s

def count (s : Scan) (operation : Operation) : Scan :=
  match operation with
  | .read => { s with stats := { s.stats with reads := s.stats.reads + 1 } }
  | _ => { s with stats := { s.stats with writes := s.stats.writes + 1 } }

/-- The text of a span after `visit` has queued the edits inside it. Edits that do
not belong inside the span are handed on. -/
def render (s : Scan) (setting : Setting) (span : Span) (visit : Scan → Scan) : Scan × String :=
  let visited := visit { s with queue := [] }
  let (inner, forwarded) := visited.queue.partition span
  let s := { visited with queue := s.queue ++ forwarded }
  let text := Text.slice setting.file.source span
  match inner.apply text span.start with
  | .ok rendered => (s, String.ofList rendered)
  | .error e =>
    (s.report setting .warning span.start ("nested rewrites could not be combined: " ++ e.message),
      String.ofList text)

/-- The right-hand side of an assignment and the way to visit it. -/
structure RightSide where
  code : Code
  visit : Scan → Scan

def visitRight (s : Scan) : Option RightSide → Scan
  | none => s
  | some right => right.visit s

def renderRight (s : Scan) (setting : Setting) : Option RightSide → Scan × Option Operand
  | none => (s, none)
  | some right =>
    let (s, text) := s.render setting right.code.span right.visit
    (s, some ⟨text, isPrimary right.code⟩)

/-- Queues the edits of a plan for `site`. Parentheses around a usage that leaves a
helper statement go with it. -/
def apply (s : Scan) (site : CodeNode) (ancestors : List CodeNode) (operation : Operation)
    (b : Option Boundary) (plan : Plan) : Scan :=
  match plan.helper, b with
  | some (side, text), some b =>
    ((s.push (.replace (parenthesizedSpan site ancestors) plan.replacement)).count operation).hoist
      b side text
  | some _, none =>
    (s.push (.replace (parenthesizedSpan site ancestors) plan.replacement)).count operation
  | none, _ => (s.push (.replace site.span plan.replacement)).count operation

def rewriteSite (s : Scan) (setting : Setting) (site : CodeNode) (ancestors : List CodeNode)
    (u : Usage) (operation : Operation) (visitBase : Scan → Scan) (right : Option RightSide) :
    Scan :=
  let b := match operation with
    | .read => none
    | _ => boundary setting.file.source site ancestors
  match Strategy.choose operation (b.map Boundary.position) with
  | .refuse reason =>
    (visitBase (s.reportRefusal setting site.span.start u.target operation reason)).visitRight
      right
  | strategy =>
    let s := s.noteDuplicate setting site.span.start u operation
    let (s, base) := s.render setting u.base.span visitBase
    let (s, operand) := s.renderRight setting right
    let calls := Accesses.of base u.isArrow u.target.name operation operand
    s.apply site ancestors operation b (Plan.make calls strategy)

end Scan

mutual

def visit (setting : Setting) (ancestors : List CodeNode) : Code → Scan → Scan
  | .node i cs, s =>
    let s := match i.shape with
      | .assign op => visitAssign setting ancestors i op cs s
      | .step op fixity => visitStep setting ancestors i op fixity cs s
      | .unary .addressOf => visitAddressOf setting ancestors i cs s
      | .member _ field =>
        match usage? setting s.env (.node i cs) with
        | some u =>
          s.rewriteSite setting i ancestors u .read (visitAll setting (i :: ancestors) cs) none
        | none =>
          visitAll setting (i :: ancestors) cs
            (s.reportUnresolved setting i.span field (s.env.classOfFirst setting.symbols cs))
      | .lambda params => (visitParams setting (i :: ancestors) params cs s.pushScope).popScope
      | .declaration vars => visitVars setting (i :: ancestors) vars cs s
      | .loop _ element => (visitLoop setting (i :: ancestors) element none cs s.pushScope).popScope
      | .block | .branch | .switch => (visitAll setting (i :: ancestors) cs s.pushScope).popScope
      | _ => visitAll setting (i :: ancestors) cs s
    match i.shape.sort with
    | .statement => s.close ancestors.length i.span.stop
    | _ => s

def visitAll (setting : Setting) (ancestors : List CodeNode) : List Code → Scan → Scan
  | [], s => s
  | c :: cs, s => visitAll setting ancestors cs (visit setting ancestors c s)

/-- Visits the object of the member access inside parentheses, not the access. -/
def visitBase (setting : Setting) (ancestors : List CodeNode) : Code → Scan → Scan
  | .node i cs, s =>
    match i.shape with
    | .paren => visitBaseFirst setting (i :: ancestors) cs s
    | .member .. => visitAll setting (i :: ancestors) cs s
    | _ => s

def visitBaseFirst (setting : Setting) (ancestors : List CodeNode) : List Code → Scan → Scan
  | [], s => s
  | c :: _, s => visitBase setting ancestors c s

def visitAssign (setting : Setting) (ancestors : List CodeNode) (site : CodeNode)
    (op : Option CompoundOp) : List Code → Scan → Scan
  | left :: right :: rest, s =>
    match usage? setting s.env left with
    | some u =>
      s.rewriteSite setting site ancestors u (.ofAssign op)
        (visitBase setting (site :: ancestors) left)
        (some ⟨right, visit setting (site :: ancestors) right⟩)
    | none =>
      visitAll setting (site :: ancestors) rest
        (visit setting (site :: ancestors) right (visit setting (site :: ancestors) left s))
  | [left], s => visit setting (site :: ancestors) left s
  | [], s => s

def visitStep (setting : Setting) (ancestors : List CodeNode) (site : CodeNode) (op : StepOp)
    (fixity : Fixity) : List Code → Scan → Scan
  | [], s => s
  | operand :: rest, s =>
    match usage? setting s.env operand with
    | some u =>
      s.rewriteSite setting site ancestors u (.step op fixity)
        (visitBase setting (site :: ancestors) operand) none
    | none =>
      visitAll setting (site :: ancestors) rest (visit setting (site :: ancestors) operand s)

def visitAddressOf (setting : Setting) (ancestors : List CodeNode) (site : CodeNode) :
    List Code → Scan → Scan
  | [], s => s
  | operand :: rest, s =>
    match usage? setting s.env operand with
    | some u =>
      visitBase setting (site :: ancestors) operand
        (s.reportEscape setting site.span.start u.target "its address is taken")
    | none =>
      visitAll setting (site :: ancestors) rest (visit setting (site :: ancestors) operand s)

/-- Visits the initializers of parameters and then the body, declaring each
parameter after its initializer. -/
def visitParams (setting : Setting) (ancestors : List CodeNode) (params : List Var) :
    List Code → Scan → Scan
  | [], s => s.declareAll setting params
  | c :: cs, s =>
    let s := s.declareAll setting (params.takeWhile (!·.isInitialized))
    match params.dropWhile (!·.isInitialized) with
    | v :: later =>
      visitParams setting ancestors later cs
        ((visit setting ancestors c s).declare setting v none)
    | [] => visitAll setting ancestors cs (visit setting ancestors c s)

/-- Visits the initializers of a declaration, declaring each variable after its
own. A target bound to a reference that could change it escapes. -/
def visitVars (setting : Setting) (ancestors : List CodeNode) (vars : List Var) :
    List Code → Scan → Scan
  | [], s => s.declareAll setting vars
  | c :: cs, s =>
    let s := s.declareAll setting (vars.takeWhile (!·.isInitialized))
    match vars.dropWhile (!·.isInitialized) with
    | v :: later =>
      let initClass := s.env.classOf setting.symbols c
      let s := match usage? setting s.env c with
        | some u =>
          if v.type.isMutableReference then
            visitBase setting ancestors c (s.reportEscape setting c.span.start u.target
              "it is bound to a non-const reference")
          else
            visit setting ancestors c s
        | none => visit setting ancestors c s
      visitVars setting ancestors later cs (s.declare setting v initClass)
    | [] => visitAll setting ancestors cs (visit setting ancestors c s)

/-- Visits the header of a loop and then its body, declaring the element of a
range in between. -/
def visitLoop (setting : Setting) (ancestors : List CodeNode) (element : Option Var)
    (range : Option Code) : List Code → Scan → Scan
  | [], s => s
  | c :: cs, s =>
    match c.info.role with
    | .body =>
      let s := match element with
        | some v => s.declare setting v (range.bind (s.env.elementClass setting.symbols))
        | none => s
      visitAll setting ancestors cs (visit setting ancestors c s)
    | .range => visitLoop setting ancestors element (some c) cs (visit setting ancestors c s)
    | _ => visitLoop setting ancestors element range cs (visit setting ancestors c s)

end

def scanFunction (setting : Setting) (s : Scan) (f : Function) : Scan :=
  match f.body with
  | none => s
  | some body => visit setting [] body { s with env := Env.enter setting.symbols f }

def scan (setting : Setting) (fs : List Function) : Scan :=
  fs.foldl (scanFunction setting) {}

end Encapsulate.Accessors
