import Encapsulate.Cpp.Code.Basic

/-!
How one usage of a target is rewritten. A read becomes a call of the getter. A
write becomes a call of the setter: in place when its value is not used, and
otherwise as a helper statement before or after the enclosing statement, with a
call of the getter left behind. Where no helper statement may stand, the usage is
left alone and the reason is reported.
-/

namespace Encapsulate.Accessors

open Cpp

/-- What a usage does to the field. -/
inductive Operation where
  | read
  | assign
  | compound (op : CompoundOp)
  | step (op : StepOp) (fixity : Fixity)
deriving DecidableEq, Repr

namespace Operation

def ofAssign : Option CompoundOp → Operation
  | none => .assign
  | some op => .compound op

def duplicatesBase : Operation → Bool
  | .read | .assign => false
  | .compound _ | .step .. => true

def describe : Operation → String
  | .read => "read"
  | .assign => "assignment"
  | .compound _ => "compound assignment"
  | .step .increment _ => "increment"
  | .step .decrement _ => "decrement"

end Operation

/-- Places where the value of a write is used but no statement can be inserted. -/
inductive FixedPlace where
  | conditionalOperand
  | commaOperand
  | caseLabel
  | loopUpdate
  | loopCondition
  | loop
  | otherStatement
deriving DecidableEq, Repr

def FixedPlace.describe : FixedPlace → String
  | .conditionalOperand => "a conditionally evaluated operand"
  | .commaOperand => "a comma operand"
  | .caseLabel => "a case label"
  | .loopUpdate => "a loop update"
  | .loopCondition => "a loop condition"
  | .loop => "a loop"
  | .otherStatement => "this statement"

/-- Where a usage stands in the statement that encloses it. -/
inductive Position where
  /-- The usage is the whole statement, or a clause whose value is not used. -/
  | whole
  /-- Statements may be inserted before the enclosing one, and perhaps after it. -/
  | inside (afterAllowed : Bool)
  | fixed (place : FixedPlace)
deriving DecidableEq, Repr

/-- Why a usage is not rewritten. -/
inductive Refusal where
  | noStatement
  | fixed (place : FixedPlace)
  | oldValueUsed
deriving DecidableEq, Repr

def Refusal.message : Refusal → String
  | .noStatement => "no enclosing statement"
  | .fixed place =>
    "its value is used in " ++ place.describe ++ ", where no statement can be inserted"
  | .oldValueUsed => "the old value is used but no statement can follow the enclosing statement"

/-- The side of the enclosing statement on which a helper statement stands. -/
inductive Side where
  | before
  | after
deriving DecidableEq, Repr

inductive Strategy where
  | inPlace
  | hoist (side : Side)
  | refuse (reason : Refusal)
deriving DecidableEq, Repr

def Strategy.choose (operation : Operation) (position : Option Position) : Strategy :=
  match operation, position with
  | .read, _ => .inPlace
  | _, none => .refuse .noStatement
  | _, some .whole => .inPlace
  | _, some (.fixed place) => .refuse (.fixed place)
  | .step _ .post, some (.inside false) => .refuse .oldValueUsed
  | .step _ .post, some (.inside true) => .hoist .after
  | _, some (.inside _) => .hoist .before

/-- The right-hand side of an assignment as it is to be written. -/
structure Operand where
  text : String
  /-- Whether it binds at least as tightly as any binary operator. -/
  isPrimary : Bool

/-- The texts that replace a usage. -/
structure Accesses where
  getter : String
  /-- The setter call, for an operation that writes. -/
  setter : Option String

def Accesses.of (base : String) (isArrow : Bool) (field : String) (operation : Operation)
    (operand : Option Operand) : Accesses :=
  let object := base ++ (if isArrow then "->" else ".")
  let getter := object ++ Name.getter field ++ "()"
  let setter (value : String) := object ++ Name.setter field ++ "( " ++ value ++ " )"
  let given := (operand.map Operand.text).getD ""
  ⟨getter, match operation with
    | .read => none
    | .assign => some (setter given)
    | .compound op =>
      let isPrimary := (operand.map Operand.isPrimary).getD true
      some (setter (getter ++ " " ++ op.symbol ++ " "
        ++ (if isPrimary then given else "(" ++ given ++ ")")))
    | .step op _ => some (setter (getter ++ " " ++ op.symbol ++ " 1"))⟩

/-- What replaces a usage, and the helper statement that goes with it. -/
structure Plan where
  replacement : String
  helper : Option (Side × String)
deriving DecidableEq, Repr

def Plan.make (calls : Accesses) (strategy : Strategy) : Plan :=
  match calls.setter, strategy with
  | none, _ => ⟨calls.getter, none⟩
  | some setter, .hoist side => ⟨calls.getter, some (side, setter)⟩
  | some setter, _ => ⟨setter, none⟩

end Encapsulate.Accessors
