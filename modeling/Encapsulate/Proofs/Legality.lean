import Encapsulate.Proofs.Actions
import Encapsulate.Proofs.Hoisting

/-!
Which writes are rewritten, and how. The way up from a write to its boundary decides: a
write is refused where there is no boundary, where the way leaves an operand that is
guarded, or where the boundary gives a helper statement no place. Any other write becomes a
call of the setter in place if it is all of a statement or clause, and otherwise a helper
statement beside its boundary. A search reports each refused write once and no other.
-/

namespace Encapsulate.Accessors

open Cpp Encapsulate.Tree

/-- Whether leaving `child` leaves an operand that is not always evaluated, or evaluated in
a fixed order: a branch of a conditional, the right operand of a logical operator or an
operand of a comma. -/
def Guarded (child parent : CodeNode) : Prop :=
  match parent.shape with
  | .conditional => child.role = .consequence ∨ child.role = .alternative
  | .binary op => op ∈ ["&&", "||", "and", "or"] ∧ child.role = .right
  | .comma => True
  | _ => False

def isControl (stmt : CodeNode) : Bool :=
  match stmt.shape with
  | .returnStmt | .throwStmt | .branch | .switch | .loop .. => true
  | _ => false

def Operation.isPostfix : Operation → Bool
  | .step _ .post => true
  | _ => false

/-- A usage is, up to parentheses, all of the expression statement `stmt` or of a clause of
the loop `stmt` whose value is not used. -/
def WholeOf (site : CodeNode) (passed : List CodeNode) (stmt : CodeNode) : Prop :=
  (∀ n ∈ passed, n.isParen = true) ∧
    (stmt.shape = .exprStmt ∨ (∃ kind element, stmt.shape = .loop kind element) ∧
      ((passed.getLastD site).role = .init ∨ (passed.getLastD site).role = .update))

/-- Why a write is not rewritten although it has the boundary `stmt`, reached by passing
over `passed`. -/
inductive Forbidden (site : CodeNode) (passed : List CodeNode) (stmt : CodeNode)
    (operation : Operation) : Prop where
  /-- A guarded operand is left on the way. -/
  | guarded (inner : List CodeNode) (child parent : CodeNode) (above : List CodeNode)
      (hway : site :: passed = inner ++ child :: parent :: above) (h : Guarded child parent)
  /-- The boundary is a label, a block or a statement of no known kind. -/
  | noPlace (h : stmt.shape = .caseLabel ∨ stmt.shape = .block ∨ stmt.shape = .otherStmt)
  /-- The boundary is a loop, entered neither through its init or its range nor through an
  update that is all the write. -/
  | inLoop (kind : LoopKind) (element : Option Var) (hloop : stmt.shape = .loop kind element)
      (hinit : (passed.getLastD site).role ≠ .init) (hrange : (passed.getLastD site).role ≠ .range)
      (hupdate : ¬ ((passed.getLastD site).role = .update ∧ ∀ n ∈ passed, n.isParen = true))
  /-- The old value is used, and nothing can follow the boundary. -/
  | oldValue (hpost : operation.isPostfix = true) (hwhole : ¬ WholeOf site passed stmt)
      (hstmt : isControl stmt = true)

/-- A write that is not rewritten. -/
inductive Illegal (site : CodeNode) (ancestors : List CodeNode) (operation : Operation) :
    Prop where
  | noBoundary
      (h : ∀ inner n outer, ancestors = inner ++ n :: outer → stopsAt n outer = false)
  | forbidden (passed : List CodeNode) (stmt : CodeNode) (outer : List CodeNode)
      (hway : ancestors = passed ++ stmt :: outer) (hroute : Route passed stmt outer)
      (h : Forbidden site passed stmt operation)

def Whole (site : CodeNode) (ancestors : List CodeNode) : Prop :=
  ∃ passed stmt outer, ancestors = passed ++ stmt :: outer ∧ Route passed stmt outer ∧
    WholeOf site passed stmt

section Boundary

def guardOn (child : CodeNode) : List CodeNode → Option FixedPlace
  | [] => none
  | parent :: above => (sequencedPlace parent child).orElse fun _ => guardOn parent above

theorem isSome_sequencedPlace {child parent : CodeNode} :
    (sequencedPlace parent child).isSome = true ↔ Guarded child parent := by
  unfold sequencedPlace Guarded
  cases parent.shape with
  | conditional => simp [Option.isSome_iff_exists]
  | binary op => simp [Option.isSome_iff_exists, shortCircuit, and_comm]
  | _ => simp

theorem isSome_guardOn {child : CodeNode} {passed : List CodeNode} :
    (guardOn child passed).isSome = true ↔
      ∃ inner c parent above, child :: passed = inner ++ c :: parent :: above ∧
        Guarded c parent := by
  induction passed generalizing child with
  | nil =>
    simp only [guardOn, Option.isSome_none, Bool.false_eq_true, false_iff]
    rintro ⟨inner, c, parent, above, heq, -⟩
    have hlen := congrArg List.length heq
    simp only [List.length_cons, List.length_nil, List.length_append] at hlen
    omega
  | cons parent above ih =>
    rw [guardOn]
    cases hplace : sequencedPlace parent child with
    | some place =>
      have hguarded : Guarded child parent := isSome_sequencedPlace.mp (by rw [hplace]; rfl)
      simp only [Option.orElse_some, Option.isSome_some, true_iff]
      exact ⟨[], child, parent, above, rfl, hguarded⟩
    | none =>
      have hfree : ¬ Guarded child parent := by
        rw [← isSome_sequencedPlace, hplace]
        simp
      rw [Option.orElse_none, ih]
      constructor
      · rintro ⟨inner, c, p, rest, heq, hguarded⟩
        exact ⟨child :: inner, c, p, rest, by rw [heq, List.cons_append], hguarded⟩
      · rintro ⟨inner, c, p, rest, heq, hguarded⟩
        cases inner with
        | nil =>
          obtain ⟨rfl, htail⟩ := List.cons.inj heq
          obtain ⟨rfl, -⟩ := List.cons.inj htail
          exact absurd hguarded hfree
        | cons x inner =>
          obtain ⟨-, htail⟩ := List.cons.inj heq
          exact ⟨inner, c, p, rest, htail, hguarded⟩

/-- A way up either reaches a boundary or passes over everything. -/
theorem exists_route_or (ancestors : List CodeNode) :
    (∀ inner n outer, ancestors = inner ++ n :: outer → stopsAt n outer = false) ∨
      ∃ passed stmt outer, ancestors = passed ++ stmt :: outer ∧ Route passed stmt outer := by
  induction ancestors with
  | nil => exact Or.inl fun inner n outer h => absurd h (by simp)
  | cons parent above ih =>
    cases hstops : stopsAt parent above with
    | true => exact Or.inr ⟨[], parent, above, rfl, hstops, by simp⟩
    | false =>
      rcases ih with hnone | ⟨passed, stmt, outer, rfl, hroute⟩
      · refine Or.inl fun inner n outer heq => ?_
        cases inner with
        | nil =>
          obtain ⟨rfl, rfl⟩ := List.cons.inj heq
          exact hstops
        | cons x inner => exact hnone inner n outer (List.cons.inj heq).2
      · exact Or.inr ⟨parent :: passed, stmt, outer, rfl, hroute.cons hstops⟩

/-- There is at most one boundary. -/
theorem Route.unique {passed passed' outer outer' : List CodeNode} {stmt stmt' : CodeNode}
    (h : Route passed stmt outer) (h' : Route passed' stmt' outer')
    (heq : passed ++ stmt :: outer = passed' ++ stmt' :: outer') :
    passed = passed' ∧ stmt = stmt' ∧ outer = outer' := by
  rcases h.innermost heq h'.stops with ⟨rfl, rfl⟩ | ⟨between, rfl, rfl⟩
  · exact ⟨List.append_cancel_right heq, rfl, rfl⟩
  · have hpass := h'.passes passed stmt between rfl
    rw [h.stops] at hpass
    exact absurd hpass (by simp)

theorem Route.sort {passed outer : List CodeNode} {stmt : CodeNode}
    (h : Route passed stmt outer) : stmt.shape.sort = .statement := by
  by_contra hne
  have hstops := h.stops
  rw [stopsAt_eq_false hne] at hstops
  exact absurd hstops (by simp)

/-- Above a node that stops nothing the way up goes on. -/
theorem boundaryFrom_cons {parent : CodeNode} {outer : List CodeNode}
    (hstops : stopsAt parent outer = false) (source : List Char) (fixed : Option FixedPlace)
    (isAll : Bool) (child : CodeNode) :
    boundaryFrom source fixed isAll child (parent :: outer) =
      boundaryFrom source (fixed.orElse fun _ => sequencedPlace parent child)
        (isAll && parent.isParen) parent outer := by
  have hfree : parent.shape.sort ≠ .expression →
      (fixed.orElse fun _ => sequencedPlace parent child) = fixed := by
    intro hsort
    have hnone : sequencedPlace parent child = none := free_of_not_expression hsort
    cases fixed <;> simp [hnone]
  have hparen : parent.shape.sort ≠ .expression → (isAll && parent.isParen) = false := by
    intro hsort
    have hp : parent.isParen = false := by
      simp only [CodeNode.isParen, beq_eq_false_iff_ne]
      intro hp
      exact hsort (by rw [hp]; rfl)
    rw [hp, Bool.and_false]
  rw [boundaryFrom]
  cases hsort : parent.shape.sort with
  | expression => rfl
  | group => rw [hfree (by simp [hsort]), hparen (by simp [hsort])]
  | statement =>
    have hposition := isSome_positionIn hsort child isAll outer
    rw [hstops] at hposition
    have hnone := Option.isSome_eq_false_iff.mp hposition
    rw [Option.isNone_iff_eq_none] at hnone
    simp only [hnone]
    rw [hfree (by simp [hsort]), hparen (by simp [hsort])]

theorem boundaryFrom_eq_none {ancestors : List CodeNode}
    (h : ∀ inner n outer, ancestors = inner ++ n :: outer → stopsAt n outer = false)
    (source : List Char) (fixed : Option FixedPlace) (isAll : Bool) (child : CodeNode) :
    boundaryFrom source fixed isAll child ancestors = none := by
  induction ancestors generalizing fixed isAll child with
  | nil => rfl
  | cons parent outer ih =>
    rw [boundaryFrom_cons (h [] parent outer rfl)]
    exact ih (fun inner n above heq => h (parent :: inner) n above (by rw [heq]; rfl)) _ _ _

/-- The boundary at the end of a way up, with the position that the way gives. -/
theorem boundaryFrom_of_route {passed outer : List CodeNode} {stmt : CodeNode}
    (hroute : Route passed stmt outer) (source : List Char) (fixed : Option FixedPlace)
    (isAll : Bool) (child : CodeNode) :
    ∃ b position, boundaryFrom source fixed isAll child (passed ++ stmt :: outer) = some b ∧
      b.span = stmt.span ∧
      positionIn stmt (passed.getLastD child) (isAll && passed.all CodeNode.isParen) outer =
        some position ∧
      b.position =
        ((fixed.orElse fun _ => guardOn child passed).map Position.fixed).getD position := by
  induction passed generalizing fixed isAll child with
  | nil =>
    have hsort := hroute.sort
    have hsome := isSome_positionIn hsort child isAll outer
    rw [hroute.stops] at hsome
    obtain ⟨position, hposition⟩ := Option.isSome_iff_exists.mp hsome
    have hfixed : (fixed.orElse fun _ => guardOn child []) = fixed := by cases fixed <;> rfl
    have hb : boundaryFrom source fixed isAll child (stmt :: outer) =
        some { depth := outer.length
               span := stmt.span
               position := (fixed.map Position.fixed).getD position
               needsBlock := !directlyInBlock stmt outer
               indent := String.ofList (Text.indentBefore source stmt.span.start) } := by
      rw [boundaryFrom, hsort]
      simp only [hposition]
    refine ⟨_, position, hb, rfl, ?_, ?_⟩
    · simpa using hposition
    · rw [hfixed]
  | cons parent passed ih =>
    have htail : Route passed stmt outer :=
      ⟨hroute.stops, fun inner n above heq =>
        hroute.passes (parent :: inner) n above (by rw [heq]; rfl)⟩
    have hpass := hroute.passes [] parent passed rfl
    obtain ⟨b, position, hb, hspan, hposition, hat⟩ := ih htail
      (fixed.orElse fun _ => sequencedPlace parent child) (isAll && parent.isParen) parent
    refine ⟨b, position, by rw [List.cons_append, boundaryFrom_cons hpass, hb], hspan, ?_, ?_⟩
    · rw [List.all_cons, ← Bool.and_assoc, List.getLastD_cons]
      exact hposition
    · rw [hat, guardOn]
      cases fixed <;> cases sequencedPlace parent child <;> rfl

end Boundary

section Choice

variable {operation : Operation}

theorem choose_isRefuse_iff (hwrite : operation ≠ .read) (position : Position) :
    (∃ reason, Strategy.choose operation (some position) = .refuse reason) ↔
      (∃ place, position = .fixed place) ∨
        (position = .inside false ∧ operation.isPostfix = true) := by
  cases operation with
  | read => exact absurd rfl hwrite
  | assign | compound op =>
    cases position <;> simp [Strategy.choose, Operation.isPostfix]
  | step op fixity =>
    cases position with
    | whole => cases fixity <;> simp [Strategy.choose]
    | fixed place => cases fixity <;> simp [Strategy.choose]
    | inside afterAllowed =>
      cases fixity <;> cases afterAllowed <;> simp [Strategy.choose, Operation.isPostfix]

theorem choose_eq_inPlace_iff (hwrite : operation ≠ .read) (position : Position) :
    Strategy.choose operation (some position) = .inPlace ↔ position = .whole := by
  cases operation with
  | read => exact absurd rfl hwrite
  | assign | compound op => cases position <;> simp [Strategy.choose]
  | step op fixity =>
    cases position with
    | whole => cases fixity <;> simp [Strategy.choose]
    | fixed place => cases fixity <;> simp [Strategy.choose]
    | inside afterAllowed => cases fixity <;> cases afterAllowed <;> simp [Strategy.choose]

/-- A write that is hoisted goes behind its boundary if it gives the old value, and in
front of it otherwise. -/
theorem choose_eq_hoist_iff (hwrite : operation ≠ .read) (position : Option Position)
    (side : Side) :
    Strategy.choose operation position = .hoist side ↔
      (¬ ∃ reason, Strategy.choose operation position = .refuse reason) ∧
        Strategy.choose operation position ≠ .inPlace ∧
        (side = .after ↔ operation.isPostfix = true) := by
  cases operation with
  | read => exact absurd rfl hwrite
  | assign | compound op =>
    cases position with
    | none => simp [Strategy.choose]
    | some position => cases position <;> cases side <;> simp [Strategy.choose, Operation.isPostfix]
  | step op fixity =>
    cases position with
    | none => simp [Strategy.choose]
    | some position =>
      cases position with
      | whole => cases fixity <;> simp [Strategy.choose]
      | fixed place => cases fixity <;> simp [Strategy.choose]
      | inside afterAllowed =>
        cases fixity <;> cases afterAllowed <;> cases side <;>
          simp [Strategy.choose, Operation.isPostfix]

end Choice

section Position

variable {stmt entry : CodeNode} {outer : List CodeNode} {isAll : Bool} {position : Position}

/-- Where a statement fixes what is inside it. -/
theorem position_fixed_iff (hsort : stmt.shape.sort = .statement)
    (h : positionIn stmt entry isAll outer = some position) :
    (∃ place, position = .fixed place) ↔
      (stmt.shape = .caseLabel ∨ stmt.shape = .block ∨ stmt.shape = .otherStmt) ∨
        (∃ kind element, stmt.shape = .loop kind element) ∧ entry.role ≠ .init ∧
          entry.role ≠ .range ∧ ¬ (entry.role = .update ∧ isAll = true) := by
  unfold positionIn at h
  cases hs : stmt.shape with
  | loop kind element =>
    cases hrole : entry.role <;> cases isAll <;> simp [hs, hrole] at h <;> subst h <;> simp
  | exprStmt => cases isAll <;> simp [hs] at h <;> subst h <;> simp
  | declaration vars =>
    simp only [hs, Option.ite_none_right_eq_some, Option.some.injEq] at h
    simp [← h.2]
  | returnStmt | throwStmt | branch | switch | caseLabel | block | otherStmt =>
    simp only [hs, Option.some.injEq] at h
    simp [← h]
  | _ => simp [hs, Shape.sort] at hsort

/-- Where a usage is a statement or clause of its own. -/
theorem position_whole_iff (h : positionIn stmt entry isAll outer = some position) :
    position = .whole ↔ isAll = true ∧
      (stmt.shape = .exprStmt ∨ (∃ kind element, stmt.shape = .loop kind element) ∧
        (entry.role = .init ∨ entry.role = .update)) := by
  unfold positionIn at h
  cases hs : stmt.shape with
  | loop kind element =>
    cases hrole : entry.role <;> cases isAll <;> simp [hs, hrole] at h <;> subst h <;> simp
  | exprStmt => cases isAll <;> simp [hs] at h <;> subst h <;> simp
  | declaration vars =>
    simp only [hs, Option.ite_none_right_eq_some, Option.some.injEq] at h
    simp [← h.2]
  | _ =>
    simp only [hs, Option.some.injEq] at h
    simp [← h]

/-- Where no statement can follow. -/
theorem position_inside_iff (h : positionIn stmt entry isAll outer = some position) :
    position = .inside false ↔
      isControl stmt = true ∧ (¬ ∃ place, position = .fixed place) ∧ position ≠ .whole := by
  unfold positionIn at h
  unfold isControl
  cases hs : stmt.shape with
  | loop kind element =>
    cases hrole : entry.role <;> cases isAll <;> simp [hs, hrole] at h <;> subst h <;> simp
  | exprStmt => cases isAll <;> simp [hs] at h <;> subst h <;> simp
  | declaration vars =>
    simp only [hs, Option.ite_none_right_eq_some, Option.some.injEq] at h
    simp [← h.2]
  | _ =>
    simp only [hs, Option.some.injEq] at h
    simp [← h]

end Position

section Legality

variable {site stmt : CodeNode} {passed outer ancestors : List CodeNode} {operation : Operation}

theorem strategyAt_of_route (hroute : Route passed stmt outer) (source : List Char)
    (site : CodeNode) (operation : Operation) :
    ∃ position, positionIn stmt (passed.getLastD site) (passed.all CodeNode.isParen) outer =
        some position ∧
      strategyAt source site (passed ++ stmt :: outer) operation =
        Strategy.choose operation (some (((guardOn site passed).map Position.fixed).getD
          position)) := by
  obtain ⟨b, position, hb, -, hposition, hat⟩ :=
    boundaryFrom_of_route hroute source none true site
  refine ⟨position, by simpa using hposition, ?_⟩
  rw [strategyAt, boundary, hb, Option.map_some, hat, Option.orElse_none]

/-- Parentheses guard nothing. -/
theorem guardOn_eq_none_of_parens (h : ∀ n ∈ passed, n.isParen = true) (child : CodeNode) :
    guardOn child passed = none := by
  induction passed generalizing child with
  | nil => rfl
  | cons parent above ih =>
    have hshape : parent.shape = .paren := by
      simpa [CodeNode.isParen] using h parent (List.mem_cons_self ..)
    have hplace : sequencedPlace parent child = none := by simp [sequencedPlace, hshape]
    rw [guardOn, hplace, Option.orElse_none]
    exact ih (fun n hn => h n (List.mem_cons_of_mem _ hn)) parent

theorem inPlace_iff_of_route (hroute : Route passed stmt outer) (source : List Char)
    (hwrite : operation ≠ .read) :
    strategyAt source site (passed ++ stmt :: outer) operation = .inPlace ↔
      WholeOf site passed stmt := by
  obtain ⟨position, hposition, hstrategy⟩ := strategyAt_of_route hroute source site operation
  rw [hstrategy, choose_eq_inPlace_iff hwrite, WholeOf, ← List.all_eq_true]
  cases hguard : guardOn site passed with
  | none => exact position_whole_iff hposition
  | some place =>
    simp only [Option.map_some, Option.getD_some, reduceCtorEq, false_iff, not_and]
    intro hall
    rw [guardOn_eq_none_of_parens (List.all_eq_true.mp hall)] at hguard
    exact absurd hguard (by simp)

theorem refuse_iff_of_route (hroute : Route passed stmt outer) (source : List Char)
    (hwrite : operation ≠ .read) :
    (∃ reason, strategyAt source site (passed ++ stmt :: outer) operation = .refuse reason) ↔
      Forbidden site passed stmt operation := by
  have hwhole : strategyAt source site (passed ++ stmt :: outer) operation = .inPlace ↔
      WholeOf site passed stmt := inPlace_iff_of_route hroute source hwrite
  obtain ⟨position, hposition, hstrategy⟩ := strategyAt_of_route hroute source site operation
  rw [hstrategy] at hwhole ⊢
  rw [choose_isRefuse_iff hwrite]
  cases hguard : guardOn site passed with
  | some place =>
    obtain ⟨inner, child, parent, above, hway, h⟩ := isSome_guardOn.mp (by rw [hguard]; rfl)
    simp only [Option.map_some, Option.getD_some, Position.fixed.injEq, exists_eq', true_or,
      true_iff]
    exact .guarded inner child parent above hway h
  | none =>
    rw [hguard] at hwhole
    simp only [Option.map_none, Option.getD_none] at hwhole ⊢
    rw [choose_eq_inPlace_iff hwrite] at hwhole
    have hfixed := position_fixed_iff hroute.sort hposition
    have hinside := position_inside_iff hposition
    constructor
    · rintro (hplace | ⟨hpos, hpost⟩)
      · rcases hfixed.mp hplace with hshape | ⟨⟨kind, element, hloop⟩, hinit, hrange, hupdate⟩
        · exact .noPlace hshape
        · exact .inLoop kind element hloop hinit hrange (by rwa [List.all_eq_true] at hupdate)
      · obtain ⟨hcontrol, -, hne⟩ := hinside.mp hpos
        exact .oldValue hpost (fun h => hne (hwhole.mpr h)) hcontrol
    · rintro (⟨inner, child, parent, above, hway, h⟩ | hshape | ⟨kind, element, hloop, hinit,
        hrange, hupdate⟩ | ⟨hpost, hnot, hcontrol⟩)
      · have hsome := isSome_guardOn.mpr ⟨inner, child, parent, above, hway, h⟩
        rw [hguard] at hsome
        exact absurd hsome (by simp)
      · exact Or.inl (hfixed.mpr (Or.inl hshape))
      · refine Or.inl (hfixed.mpr (Or.inr ⟨⟨kind, element, hloop⟩, hinit, hrange, ?_⟩))
        rwa [List.all_eq_true]
      · by_cases hplace : ∃ place, position = .fixed place
        · exact Or.inl hplace
        · exact Or.inr ⟨hinside.mpr ⟨hcontrol, hplace, fun h => hnot (hwhole.mp h)⟩, hpost⟩

theorem refuse_iff_illegal (source : List Char) (site : CodeNode) (ancestors : List CodeNode)
    (hwrite : operation ≠ .read) :
    (∃ reason, strategyAt source site ancestors operation = .refuse reason) ↔
      Illegal site ancestors operation := by
  rcases exists_route_or ancestors with hnone | ⟨passed, stmt, outer, rfl, hroute⟩
  · refine iff_of_true ⟨.noStatement, ?_⟩ (.noBoundary hnone)
    rw [strategyAt, boundary, boundaryFrom_eq_none hnone]
    cases operation with
    | read => exact absurd rfl hwrite
    | assign | compound op => rfl
    | step op fixity => cases fixity <;> rfl
  · rw [refuse_iff_of_route hroute source hwrite]
    constructor
    · exact .forbidden passed stmt outer rfl hroute
    · rintro (hnone | ⟨passed', stmt', outer', heq, hroute', h⟩)
      · have hstops := hroute.stops
        rw [hnone passed stmt outer rfl] at hstops
        exact absurd hstops (by simp)
      · obtain ⟨rfl, rfl, rfl⟩ := hroute.unique hroute' heq
        exact h

theorem inPlace_iff_whole (source : List Char) (site : CodeNode) (ancestors : List CodeNode)
    (hwrite : operation ≠ .read) :
    strategyAt source site ancestors operation = .inPlace ↔ Whole site ancestors := by
  rcases exists_route_or ancestors with hnone | ⟨passed, stmt, outer, rfl, hroute⟩
  · obtain ⟨reason, hrefuse⟩ := (refuse_iff_illegal source site ancestors hwrite).mpr
      (.noBoundary hnone)
    rw [hrefuse]
    simp only [reduceCtorEq, false_iff]
    rintro ⟨passed, stmt, outer, rfl, hroute, -⟩
    have hstops := hroute.stops
    rw [hnone passed stmt outer rfl] at hstops
    exact absurd hstops (by simp)
  · rw [inPlace_iff_of_route hroute source hwrite]
    constructor
    · exact fun h => ⟨passed, stmt, outer, rfl, hroute, h⟩
    · rintro ⟨passed', stmt', outer', heq, hroute', h⟩
      obtain ⟨rfl, rfl, rfl⟩ := hroute.unique hroute' heq
      exact h

theorem hoist_iff (source : List Char) (site : CodeNode) (ancestors : List CodeNode)
    (hwrite : operation ≠ .read) (side : Side) :
    strategyAt source site ancestors operation = .hoist side ↔
      ¬ Illegal site ancestors operation ∧ ¬ Whole site ancestors ∧
        (side = .after ↔ operation.isPostfix = true) := by
  rw [← refuse_iff_illegal source site ancestors hwrite,
    ← inPlace_iff_whole source site ancestors hwrite]
  exact choose_eq_hoist_iff hwrite _ side

end Legality

section Records

def isRefusal (d : Diagnostic) : Bool :=
  "cannot rewrite ".toList.isPrefixOf d.message.toList

def escapeReport (setting : Setting) (offset : Nat) (target : Target) (how : String) :
    Diagnostic :=
  .locate .warning setting.file.path setting.file.source offset
    ("'" ++ target.qualifiedName ++ "' escapes the accessors: " ++ how ++ "; left unchanged")

namespace Site

variable (setting : Setting)

def strategy (x : Site) : Strategy :=
  strategyAt setting.file.source x.node x.ancestors x.operation

def refusal? (x : Site) : Option Diagnostic :=
  match x.strategy setting with
  | .refuse reason =>
    some (.locate .warning setting.file.path setting.file.source x.node.span.start
      ("cannot rewrite " ++ x.operation.describe ++ " of '" ++ x.usage.target.qualifiedName
        ++ "': " ++ reason.message))
  | _ => none

def isWritten (x : Site) : Bool :=
  match x.strategy setting with
  | .refuse _ => false
  | _ => x.operation != .read

end Site

mutual

def Action.left (setting : Setting) : Action → List Diagnostic
  | .escape offset target how => [escapeReport setting offset target how]
  | .site x base none _ => (x.refusal? setting).toList ++ leftOf setting base
  | .site x base (some _) inRight =>
    (x.refusal? setting).toList ++ (leftOf setting base ++ leftOf setting inRight)
  | .unresolved .. | .close .. => []

def leftOf (setting : Setting) : List Action → List Diagnostic
  | [] => []
  | a :: as => a.left setting ++ leftOf setting as

end

theorem leftOf_append (setting : Setting) (as bs : List Action) :
    leftOf setting (as ++ bs) = leftOf setting as ++ leftOf setting bs := by
  induction as with
  | nil => rfl
  | cons a as ih => rw [List.cons_append, leftOf, leftOf, ih, List.append_assoc]

/-- Diagnostics are picked among those about usages that are left: none of the others is
wanted. -/
structure PicksLeft (wanted : Diagnostic → Bool) : Prop where
  unresolved : ∀ d, "cannot resolve ".toList <+: d.message.toList → wanted d = false
  duplicate : ∀ d, "base expression ".toList <+: d.message.toList → wanted d = false
  combined : ∀ d, "nested rewrites ".toList <+: d.message.toList → wanted d = false

theorem picksLeft_isRefusal : PicksLeft isRefusal := by
  constructor <;> rintro d ⟨rest, h⟩ <;> rw [isRefusal, ← h] <;> rfl

/-- A part of a search that reports `ds`, as far as they are wanted, and rewrites `n`
writes. -/
structure Records (wanted : Diagnostic → Bool) (ds : List Diagnostic) (n : Nat)
    (f : Scan → Scan) : Prop where
  reports : ∀ s, (f s).diagnostics.filter wanted = s.diagnostics.filter wanted ++ ds.filter wanted
  writes : ∀ s, (f s).stats.writes = s.stats.writes + n

namespace Records

variable {wanted : Diagnostic → Bool} {ds es : List Diagnostic} {m n : Nat} {f g : Scan → Scan}

theorem of_same (hds : ∀ s, (f s).diagnostics = s.diagnostics)
    (hwrites : ∀ s, (f s).stats.writes = s.stats.writes) : Records wanted [] 0 f := by
  constructor
  · intro s
    rw [hds s, List.filter_nil, List.append_nil]
  · intro s
    rw [hwrites s, Nat.add_zero]

theorem id : Records wanted [] 0 fun s => s :=
  of_same (fun _ => rfl) fun _ => rfl

theorem comp (hg : Records wanted es n g) (hf : Records wanted ds m f) :
    Records wanted (ds ++ es) (m + n) fun s => g (f s) := by
  constructor
  · intro s
    rw [hg.reports (f s), hf.reports s, List.append_assoc, List.filter_append]
  · intro s
    rw [hg.writes (f s), hf.writes s, Nat.add_assoc]

end Records

namespace Scan

variable (setting : Setting) {wanted : Diagnostic → Bool}

theorem records_report (severity : Severity) (offset : Nat) (message : String) :
    Records wanted [.locate severity setting.file.path setting.file.source offset message] 0
      fun s => s.report setting severity offset message :=
  ⟨fun _ => List.filter_append .., fun _ => rfl⟩

/-- A report that is not wanted. -/
theorem records_report_other (severity : Severity) (offset : Nat) {message : String}
    (h : ∀ d : Diagnostic, d.message = message → wanted d = false) :
    Records wanted [] 0 fun s => s.report setting severity offset message := by
  have hreport : Records wanted _ 0 _ := records_report setting severity offset message
  refine ⟨fun s => (hreport.reports s).trans ?_, hreport.writes⟩
  rw [List.filter_singleton, h _ rfl]
  rfl

variable (hwanted : PicksLeft wanted)

include hwanted

theorem records_reportUnresolved (span : Span) (field : String) (objectClass : Option String) :
    Records wanted [] 0 fun s => s.reportUnresolved setting span field objectClass := by
  unfold reportUnresolved
  split
  · rename_i target _
    have hreport : Records wanted [] 0 fun s => s.report setting .warning span.start
        ("cannot resolve the object type in '" ++ setting.file.text span
          ++ "'; a usage of '" ++ target.qualifiedName ++ "' may be left unchanged") := by
      refine records_report_other setting .warning span.start fun d hd => ?_
      exact hwanted.unresolved d (by simp [hd])
    exact ⟨hreport.reports, hreport.writes⟩
  · exact Records.id

theorem records_noteDuplicate (offset : Nat) (u : Usage) (operation : Operation) :
    Records wanted [] 0 fun s => s.noteDuplicate setting offset u operation := by
  unfold noteDuplicate
  split
  · refine records_report_other setting .note offset fun d hd => ?_
    exact hwanted.duplicate d (by simp [hd])
  · exact Records.id

theorem records_render {ds : List Diagnostic} {n : Nat} {visit : Scan → Scan}
    (h : Records wanted ds n visit) (span : Span) :
    Records wanted ds n fun s => (s.render setting span visit).1 := by
  constructor
  · intro s
    have hvisit := h.reports { s with queue := [] }
    simp only [render]
    split
    · exact hvisit
    · rename_i e _
      have hreport : Records wanted [] 0 fun s => s.report setting .warning span.start
          ("nested rewrites could not be combined: " ++ e.message) := by
        refine records_report_other setting .warning span.start fun d hd => ?_
        exact hwanted.combined d (by simp [hd])
      rw [hreport.reports, List.filter_nil, List.append_nil]
      exact hvisit
  · intro s
    have hvisit := h.writes { s with queue := [] }
    simp only [render]
    split <;> exact hvisit

theorem records_renderRight {ds : List Diagnostic} {n : Nat} {right : Option RightSide}
    (h : Records wanted ds n fun s => s.visitRight right) :
    Records wanted ds n fun s => (s.renderRight setting right).1 := by
  cases right with
  | none => exact h
  | some right => exact records_render setting hwanted h right.code.span

omit hwanted

theorem records_reportEscape (offset : Nat) (target : Target) (how : String) :
    Records wanted [escapeReport setting offset target how] 0
      fun s => s.reportEscape setting offset target how := by
  have hreport : Records wanted _ 0 _ := records_report setting .warning offset
    ("'" ++ target.qualifiedName ++ "' escapes the accessors: " ++ how ++ "; left unchanged")
  exact ⟨hreport.reports, hreport.writes⟩

theorem records_close (depth stop : Nat) : Records wanted [] 0 fun s => s.close depth stop := by
  unfold close
  refine Records.of_same (fun s => ?_) fun s => ?_
  · split <;> rfl
  · split <;> rfl

theorem records_count (operation : Operation) :
    Records wanted [] (operation != .read).toNat fun s => s.count operation := by
  cases operation with
  | read => exact Records.of_same (fun _ => rfl) fun _ => rfl
  | assign | compound op | step op fixity =>
    exact ⟨fun s => (List.append_nil _).symm, fun s => rfl⟩

theorem records_hoist (b : Boundary) (side : Side) (text : String) :
    Records wanted [] 0 fun s => s.hoist b side text := by
  have hopen : ∀ s : Scan, (s.openBlock b).diagnostics = s.diagnostics ∧
      (s.openBlock b).stats.writes = s.stats.writes := by
    intro s
    simp only [openBlock]
    split <;> exact ⟨rfl, rfl⟩
  refine Records.of_same (fun s => ?_) fun s => ?_
  · cases side <;> exact (hopen s).1
  · cases side <;> exact (hopen s).2

theorem records_apply (site : CodeNode) (ancestors : List CodeNode) (operation : Operation)
    (b : Option Boundary) (plan : Plan) :
    Records wanted [] (operation != .read).toNat
      fun s => s.apply site ancestors operation b plan := by
  have replaced : ∀ span, Records wanted [] (operation != .read).toNat fun s =>
      (s.push (.replace span plan.replacement)).count operation := by
    intro span
    have hpush : Records wanted [] 0 fun s : Scan => s.push (.replace span plan.replacement) :=
      Records.of_same (fun _ => rfl) fun _ => rfl
    simpa using (records_count operation).comp hpush
  unfold apply
  cases plan.helper with
  | none => exact replaced _
  | some helper =>
    cases b with
    | none => exact replaced _
    | some b => exact (records_hoist b helper.1 helper.2).comp (replaced _)

end Scan

section Wanted

variable {wanted : Diagnostic → Bool} (hwanted : PicksLeft wanted)

include hwanted

/-- A usage records what becomes of itself, and then what is recorded inside it. -/
theorem records_rewriteSite (setting : Setting) (x : Site) {ds es : List Diagnostic} {m n : Nat}
    {visitBase : Scan → Scan} (right : Option Scan.RightSide)
    (hbase : Records wanted ds m visitBase)
    (hright : Records wanted es n fun s => s.visitRight right) :
    Records wanted ((x.refusal? setting).toList ++ (ds ++ es))
      ((x.isWritten setting).toNat + (m + n)) fun s =>
        s.rewriteSite setting x.node x.ancestors x.usage x.operation visitBase right := by
  by_cases hrefuse : ∃ reason, x.strategy setting = .refuse reason
  · obtain ⟨reason, hreason⟩ := hrefuse
    have hrefusal : Records wanted (x.refusal? setting).toList 0 fun s =>
        s.reportRefusal setting x.node.span.start x.usage.target x.operation reason := by
      have hreport : Records wanted _ 0 _ := Scan.records_report setting .warning
        x.node.span.start ("cannot rewrite " ++ x.operation.describe ++ " of '"
          ++ x.usage.target.qualifiedName ++ "': " ++ reason.message)
      rw [Site.refusal?, hreason]
      exact ⟨hreport.reports, hreport.writes⟩
    have hwritten : x.isWritten setting = false := by rw [Site.isWritten, hreason]
    have hall := hright.comp (hbase.comp hrefusal)
    simp only [Scan.rewriteSite_of_refuse hreason, hwritten]
    simpa only [List.append_assoc, Nat.zero_add, Bool.toNat_false] using hall
  · have hother : ∀ reason, x.strategy setting ≠ .refuse reason :=
      fun reason h => hrefuse ⟨reason, h⟩
    have hnone : x.refusal? setting = none := by
      unfold Site.refusal?
      split
      · rename_i reason h
        exact absurd h (hother reason)
      · rfl
    have hwritten : x.isWritten setting = (x.operation != .read) := by
      unfold Site.isWritten
      split
      · rename_i reason h
        exact absurd h (hother reason)
      · rfl
    have hrendered := (Scan.records_renderRight setting hwanted hright).comp
      ((Scan.records_render setting hwanted hbase x.usage.base.span).comp
        (Scan.records_noteDuplicate setting hwanted x.node.span.start x.usage x.operation))
    have happly : ∀ b plan, Records wanted [] (x.operation != .read).toNat fun s =>
        s.apply x.node x.ancestors x.operation b plan :=
      Scan.records_apply x.node x.ancestors x.operation
    simp only [Scan.rewriteSite_of_rewrite hother]
    rw [hnone, hwritten]
    constructor
    · intro s
      rw [(happly _ _).reports, List.filter_nil, List.append_nil]
      exact hrendered.reports s
    · intro s
      rw [(happly _ _).writes, hrendered.writes s]
      omega

/-- What actions report about usages that are left, and the writes among them. -/
theorem records_execAll (setting : Setting) (as : List Action) :
    Records wanted (leftOf setting as) ((sitesOf as).countP (Site.isWritten setting))
      (execAll setting as) := by
  refine Action.inductAll (P := fun as => Records wanted (leftOf setting as)
    ((sitesOf as).countP (Site.isWritten setting)) (execAll setting as)) ?_ ?_ ?_ ?_ ?_ ?_ as
  · exact Records.id
  · intro a as ha has
    rw [← List.singleton_append, sitesOf_append, leftOf_append, List.countP_append]
    exact has.comp ha
  · exact Scan.records_reportUnresolved setting hwanted
  · exact Scan.records_reportEscape setting
  · intro x base right inRight hbase hright
    have hwritten : ∀ xs : List Site, (x :: xs).countP (Site.isWritten setting) =
        (x.isWritten setting).toNat + xs.countP (Site.isWritten setting) := by
      intro xs
      rw [List.countP_cons, Nat.add_comm]
      cases x.isWritten setting <;> rfl
    cases right with
    | none =>
      have hall := records_rewriteSite hwanted setting x none hbase Records.id
      simp only [sitesOf, Action.sites, leftOf, Action.left, List.append_nil, hwritten,
        Nat.add_zero] at hall ⊢
      exact hall
    | some c =>
      have hall := records_rewriteSite hwanted setting x
        (some ⟨c, fun s => execAll setting inRight s⟩) hbase hright
      simp only [sitesOf, Action.sites, leftOf, Action.left, List.append_nil, hwritten,
        List.countP_append]
      exact hall
  · exact Scan.records_close

end Wanted

/-- The refusals among the reports are those of the usages. -/
theorem filter_leftOf (setting : Setting) (as : List Action) :
    (leftOf setting as).filter isRefusal = (sitesOf as).filterMap (Site.refusal? setting) := by
  have hrefusal : ∀ x : Site, (x.refusal? setting).toList.filter isRefusal =
      (x.refusal? setting).toList := by
    intro x
    refine List.filter_eq_self.mpr fun d hd => ?_
    unfold Site.refusal? at hd
    split at hd
    · rw [List.mem_singleton.mp hd]
      simp [isRefusal, Diagnostic.locate, List.isPrefixOf]
    · exact absurd hd (by simp)
  have hcons : ∀ (x : Site) (xs : List Site), (x :: xs).filterMap (Site.refusal? setting) =
      (x.refusal? setting).toList ++ xs.filterMap (Site.refusal? setting) := by
    intro x xs
    rw [List.filterMap_cons]
    cases x.refusal? setting <;> rfl
  refine Action.inductAll (P := fun as => (leftOf setting as).filter isRefusal =
    (sitesOf as).filterMap (Site.refusal? setting)) rfl ?_ (fun _ _ _ => rfl) ?_ ?_
    (fun _ _ => rfl) as
  · intro a as ha has
    rw [← List.singleton_append, leftOf_append, List.filter_append, ha, has, sitesOf_append,
      List.filterMap_append]
  · intro offset target how
    simp [leftOf, Action.left, sitesOf, Action.sites, escapeReport, isRefusal, Diagnostic.locate,
      List.isPrefixOf]
  · intro x base right inRight hbase hright
    cases right with
    | none =>
      simp only [leftOf, Action.left, sitesOf, Action.sites, List.append_nil, hcons,
        List.filter_append, hrefusal, hbase]
    | some c =>
      simp only [leftOf, Action.left, sitesOf, Action.sites, List.append_nil, hcons,
        List.filter_append, List.filterMap_append, hrefusal, hbase, hright]

end Records

section Effect

namespace Scan

variable (setting : Setting)

theorem queue_render (s : Scan) (span : Span) (visit : Scan → Scan) :
    ∃ handed, (s.render setting span visit).1.queue = s.queue ++ handed := by
  simp only [render]
  split <;> exact ⟨_, rfl⟩

theorem queue_renderRight (s : Scan) (right : Option RightSide) :
    ∃ handed, (s.renderRight setting right).1.queue = s.queue ++ handed := by
  cases right with
  | none => exact ⟨[], (List.append_nil _).symm⟩
  | some right => exact queue_render setting s right.code.span right.visit

theorem queue_noteDuplicate (s : Scan) (offset : Nat) (u : Usage) (operation : Operation) :
    (s.noteDuplicate setting offset u operation).queue = s.queue := by
  simp only [noteDuplicate]
  split <;> rfl

theorem queue_count (s : Scan) (operation : Operation) : (s.count operation).queue = s.queue := by
  cases operation <;> rfl

theorem queue_openBlock (s : Scan) (b : Boundary) :
    ∃ opening, (s.openBlock b).queue = s.queue ++ opening ∧
      (opening = [] ∨ opening = [.insertBefore b.span.start ("\x7b\n" ++ b.indent)]) := by
  simp only [openBlock]
  split
  · exact ⟨_, rfl, Or.inr rfl⟩
  · exact ⟨[], (List.append_nil _).symm, Or.inl rfl⟩

end Scan

def helperText (b : Boundary) (side : Side) (setter : String) : String :=
  match side with
  | .before => setter ++ ";\n" ++ b.indent
  | .after => "\n" ++ b.indent ++ setter ++ ";"

theorem Scan.queue_apply_inPlace (s : Scan) (site : CodeNode) (ancestors : List CodeNode)
    (operation : Operation) (b : Option Boundary) (text : String) :
    (s.apply site ancestors operation b ⟨text, none⟩).queue =
      s.queue ++ [.replace site.span text] := by
  simp only [apply, queue_count]
  rfl

theorem Scan.queue_apply_hoist (s : Scan) (site : CodeNode) (ancestors : List CodeNode)
    (operation : Operation) (b : Boundary) (text : String) (side : Side) (setter : String) :
    ∃ opening, (s.apply site ancestors operation (some b) ⟨text, some (side, setter)⟩).queue =
        s.queue ++ [.replace (parenthesizedSpan site ancestors) text] ++ opening
          ++ [helperEdit b side (helperText b side setter)] ∧
      (opening = [] ∨ opening = [.insertBefore b.span.start ("\x7b\n" ++ b.indent)]) := by
  obtain ⟨opening, hopening, hcases⟩ := queue_openBlock
    ((s.push (.replace (parenthesizedSpan site ancestors) text)).count operation) b
  rw [queue_count] at hopening
  refine ⟨opening, ?_, hcases⟩
  cases side with
  | before => exact congrArg (· ++ [_]) hopening
  | after => exact congrArg (· ++ [_]) hopening

/-- What the visit of a write makes of the state `s`, by the way in which it is rewritten. -/
inductive Treats (setting : Setting) (ancestors : List CodeNode) (t : SurveyedCode) (u : Usage)
    (operation : Operation) (s s' : Scan) : Strategy → Prop where
  /-- It is reported, and only its parts are visited. -/
  | refuse (reason : Refusal)
      (h : s' = visitParts setting ancestors t
        (s.reportRefusal setting t.info.1.span.start u.target operation reason)) :
      Treats setting ancestors t u operation s s' (.refuse reason)
  /-- The setter is called in its place. -/
  | inPlace (base : String) (operand : Option Operand) (setter : String) (handed : EditQueue)
      (hsetter :
        (Accesses.of base u.isArrow u.target.name operation operand).setter = some setter)
      (hqueue : s'.queue = s.queue ++ handed ++ [.replace t.info.1.span setter]) :
      Treats setting ancestors t u operation s s' .inPlace
  /-- The getter is called in its place, and the setter beside the boundary, perhaps in a
  block that is opened for it. -/
  | hoist (side : Side) (b : Boundary) (passed : List CodeNode) (stmt : CodeNode)
      (outer : List CodeNode) (base : String) (operand : Option Operand) (setter : String)
      (handed opening : EditQueue)
      (hway : ancestors = passed ++ stmt :: outer) (hroute : Route passed stmt outer)
      (hspan : b.span = stmt.span)
      (hsetter :
        (Accesses.of base u.isArrow u.target.name operation operand).setter = some setter)
      (hopening : opening = [] ∨
        opening = [.insertBefore b.span.start ("\x7b\n" ++ b.indent)])
      (hqueue : s'.queue = s.queue ++ handed
        ++ [.replace (parenthesizedSpan t.info.1 ancestors)
          (Accesses.of base u.isArrow u.target.name operation operand).getter]
        ++ opening ++ [helperEdit b side (helperText b side setter)]) :
      Treats setting ancestors t u operation s s' (.hoist side)

theorem write?_ne_read {setting : Setting} {t : SurveyedCode} {u : Usage} {operation : Operation}
    (h : write? setting t = some (u, operation)) : operation ≠ .read := by
  unfold write? at h
  split at h
  · rename_i op _ _ _ _
    obtain ⟨u', -, hpair⟩ := Option.map_eq_some_iff.mp h
    rw [← (Prod.mk.inj hpair).2]
    cases op <;> simp [Operation.ofAssign]
  · obtain ⟨u', -, hpair⟩ := Option.map_eq_some_iff.mp h
    rw [← (Prod.mk.inj hpair).2]
    simp
  · exact absurd h (by simp)

theorem exists_setter {operation : Operation} (hwrite : operation ≠ .read) (base : String)
    (isArrow : Bool) (field : String) (operand : Option Operand) :
    ∃ setter, (Accesses.of base isArrow field operation operand).setter = some setter := by
  cases operation with
  | read => exact absurd rfl hwrite
  | assign | compound op | step op fixity => exact ⟨_, rfl⟩

theorem exists_boundary_of_hoist {source : List Char} {site : CodeNode}
    {ancestors : List CodeNode} {operation : Operation} {side : Side} (hwrite : operation ≠ .read)
    (h : strategyAt source site ancestors operation = .hoist side) :
    ∃ b, boundary source site ancestors = some b := by
  cases hb : boundary source site ancestors with
  | some b => exact ⟨b, rfl⟩
  | none =>
    rw [strategyAt, hb] at h
    cases operation with
    | read => exact absurd rfl hwrite
    | assign | compound op => exact absurd h (by simp [Strategy.choose])
    | step op fixity => cases fixity <;> exact absurd h (by simp [Strategy.choose])

/-- Visiting a write does what the way in which it is rewritten asks for. -/
theorem treats_visit {setting : Setting} {t : SurveyedCode} {u : Usage} {operation : Operation}
    (hfull : Code.Full t.code) (h : write? setting t = some (u, operation))
    (ancestors : List CodeNode) (s : Scan) (hs : s.env = t.info.2) :
    Treats setting ancestors t u operation s (visit setting ancestors t.code s)
      (strategyAt setting.file.source t.info.1 ancestors operation) := by
  have hwrite := write?_ne_read h
  obtain ⟨visitBase, right, hvisit, hparts⟩ := visit_of_write? hfull h ancestors s hs
  rw [hvisit]
  by_cases hrefuse : ∃ reason,
      strategyAt setting.file.source t.info.1 ancestors operation = .refuse reason
  · obtain ⟨reason, hreason⟩ := hrefuse
    rw [Scan.rewriteSite_of_refuse hreason, hparts, hreason]
    exact .refuse reason rfl
  · have hother : ∀ reason,
        strategyAt setting.file.source t.info.1 ancestors operation ≠ .refuse reason :=
      fun reason hreason => hrefuse ⟨reason, hreason⟩
    have hrewrite := Scan.rewriteSite_of_rewrite hother s u visitBase right
    -- the parts are rendered first, which hands on some edits
    obtain ⟨inner, hinner⟩ := Scan.queue_render setting
      (s.noteDuplicate setting t.info.1.span.start u operation) u.base.span visitBase
    rw [Scan.queue_noteDuplicate] at hinner
    generalize (s.noteDuplicate setting t.info.1.span.start u operation).render setting u.base.span
      visitBase = object at hinner hrewrite
    obtain ⟨later, hlater⟩ := Scan.queue_renderRight setting object.1 right
    rw [hinner, List.append_assoc] at hlater
    simp only at hrewrite
    generalize object.1.renderRight setting right = operand at hlater hrewrite
    obtain ⟨setter, hsetter⟩ :=
      exists_setter hwrite object.2 u.isArrow u.target.name operand.2
    rw [hrewrite]
    simp only [Plan.make, hsetter]
    cases hstrategy : strategyAt setting.file.source t.info.1 ancestors operation with
    | refuse reason => exact absurd hstrategy (hother reason)
    | inPlace =>
      refine .inPlace object.2 operand.2 setter (inner ++ later) hsetter ?_
      rw [Scan.queue_apply_inPlace, hlater]
    | hoist side =>
      obtain ⟨b, hb⟩ := exists_boundary_of_hoist hwrite hstrategy
      obtain ⟨passed, stmt, outer, hway, hroute, -, hspan, -⟩ := boundaryFrom_route hb
      rw [hb]
      obtain ⟨opening, hqueue, hopening⟩ := Scan.queue_apply_hoist operand.1 t.info.1 ancestors
        operation b (Accesses.of object.2 u.isArrow u.target.name operation operand.2).getter side
        setter
      rw [hlater] at hqueue
      exact .hoist side b passed stmt outer object.2 operand.2 setter (inner ++ later) opening
        hway hroute hspan hsetter hopening hqueue

end Effect

def writeAt (setting : Setting) (body : SurveyedCode) (p : List Nat) : Option Site :=
  (body.at? p).bind fun t => (write? setting t).map fun w =>
    ⟨t.info.1, ancestorsAt body p, w.1, w.2⟩

def writesOf (setting : Setting) (body : SurveyedCode) : List Site :=
  (positions body).filterMap (writeAt setting body)

/-- Reads are neither refused nor counted as writes. -/
theorem sites_writes (setting : Setting) (body : SurveyedCode) :
    ((positions body).filterMap (siteAt setting body)).filterMap (Site.refusal? setting) =
        (writesOf setting body).filterMap (Site.refusal? setting) ∧
      ((positions body).filterMap (siteAt setting body)).countP (Site.isWritten setting) =
        (writesOf setting body).countP (Site.isWritten setting) := by
  have hread : ∀ x : Site, x.operation = .read →
      x.refusal? setting = none ∧ x.isWritten setting = false := by
    intro x hx
    have hstrategy : x.strategy setting = .inPlace := by
      rw [Site.strategy, hx]
      rfl
    rw [Site.refusal?, Site.isWritten, hstrategy, hx]
    exact ⟨rfl, rfl⟩
  -- a site that is no write of its position is a read
  have hsite : ∀ p, siteAt setting body p = writeAt setting body p ∨
      writeAt setting body p = none ∧ ∀ x, siteAt setting body p = some x →
        x.operation = .read := by
    intro p
    unfold siteAt writeAt ownSite
    cases body.at? p with
    | none => exact Or.inl rfl
    | some t =>
      simp only [Option.bind_some]
      cases write? setting t with
      | some w => exact Or.inl rfl
      | none =>
        refine Or.inr ⟨rfl, fun x hx => ?_⟩
        simp only at hx
        split at hx
        · exact absurd hx (by simp)
        · obtain ⟨u, -, rfl⟩ := Option.map_eq_some_iff.mp hx
          rfl
  unfold writesOf
  induction positions body with
  | nil => exact ⟨rfl, rfl⟩
  | cons p ps ih =>
    rcases hsite p with heq | ⟨hnone, hx⟩
    · rw [List.filterMap_cons, List.filterMap_cons, heq]
      cases writeAt setting body p with
      | none => exact ih
      | some x =>
        simp only [List.filterMap_cons, List.countP_cons, ih.1, ih.2, and_self]
    · rw [List.filterMap_cons, List.filterMap_cons, hnone]
      cases hs : siteAt setting body p with
      | none => exact ih
      | some x =>
        obtain ⟨hrefusal, hwritten⟩ := hread x (hx x hs)
        simp only [List.filterMap_cons, List.countP_cons, hrefusal, hwritten, ih.1, ih.2,
          Bool.false_eq_true, if_false, Nat.add_zero, and_self]

/-- Every write to a target is refused, and reported once, exactly where it is illegal;
otherwise it is rewritten: in place exactly where it is the whole of an expression statement
or of a loop's clause, behind its boundary where it gives the old value, and in front of it
where it does not. -/
theorem scan_rewrites_exactly_legal_writes (path : String) (source : List Char)
    (parsed : Parsed) (symbols : Symbols) (targets : List Target) (fs : List Function)
    (hfs : ∀ f ∈ fs, f ∈ (SourceFile.ofParsed path source parsed).functions) :
    let setting : Setting := ⟨.ofParsed path source parsed, symbols, targets⟩
    let bodies := surveyFunctions symbols fs
    (scan setting fs).diagnostics.filter isRefusal =
        (bodies.flatMap (writesOf setting)).filterMap (Site.refusal? setting) ∧
      (scan setting fs).stats.writes =
        (bodies.flatMap (writesOf setting)).countP (Site.isWritten setting) ∧
      ∀ body ∈ bodies, ∀ (p : List Nat) (t : SurveyedCode) (u : Usage) (operation : Operation),
        body.at? p = some t → write? setting t = some (u, operation) →
        let ancestors := ancestorsAt body p
        let how := strategyAt source t.info.1 ancestors operation
        ((∃ reason, how = .refuse reason) ↔ Illegal t.info.1 ancestors operation) ∧
          (how = .inPlace ↔ Whole t.info.1 ancestors) ∧
          (how = .hoist .after ↔ ¬ Illegal t.info.1 ancestors operation ∧
            ¬ Whole t.info.1 ancestors ∧ operation.isPostfix = true) ∧
          (how = .hoist .before ↔ ¬ Illegal t.info.1 ancestors operation ∧
            ¬ Whole t.info.1 ancestors ∧ operation.isPostfix = false) ∧
          ∀ s : Scan, s.env = t.info.2 →
            Treats setting ancestors t u operation s (visit setting ancestors t.code s) how := by
  intro setting bodies
  have hfull : ∀ f ∈ fs, ∀ b, f.body = some b → Everywhere Code.Full b :=
    fun f hf b hb => full_body (hfs f hf) hb
  obtain ⟨env, hscan⟩ := scan_eq setting fs hfull
  have hrecords := records_execAll picksLeft_isRefusal setting (actsOfFunctions setting fs)
  have hrefusals := filter_leftOf setting (actsOfFunctions setting fs)
  have hbodies : ∀ bodies : List SurveyedCode,
      (bodies.flatMap fun body => (positions body).filterMap (siteAt setting body)).filterMap
          (Site.refusal? setting) =
        (bodies.flatMap (writesOf setting)).filterMap (Site.refusal? setting) ∧
      (bodies.flatMap fun body => (positions body).filterMap (siteAt setting body)).countP
          (Site.isWritten setting) =
        (bodies.flatMap (writesOf setting)).countP (Site.isWritten setting) := by
    intro bodies
    induction bodies with
    | nil => exact ⟨rfl, rfl⟩
    | cons body bodies ih =>
      obtain ⟨hrefusals, hwritten⟩ := sites_writes setting body
      simp only [List.flatMap_cons, List.filterMap_append, List.countP_append, hrefusals,
        hwritten, ih.1, ih.2, and_self]
  rw [sitesOf_actsOfFunctions setting fs hfull] at hrecords hrefusals
  rw [(hbodies _).2] at hrecords
  rw [(hbodies _).1] at hrefusals
  rw [hscan]
  refine ⟨(hrecords.reports {}).trans hrefusals, (hrecords.writes {}).trans (Nat.zero_add _), ?_⟩
  intro body hbody p t u operation ht hwrite ancestors how
  have hne := write?_ne_read hwrite
  have hafter := hoist_iff source t.info.1 ancestors hne .after
  have hbefore := hoist_iff source t.info.1 ancestors hne .before
  refine ⟨refuse_iff_illegal source t.info.1 ancestors hne,
    inPlace_iff_whole source t.info.1 ancestors hne, ?_, ?_, ?_⟩
  · simpa using hafter
  · simpa using hbefore
  · exact treats_visit (full_of_at? hfull hbody ht).here hwrite ancestors

section Example

open ParseTree

/-- A function with the statements `return a.x++;a.x++;`. -/
def returnTree : ParseTree :=
  unitTree 48
    [named "return_statement" 29 42
       [named "update_expression" 36 41
          [accessTree "argument" 36, mark (some "operator") "++" 39 41]],
     named "expression_statement" 42 48
       [named "update_expression" 42 47
          [accessTree "argument" 42, mark (some "operator") "++" 45 47]]]

def returnFile : SourceFile :=
  .ofParsed "return.cpp" (unitText "return a.x++;a.x++;") ⟨returnTree, false⟩

def returnSetting : Setting :=
  .ofUnit ["F::x"] ⟨returnFile, []⟩

def returnBody : SurveyedCode :=
  (returnFile.functions.head?.bind (surveyFunction returnSetting.symbols)).getD
    (.node (⟨.body, .block, .point 0⟩, {}) [])

theorem mem_returnBodies :
    returnBody ∈ surveyFunctions returnSetting.symbols returnFile.functions := by
  have hsome : (returnFile.functions.head?.bind
      (surveyFunction returnSetting.symbols)).isSome = true := by decide
  obtain ⟨body, hbody⟩ := Option.isSome_iff_exists.mp hsome
  obtain ⟨f, hf, hsurvey⟩ := Option.bind_eq_some_iff.mp hbody
  rw [returnBody, hbody]
  exact List.mem_filterMap.mpr ⟨f, List.mem_of_head? hf, hsurvey⟩

/-- The old value that is returned cannot be had once the setter is called, so the first
step is refused; the second is a statement of its own. -/
theorem scan_refuses_returned_step :
    (∀ f ∈ returnFile.functions, f ∈ returnFile.functions) ∧
      ((scan returnSetting returnFile.functions).diagnostics.filter isRefusal).length = 1 ∧
      (scan returnSetting returnFile.functions).stats.writes = 1 ∧
      Illegal ⟨.item, .step .increment .post, ⟨36, 41⟩⟩ (ancestorsAt returnBody [0, 0])
        (.step .increment .post) := by
  obtain ⟨hrefusals, hwrites, hall⟩ := scan_rewrites_exactly_legal_writes "return.cpp"
    (unitText "return a.x++;a.x++;") ⟨returnTree, false⟩ returnSetting.symbols
    returnSetting.targets returnFile.functions fun _ hf => hf
  have hsetting : returnSetting = ⟨.ofParsed "return.cpp" (unitText "return a.x++;a.x++;")
      ⟨returnTree, false⟩, returnSetting.symbols, returnSetting.targets⟩ := rfl
  obtain ⟨t, ht⟩ : ∃ t, returnBody.at? [0, 0] = some t :=
    Option.isSome_iff_exists.mp (by decide)
  have hinfo : t.info.1 = ⟨.item, .step .increment .post, ⟨36, 41⟩⟩ := by
    have hsome : (returnBody.at? [0, 0]).map (·.info.1) =
        some ⟨.item, .step .increment .post, ⟨36, 41⟩⟩ := by decide
    rw [ht] at hsome
    exact Option.some.inj hsome
  have hwrite : ((returnBody.at? [0, 0]).bind (write? returnSetting)).map Prod.snd =
      some (.step .increment .post) := by decide
  rw [ht, Option.bind_some] at hwrite
  obtain ⟨⟨u, operation⟩, hw, rfl⟩ := Option.map_eq_some_iff.mp hwrite
  have hillegal := (hall returnBody mem_returnBodies [0, 0] t u _ ht hw).1.mp
    ⟨.oldValueUsed, by rw [hinfo]; decide⟩
  rw [hinfo] at hillegal
  refine ⟨fun _ hf => hf, ?_, ?_, hillegal⟩
  · rw [hsetting, hrefusals]
    decide
  · rw [hsetting, hwrites]
    decide

end Example

end Encapsulate.Accessors
