import Encapsulate.Accessors.Boundary
import Mathlib.Data.List.Chain

/-!
The way up from a usage to its boundary. It passes over expressions, groups and
declarations in headers and stops at the first other statement. Where the position of
the usage is not fixed, none of the operands it leaves on the way is guarded.
-/

namespace Encapsulate.Accessors

open Cpp

/-- Whether a statement ends the way up: any does, except a declaration in a place where
no statement stands. -/
def stopsAt (n : CodeNode) (outer : List CodeNode) : Bool :=
  match n.shape with
  | .declaration _ => inStatementSlot n outer
  | shape => shape.sort == .statement

/-- A way up from `child` that passes over `passed` and stops at `stmt`. -/
structure Route (passed : List CodeNode) (stmt : CodeNode) (outer : List CodeNode) : Prop where
  stops : stopsAt stmt outer = true
  passes : ∀ inner n above, passed = inner ++ n :: above →
    stopsAt n (above ++ stmt :: outer) = false

theorem Route.cons {parent stmt : CodeNode} {passed outer : List CodeNode}
    (h : Route passed stmt outer) (hparent : stopsAt parent (passed ++ stmt :: outer) = false) :
    Route (parent :: passed) stmt outer := by
  refine ⟨h.stops, ?_⟩
  intro inner n above heq
  cases inner with
  | nil =>
    rw [List.nil_append] at heq
    obtain ⟨rfl, rfl⟩ := List.cons.inj heq
    exact hparent
  | cons m inner =>
    obtain ⟨-, htail⟩ := List.cons.inj heq
    exact h.passes inner n above htail

theorem stopsAt_eq_false {n : CodeNode} (h : n.shape.sort ≠ .statement) (outer : List CodeNode) :
    stopsAt n outer = false := by
  unfold stopsAt
  split
  · rename_i hshape
    rw [hshape] at h
    exact absurd rfl h
  · simpa using h

/-- A position is found exactly at the statements that end the way up. -/
theorem isSome_positionIn {stmt : CodeNode} (hsort : stmt.shape.sort = .statement)
    (child : CodeNode) (isAll : Bool) (outer : List CodeNode) :
    (positionIn stmt child isAll outer).isSome = stopsAt stmt outer := by
  unfold positionIn stopsAt
  cases hs : stmt.shape with
  | declaration vars => cases hslot : inStatementSlot stmt outer <;> simp
  | loop kind element => cases child.role <;> rfl
  | _ => simp_all [Shape.sort]

def Free (child parent : CodeNode) : Prop :=
  sequencedPlace parent child = none

theorem free_of_not_expression {child parent : CodeNode}
    (h : parent.shape.sort ≠ .expression) : Free child parent := by
  unfold Free sequencedPlace
  cases hs : parent.shape with
  | conditional | binary op | comma =>
    rw [hs] at h
    exact absurd rfl h
  | _ => rfl

/-- What a boundary says about the way up to it. -/
theorem boundaryFrom_route {source : List Char} {fixed : Option FixedPlace} {isAll : Bool}
    {child : CodeNode} {ancestors : List CodeNode} {b : Boundary}
    (h : boundaryFrom source fixed isAll child ancestors = some b) :
    ∃ passed stmt outer, ancestors = passed ++ stmt :: outer ∧ Route passed stmt outer ∧
      b.depth = outer.length ∧ b.span = stmt.span ∧
      ((∀ place, b.position ≠ .fixed place) → fixed = none ∧
        List.IsChain Free (child :: passed ++ [stmt]) ∧ stmt.shape ≠ .block) := by
  induction ancestors generalizing fixed isAll child with
  | nil => simp [boundaryFrom] at h
  | cons parent outer ih =>
    -- the way up goes on above `parent`
    have step : ∀ {fixed' : Option FixedPlace} {isAll' : Bool}, stopsAt parent outer = false →
        (fixed' = none → fixed = none ∧ Free child parent) →
        boundaryFrom source fixed' isAll' parent outer = some b →
        ∃ passed stmt above, parent :: outer = passed ++ stmt :: above ∧
          Route passed stmt above ∧ b.depth = above.length ∧ b.span = stmt.span ∧
          ((∀ place, b.position ≠ .fixed place) → fixed = none ∧
            List.IsChain Free (child :: passed ++ [stmt]) ∧ stmt.shape ≠ .block) := by
      intro fixed' isAll' hstop hfree hup
      obtain ⟨passed, stmt, above, rfl, hroute, hdepth, hspan, hopen⟩ := ih hup
      refine ⟨parent :: passed, stmt, above, rfl, hroute.cons hstop, hdepth, hspan, ?_⟩
      intro hpos
      obtain ⟨hnone, hchain, hblock⟩ := hopen hpos
      exact ⟨(hfree hnone).1, List.IsChain.cons_cons (hfree hnone).2 hchain, hblock⟩
    rw [boundaryFrom] at h
    cases hsort : parent.shape.sort with
    | expression =>
      simp only [hsort] at h
      refine step (stopsAt_eq_false (by simp [hsort]) outer) ?_ h
      intro hnone
      cases fixed with
      | none => exact ⟨rfl, hnone⟩
      | some place => simp at hnone
    | group =>
      simp only [hsort] at h
      exact step (stopsAt_eq_false (by simp [hsort]) outer)
        (fun hnone => ⟨hnone, free_of_not_expression (by simp [hsort])⟩) h
    | statement =>
      simp only [hsort] at h
      have hsome := isSome_positionIn hsort child isAll outer
      cases hpos : positionIn parent child isAll outer with
      | none =>
        simp only [hpos] at h
        rw [hpos] at hsome
        exact step hsome.symm
          (fun hnone => ⟨hnone, free_of_not_expression (by simp [hsort])⟩) h
      | some position =>
        simp only [hpos, Option.some.injEq] at h
        subst h
        rw [hpos] at hsome
        refine ⟨[], parent, outer, rfl, ⟨hsome.symm, by simp⟩, rfl, rfl, ?_⟩
        intro hopen
        cases fixed with
        | none =>
          have hfree : Free child parent := free_of_not_expression (by simp [hsort])
          refine ⟨rfl, by simpa using hfree, ?_⟩
          intro hblock
          have hfixed : position = .fixed .otherStatement := by
            simpa [positionIn, hblock] using hpos.symm
          exact hopen .otherStatement hfixed
        | some place => exact absurd rfl (hopen place)

/-- A write is hoisted only where its position is not fixed. -/
theorem choose_hoist {operation : Operation} {position : Position} {side : Side}
    (h : Strategy.choose operation (some position) = .hoist side) (place : FixedPlace) :
    position ≠ .fixed place := by
  rintro rfl
  cases operation with
  | read | assign | compound op => simp [Strategy.choose] at h
  | step op fixity => cases fixity <;> simp [Strategy.choose] at h

end Encapsulate.Accessors
