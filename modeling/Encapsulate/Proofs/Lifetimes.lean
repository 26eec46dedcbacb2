import Encapsulate.Proofs.Scoping
import Encapsulate.Proofs.Actions

/-!
How long names are in force. A visit declares names in the innermost open block only, and it
closes every block that it opens. So behind a piece of code the names are those in front of it
and, in the same block, the ones that the code leaves. A block, a branch, a switch, a loop and a
lambda leave none, and what stands behind them is visited under the names in front of them.
-/

namespace Encapsulate

namespace Cpp.Env

/-- The same object is `this`, and the same scopes are around. -/
structure SamePlace (a b : Env) : Prop where
  thisClass : b.thisClass = a.thisClass
  path : b.path = a.path

namespace SamePlace

variable {a b c : Env}

theorem refl (a : Env) : SamePlace a a :=
  ⟨rfl, rfl⟩

theorem trans (hab : SamePlace a b) (hbc : SamePlace b c) : SamePlace a c :=
  ⟨hbc.thisClass.trans hab.thisClass, hbc.path.trans hab.path⟩

theorem declare (env : Env) (symbols : Symbols) (name : String) (type : TypeRef)
    (initClass : Option String) : SamePlace env (env.declare symbols name type initClass) := by
  unfold Env.declare
  cases env.scopes with
  | nil => exact ⟨rfl, rfl⟩
  | cons top outer => exact ⟨rfl, rfl⟩

theorem declareVars (env : Env) (symbols : Symbols) (vs : List Var) :
    SamePlace env (env.declareVars symbols vs) := by
  induction vs generalizing env with
  | nil => exact refl env
  | cons v vs ih => exact (declare env symbols v.name v.type none).trans (ih _)

/-- Neither opening a block nor closing one leaves the place. -/
theorem popScope (h : SamePlace a.pushScope b) : SamePlace a b.popScope :=
  ⟨h.thisClass, h.path⟩

end SamePlace

end Cpp.Env

namespace Accessors

open Cpp Encapsulate.Tree

section Survey

variable {symbols : Symbols} {cs : List Code}

def StaysInPlace (symbols : Symbols) (c : Code) : Prop :=
  ∀ env : Env, env.SamePlace (survey symbols env c).2

theorem samePlace_surveyAll (hcs : ∀ c ∈ cs, StaysInPlace symbols c) (env : Env) :
    env.SamePlace (surveyAll symbols env cs).2 := by
  induction cs generalizing env with
  | nil => exact .refl env
  | cons c cs ih =>
    obtain ⟨hc, hcs⟩ := List.forall_mem_cons.mp hcs
    exact (hc env).trans (ih hcs _)

theorem samePlace_surveyParams (hcs : ∀ c ∈ cs, StaysInPlace symbols c) (params : List Var)
    (env : Env) : env.SamePlace (surveyParams symbols params env cs).2 := by
  induction cs generalizing params env with
  | nil => exact .declareVars env symbols params
  | cons c cs ih =>
    obtain ⟨hc, hcs⟩ := List.forall_mem_cons.mp hcs
    have hfirst := (Env.SamePlace.declareVars env symbols
      (params.takeWhile (!·.isInitialized))).trans (hc _)
    simp only [surveyParams]
    split
    · rename_i v later _
      exact (hfirst.trans (.declare _ symbols v.name v.type none)).trans (ih hcs later _)
    · exact hfirst.trans (samePlace_surveyAll hcs _)

theorem samePlace_surveyVars (hcs : ∀ c ∈ cs, StaysInPlace symbols c) (vars : List Var)
    (env : Env) : env.SamePlace (surveyVars symbols vars env cs).2 := by
  induction cs generalizing vars env with
  | nil => exact .declareVars env symbols vars
  | cons c cs ih =>
    obtain ⟨hc, hcs⟩ := List.forall_mem_cons.mp hcs
    have hfirst := (Env.SamePlace.declareVars env symbols
      (vars.takeWhile (!·.isInitialized))).trans (hc _)
    simp only [surveyVars]
    split
    · rename_i v later _
      exact (hfirst.trans (.declare _ symbols v.name v.type _)).trans (ih hcs later _)
    · exact hfirst.trans (samePlace_surveyAll hcs _)

theorem samePlace_surveyLoop (hcs : ∀ c ∈ cs, StaysInPlace symbols c) (element : Option Var)
    (range : Option Code) (env : Env) :
    env.SamePlace (surveyLoop symbols element range env cs).2 := by
  induction cs generalizing range env with
  | nil => exact .refl env
  | cons c cs ih =>
    obtain ⟨hc, hcs⟩ := List.forall_mem_cons.mp hcs
    rw [surveyLoop.eq_def]
    simp only
    split
    · -- the body, with the element of a range declared in front of it
      refine Env.SamePlace.trans ?_ ((hc _).trans (samePlace_surveyAll hcs _))
      cases element with
      | none => exact .refl env
      | some v => exact .declare env symbols v.name v.type _
    · exact (hc env).trans (ih hcs _ _)
    · exact (hc env).trans (ih hcs _ _)

theorem staysInPlace (symbols : Symbols) (c : Code) : StaysInPlace symbols c := by
  induction c using Tree.inductionOn with
  | h i cs ih =>
    intro env
    rw [survey]
    cases hshape : i.shape with
    | lambda params => exact (samePlace_surveyParams ih params env.pushScope).popScope
    | declaration vars => exact samePlace_surveyVars ih vars env
    | loop kind element => exact (samePlace_surveyLoop ih element none env.pushScope).popScope
    | block | branch | switch => exact (samePlace_surveyAll ih env.pushScope).popScope
    | _ => exact samePlace_surveyAll ih env

/-- A construct whose declarations are gone behind it leaves no name. -/
theorem not_leaves_of_opensScope {c : Code} (h : opensScope c.shape = true) (name : String) :
    ¬ Leaves c name := by
  obtain ⟨i, cs⟩ := c
  rw [leaves_node_iff]
  rintro ⟨hscope, -⟩
  exact absurd (hscope.symm.trans h) (by simp)

/-- Behind code the innermost open block has gained the names that the code leaves, and nothing
else has changed. -/
theorem survey_eq_of_scopes (symbols : Symbols) (c : Code) {env : Env}
    {top : List (String × Option String)} {outer : List (List (String × Option String))}
    (hscopes : env.scopes = top :: outer) :
    ∃ added, (survey symbols env c).2 = { env with scopes := (added ++ top) :: outer } ∧
      ∀ name, name ∈ added.map Prod.fst ↔ Leaves c name := by
  have hopen : env.scopes ≠ [] := by simp [hscopes]
  obtain ⟨top', outer', added, hfront, hbehind, hnames⟩ := leavesNames symbols c env hopen
  obtain ⟨rfl, rfl⟩ := List.cons.inj (hscopes.symm.trans hfront)
  have hplace := staysInPlace symbols c env
  refine ⟨added, ?_, hnames⟩
  rw [← hbehind, ← hplace.thisClass, ← hplace.path]

end Survey

/-- A visit of code in which every node has its parts leaves the names of its survey. -/
theorem env_visit (setting : Setting) {c : Code} (hfull : Everywhere Code.Full c)
    (ancestors : List CodeNode) (s : Scan) :
    (visit setting ancestors c s).env = (survey setting.symbols s.env c).2 := by
  have hvisit := (visitPerforms setting c hfull).1 s.env ancestors s
  exact congrArg Scan.env hvisit

/-- Visiting code keeps the open blocks around the innermost one, `this` and the enclosing
scopes, and adds to the innermost block the names that the code leaves declared. Behind a block,
a branch, a switch, a loop or a lambda all names are as before, and so what follows is visited
as if nothing had been declared in it. -/
theorem visit_restores_names (setting : Setting) {c : Code} (hfull : Everywhere Code.Full c)
    (ancestors : List CodeNode) (s : Scan) {top : List (String × Option String)}
    {outer : List (List (String × Option String))} (hscopes : s.env.scopes = top :: outer) :
    let behind := visit setting ancestors c s
    (∃ added, behind.env = { s.env with scopes := (added ++ top) :: outer } ∧
      ∀ name, name ∈ added.map Prod.fst ↔ Leaves c name) ∧
    (opensScope c.shape = true → behind.env = s.env ∧ ∀ cs,
      visitAll setting ancestors (c :: cs) s =
        visitAll setting ancestors cs { behind with env := s.env }) := by
  intro behind
  have henv : behind.env = (survey setting.symbols s.env c).2 := env_visit setting hfull ancestors s
  obtain ⟨added, hadded, hnames⟩ := survey_eq_of_scopes setting.symbols c hscopes
  rw [← henv] at hadded
  refine ⟨⟨added, hadded, hnames⟩, fun hscope => ?_⟩
  have hnil : added.map Prod.fst = [] := by
    refine List.eq_nil_iff_forall_not_mem.mpr fun name hname => ?_
    exact not_leaves_of_opensScope hscope name ((hnames name).mp hname)
  have hnone : added = [] := List.map_eq_nil_iff.mp hnil
  have hsame : behind.env = s.env := by
    rw [hadded, hnone, List.nil_append, ← hscopes]
  refine ⟨hsame, fun cs => ?_⟩
  rw [visitAll, ← hsame]

section Example

open ParseTree

/-- The block `{int a;}` in a function with an object `a`. -/
def shadowingBlock : Code :=
  .read (unitText "\x7bint a;\x7d") .item (named "compound_statement" 29 37
    [named "declaration" 30 36
      [filling "type" "primitive_type" 30 33 [], filling "declarator" "identifier" 34 35 []]])

/-- Inside the block `a` is a number, and behind it `a` is the object that it was. -/
theorem visit_restores_names_block :
    let s : Scan := { env := { scopes := [[("a", some "F")]] } }
    (∃ d ∈ subtrees shadowingBlock, Leaves d "a") ∧
      (visit headerVariableSetting [] shadowingBlock s).env = s.env := by
  intro s
  have hblock : opensScope shadowingBlock.shape = true := by decide
  constructor
  · obtain ⟨⟨i, cs⟩, hmem, hshape⟩ : ∃ d ∈ subtrees shadowingBlock,
        Code.shape d = .declaration [⟨"a", { base := "int" }, false, ⟨34, 35⟩⟩] := by
      decide
    exact ⟨_, hmem, .var hshape (List.mem_singleton_self _)⟩
  · have hfull : Everywhere Code.Full shadowingBlock := Code.full_read _ _ _
    have hrestores := visit_restores_names headerVariableSetting hfull [] s rfl
    exact (hrestores.2 hblock).1

end Example

end Accessors

end Encapsulate
