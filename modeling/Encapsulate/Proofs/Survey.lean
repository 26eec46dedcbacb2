import Encapsulate.Accessors.Usage
import Encapsulate.Proofs.Trees

/-!
The names in force at every node of a body. A survey walks code from the top down,
children in their order, opening and closing scopes and declaring variables as it
goes; it rewrites nothing. Each node is labelled with the names in force where the
walk reaches it, so what a member access means is read off its label.
-/

namespace Encapsulate

namespace Cpp.Env

def declareVars (env : Env) (symbols : Symbols) (vs : List Var) : Env :=
  vs.foldl (fun e v => e.declare symbols v.name v.type none) env

end Cpp.Env

namespace Accessors

open Cpp Encapsulate.Tree

def Setting.ofUnit (fields : List String) (u : SourceUnit) : Setting :=
  ⟨u.primary, .ofUnit u, (select fields u).targets⟩

/-- Code whose nodes carry the names in force where they are reached. -/
abbrev SurveyedCode := Tree (CodeNode × Env)

def SurveyedCode.code (t : SurveyedCode) : Code :=
  t.map Prod.fst

mutual

/-- The labelled code and the names in force after it. -/
def survey (symbols : Symbols) (env : Env) : Code → SurveyedCode × Env
  | .node i cs =>
    let (parts, after) := match i.shape with
      | .lambda params =>
        let inner := surveyParams symbols params env.pushScope cs
        (inner.1, inner.2.popScope)
      | .declaration vars => surveyVars symbols vars env cs
      | .loop _ element =>
        let inner := surveyLoop symbols element none env.pushScope cs
        (inner.1, inner.2.popScope)
      | .block | .branch | .switch =>
        let inner := surveyAll symbols env.pushScope cs
        (inner.1, inner.2.popScope)
      | _ => surveyAll symbols env cs
    (.node (i, env) parts, after)

def surveyAll (symbols : Symbols) (env : Env) : List Code → List SurveyedCode × Env
  | [] => ([], env)
  | c :: cs =>
    let first := survey symbols env c
    let rest := surveyAll symbols first.2 cs
    (first.1 :: rest.1, rest.2)

def surveyParams (symbols : Symbols) (params : List Var) (env : Env) :
    List Code → List SurveyedCode × Env
  | [] => ([], env.declareVars symbols params)
  | c :: cs =>
    let first := survey symbols
      (env.declareVars symbols (params.takeWhile (!·.isInitialized))) c
    let rest := match params.dropWhile (!·.isInitialized) with
      | v :: later =>
        surveyParams symbols later (first.2.declare symbols v.name v.type none) cs
      | [] => surveyAll symbols first.2 cs
    (first.1 :: rest.1, rest.2)

def surveyVars (symbols : Symbols) (vars : List Var) (env : Env) :
    List Code → List SurveyedCode × Env
  | [] => ([], env.declareVars symbols vars)
  | c :: cs =>
    let before := env.declareVars symbols (vars.takeWhile (!·.isInitialized))
    let first := survey symbols before c
    let rest := match vars.dropWhile (!·.isInitialized) with
      | v :: later =>
        surveyVars symbols later
          (first.2.declare symbols v.name v.type (before.classOf symbols c)) cs
      | [] => surveyAll symbols first.2 cs
    (first.1 :: rest.1, rest.2)

def surveyLoop (symbols : Symbols) (element : Option Var) (range : Option Code) (env : Env) :
    List Code → List SurveyedCode × Env
  | [] => ([], env)
  | c :: cs =>
    match c.info.role with
    | .body =>
      let before := match element with
        | some v =>
          env.declare symbols v.name v.type (range.bind (env.elementClass symbols))
        | none => env
      let first := survey symbols before c
      let rest := surveyAll symbols first.2 cs
      (first.1 :: rest.1, rest.2)
    | .range =>
      let first := survey symbols env c
      let rest := surveyLoop symbols element (some c) first.2 cs
      (first.1 :: rest.1, rest.2)
    | _ =>
      let first := survey symbols env c
      let rest := surveyLoop symbols element range first.2 cs
      (first.1 :: rest.1, rest.2)

end

def surveyFunction (symbols : Symbols) (f : Function) : Option SurveyedCode :=
  f.body.map fun body => (survey symbols (Env.enter symbols f) body).1

def reached? (setting : Setting) (t : SurveyedCode) : Option Target :=
  (t.info.2.resolveMember setting.symbols t.code).bind fun field =>
    setting.targets.find? (·.qualifiedName == field.qualifiedName)

@[simp] theorem SurveyedCode.code_node (x : CodeNode × Env) (parts : List SurveyedCode) :
    code (.node x parts) = .node x.1 (parts.map code) := by
  rw [code, map, mapAll_eq]
  rfl

def IsSurveyOf (symbols : Symbols) (c : Code) (t : SurveyedCode) : Prop :=
  ∃ env, t = (survey symbols env c).1

section

variable (symbols : Symbols)

theorem surveyAll_parts (env : Env) (cs : List Code) :
    List.Forall₂ (IsSurveyOf symbols) cs (surveyAll symbols env cs).1 := by
  induction cs generalizing env with
  | nil => exact .nil
  | cons c cs ih => exact .cons ⟨env, rfl⟩ (ih _)

theorem surveyParams_parts (params : List Var) (env : Env) (cs : List Code) :
    List.Forall₂ (IsSurveyOf symbols) cs (surveyParams symbols params env cs).1 := by
  induction cs generalizing params env with
  | nil => exact .nil
  | cons c cs ih =>
    refine .cons ⟨_, rfl⟩ ?_
    split
    · exact ih _ _
    · exact surveyAll_parts symbols _ cs

theorem surveyVars_parts (vars : List Var) (env : Env) (cs : List Code) :
    List.Forall₂ (IsSurveyOf symbols) cs (surveyVars symbols vars env cs).1 := by
  induction cs generalizing vars env with
  | nil => exact .nil
  | cons c cs ih =>
    refine .cons ⟨_, rfl⟩ ?_
    split
    · exact ih _ _
    · exact surveyAll_parts symbols _ cs

theorem surveyLoop_parts (element : Option Var) (range : Option Code) (env : Env)
    (cs : List Code) :
    List.Forall₂ (IsSurveyOf symbols) cs (surveyLoop symbols element range env cs).1 := by
  induction cs generalizing range env with
  | nil => exact .nil
  | cons c cs ih =>
    rw [surveyLoop.eq_def]
    simp only
    split
    · exact .cons ⟨_, rfl⟩ (surveyAll_parts symbols _ cs)
    · exact .cons ⟨_, rfl⟩ (ih _ _)
    · exact .cons ⟨_, rfl⟩ (ih _ _)

/-- The parts of a survey are surveys of the parts. -/
theorem survey_parts (env : Env) (i : CodeNode) (cs : List Code) :
    ∃ parts, (survey symbols env (.node i cs)).1 = .node (i, env) parts ∧
      List.Forall₂ (IsSurveyOf symbols) cs parts := by
  refine ⟨_, by rw [survey], ?_⟩
  split
  · exact surveyParams_parts symbols _ _ cs
  · exact surveyVars_parts symbols _ _ cs
  · exact surveyLoop_parts symbols _ _ _ cs
  · exact surveyAll_parts symbols _ cs
  · exact surveyAll_parts symbols _ cs
  · exact surveyAll_parts symbols _ cs
  · exact surveyAll_parts symbols _ cs

@[simp] theorem info_survey (env : Env) (i : CodeNode) (cs : List Code) :
    (survey symbols env (.node i cs)).1.info = (i, env) := by
  obtain ⟨parts, heq, -⟩ := survey_parts symbols env i cs
  rw [heq, info_node]

/-- A survey labels the nodes of the code and leaves them as they are. -/
theorem code_survey (env : Env) (c : Code) : (survey symbols env c).1.code = c := by
  induction c using Tree.inductionOn generalizing env with
  | h i cs ih =>
    obtain ⟨parts, heq, hparts⟩ := survey_parts symbols env i cs
    rw [heq, SurveyedCode.code_node]
    congr 1
    clear heq
    induction hparts with
    | nil => rfl
    | @cons c t cs parts hct _ ihparts =>
      obtain ⟨env', rfl⟩ := hct
      rw [List.map_cons, ih c (List.mem_cons_self ..) env',
        ihparts fun d hd => ih d (List.mem_cons_of_mem _ hd)]

end

theorem reached?_survey (setting : Setting) (env : Env) (c : Code) :
    reached? setting (survey setting.symbols env c).1 =
      (env.resolveMember setting.symbols c).bind fun field =>
        setting.targets.find? (·.qualifiedName == field.qualifiedName) := by
  obtain ⟨i, cs⟩ := c
  obtain ⟨parts, heq, -⟩ := survey_parts setting.symbols env i cs
  rw [reached?, code_survey, heq, info_node]

/-- Parentheses hide no usage. -/
theorem usage?_paren (setting : Setting) {i : CodeNode} (hi : i.shape = .paren) (env : Env)
    (c : Code) (cs : List Code) :
    usage? setting env (.node i (c :: cs)) = usage? setting env c := by
  have hp : i.isParen = true := by simp [CodeNode.isParen, hi]
  simp only [usage?, Code.unparen, Tree.skip, Tree.skipFirst, hp, if_true]

/-- Only accesses inside parentheses are usages. -/
theorem usage?_other (setting : Setting) {i : CodeNode} (hparen : i.shape ≠ .paren)
    (hmember : ∀ isArrow field, i.shape ≠ .member isArrow field) (env : Env) (cs : List Code) :
    usage? setting env (.node i cs) = none := by
  have hp : i.isParen = false := by simp [CodeNode.isParen, hparen]
  simp only [usage?, Code.unparen, Tree.skip, hp, Bool.false_eq_true, if_false]
  split
  · exact absurd (by assumption) (hmember _ _)
  · rfl

def ancestorsAt (body : SurveyedCode) (p : List Nat) : List CodeNode :=
  (body.above p).map Prod.fst

theorem ancestorsAt_concat {body t c : SurveyedCode} {p : List Nat} {n : Nat}
    (ht : body.at? p = some t) (hc : t.children[n]? = some c) :
    ancestorsAt body (p ++ [n]) = t.info.1 :: ancestorsAt body p := by
  rw [ancestorsAt, above_append ht, List.map_append]
  simp [above, hc, ancestorsAt]

def write? (setting : Setting) (t : SurveyedCode) : Option (Usage × Operation) :=
  match t.info.1.shape, t.code.children with
  | .assign op, left :: _ => (usage? setting t.info.2 left).map fun u => (u, .ofAssign op)
  | .step op fixity, operand :: _ =>
    (usage? setting t.info.2 operand).map fun u => (u, .step op fixity)
  | _, _ => none

theorem sort_of_write? {setting : Setting} {t : SurveyedCode} {w : Usage × Operation}
    (h : write? setting t = some w) : t.info.1.shape.sort = .expression := by
  unfold write? at h
  split at h
  · rename_i hshape _
    rw [hshape]
    rfl
  · rename_i hshape _
    rw [hshape]
    rfl
  · exact absurd h (by simp)

/-- A write whose helper statement stands beside its boundary. -/
structure Hoist where
  target : Target
  boundary : Boundary
  side : Side
deriving DecidableEq

def hoistAt (setting : Setting) (ancestors : List CodeNode) (t : SurveyedCode) :
    Option Hoist := do
  let (u, operation) ← write? setting t
  let b ← boundary setting.file.source t.info.1 ancestors
  match Strategy.choose operation (some b.position) with
  | .hoist side => some ⟨u.target, b, side⟩
  | _ => none

def hoist? (setting : Setting) (body : SurveyedCode) (p : List Nat) : Option Hoist :=
  (body.at? p).bind (hoistAt setting (ancestorsAt body p))

end Accessors

end Encapsulate
