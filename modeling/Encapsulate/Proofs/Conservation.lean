import Encapsulate.Proofs.Declarations
import Encapsulate.Proofs.Survey
import Mathlib.Algebra.Group.Defs

/-!
Every usage is counted once. What a search counts is compared with a survey of the
same code: a way to visit is described by the names it leaves in force and by its
tally, the usages, unresolved members and helper statements it counts, and such
descriptions compose. A usage is met in many ways, as the target of an assignment, the
operand of a step, an object inside another usage or a plain read; in each of them the
access itself is counted once and everything around it is visited once.
-/

namespace Encapsulate.Accessors

open Cpp Encapsulate.Tree

def isUsage (setting : Setting) (t : SurveyedCode) : Bool :=
  (reached? setting t).isSome

/-- Whether a node is a member access that reaches no target, although it is named
like one and its object has no known class. -/
def isUnresolved (setting : Setting) (t : SurveyedCode) : Bool :=
  match t.info.1.shape with
  | .member _ field =>
    !isUsage setting t && setting.targets.any (·.name == field)
      && (t.info.2.classOfFirst setting.symbols t.code.children).isNone
  | _ => false

def usageCount (setting : Setting) (parts : List SurveyedCode) : Nat :=
  (subtreesOf parts).countP (isUsage setting)

def unresolvedCount (setting : Setting) (parts : List SurveyedCode) : Nat :=
  (subtreesOf parts).countP (isUnresolved setting)

mutual

def hoistCount (setting : Setting) (ancestors : List CodeNode) : SurveyedCode → Nat
  | .node x parts =>
    hoistCounts setting (x.1 :: ancestors) parts +
      (hoistAt setting ancestors (.node x parts)).isSome.toNat

def hoistCounts (setting : Setting) (ancestors : List CodeNode) : List SurveyedCode → Nat
  | [] => 0
  | t :: ts => hoistCount setting ancestors t + hoistCounts setting ancestors ts

end

/-- Usages, unresolved members and helper statements. -/
@[ext] structure Tally where
  usages : Nat
  unresolved : Nat
  hoisted : Nat

namespace Tally

instance : Zero Tally := ⟨⟨0, 0, 0⟩⟩

instance : Add Tally :=
  ⟨fun a b => ⟨a.usages + b.usages, a.unresolved + b.unresolved, a.hoisted + b.hoisted⟩⟩

instance : AddCommMonoid Tally where
  add_assoc a b c := by ext <;> exact Nat.add_assoc ..
  zero_add a := by ext <;> exact Nat.zero_add _
  add_zero a := by ext <;> exact Nat.add_zero _
  add_comm a b := by ext <;> exact Nat.add_comm ..
  nsmul := nsmulRec

@[simp] theorem zero_usages : (0 : Tally).usages = 0 := rfl
@[simp] theorem zero_unresolved : (0 : Tally).unresolved = 0 := rfl
@[simp] theorem zero_hoisted : (0 : Tally).hoisted = 0 := rfl
@[simp] theorem add_usages (a b : Tally) : (a + b).usages = a.usages + b.usages := rfl
@[simp] theorem add_unresolved (a b : Tally) :
    (a + b).unresolved = a.unresolved + b.unresolved := rfl
@[simp] theorem add_hoisted (a b : Tally) : (a + b).hoisted = a.hoisted + b.hoisted := rfl

end Tally

def Stats.tally (stats : Stats) : Tally :=
  ⟨stats.reads + stats.writes + stats.unsupported + stats.escapes, stats.unresolved, stats.hoisted⟩

def tallyOf (setting : Setting) (ancestors : List CodeNode) (parts : List SurveyedCode) : Tally :=
  ⟨usageCount setting parts, unresolvedCount setting parts, hoistCounts setting ancestors parts⟩

def ownTally (setting : Setting) (ancestors : List CodeNode) (t : SurveyedCode) : Tally :=
  ⟨(isUsage setting t).toNat, (isUnresolved setting t).toNat,
    (hoistAt setting ancestors t).isSome.toNat⟩

/-- A way to visit that is entered with the names `before`, leaves the names `after`
and counts `n`. -/
structure Counts (before after : Env) (n : Tally) (visit : Scan → Scan) : Prop where
  env : ∀ s, s.env = before → (visit s).env = after
  tally : ∀ s, s.env = before → (visit s).stats.tally = s.stats.tally + n

namespace Counts

variable {a b c : Env} {n n' : Tally} {f g : Scan → Scan}

theorem id : Counts a a 0 fun s => s :=
  ⟨fun _ h => h, fun _ _ => (add_zero _).symm⟩

theorem comp (hg : Counts b c n' g) (hf : Counts a b n f) :
    Counts a c (n + n') fun s => g (f s) := by
  constructor
  · intro s hs
    exact hg.env _ (hf.env s hs)
  · intro s hs
    rw [hg.tally _ (hf.env s hs), hf.tally s hs, add_assoc]

/-- A first step that counts nothing. -/
theorem after (hg : Counts b c n g) (hf : Counts a b 0 f) : Counts a c n fun s => g (f s) := by
  simpa only [zero_add] using hg.comp hf

/-- A last step that counts nothing. -/
theorem before (hf : Counts a b n f) (hg : Counts b c 0 g) : Counts a c n fun s => g (f s) := by
  simpa only [add_zero] using hg.comp hf

theorem of_eq (hf : Counts a b n f) (hn : n = n') : Counts a b n' f := by
  subst hn
  exact hf

/-- Only what happens under the names it is entered with matters. -/
theorem congr (hf : Counts a b n f) (h : ∀ s, s.env = a → g s = f s) : Counts a b n g := by
  constructor
  · intro s hs
    rw [h s hs, hf.env s hs]
  · intro s hs
    rw [h s hs, hf.tally s hs]

end Counts

def Quiet (f : Scan → Scan) : Prop :=
  ∀ s, (f s).env = s.env ∧ (f s).stats.tally = s.stats.tally

theorem Quiet.counts {f : Scan → Scan} (hf : Quiet f) (env : Env) : Counts env env 0 f := by
  constructor
  · intro s hs
    rw [(hf s).1, hs]
  · intro s _
    rw [(hf s).2, add_zero]

namespace Scan

variable (setting : Setting)

theorem quiet_push (e : Edit) : Quiet fun s => s.push e :=
  fun _ => ⟨rfl, rfl⟩

theorem quiet_close (depth stop : Nat) : Quiet fun s => s.close depth stop := by
  intro s
  simp only [close]
  split <;> exact ⟨rfl, rfl⟩

theorem quiet_openBlock (b : Boundary) : Quiet fun s => s.openBlock b := by
  intro s
  simp only [openBlock]
  split <;> exact ⟨rfl, rfl⟩

theorem quiet_noteDuplicate (offset : Nat) (u : Usage) (operation : Operation) :
    Quiet fun s => s.noteDuplicate setting offset u operation := by
  intro s
  simp only [noteDuplicate]
  split <;> exact ⟨rfl, rfl⟩

theorem counts_hoist (env : Env) (b : Boundary) (side : Side) (text : String) :
    Counts env env ⟨0, 0, 1⟩ fun s => s.hoist b side text := by
  constructor
  · intro s hs
    obtain ⟨henv, -⟩ := quiet_openBlock b s
    cases side <;> exact henv.trans hs
  · intro s _
    obtain ⟨-, htally⟩ := quiet_openBlock b s
    rw [← htally]
    cases side <;> rfl

theorem counts_count (env : Env) (operation : Operation) :
    Counts env env ⟨1, 0, 0⟩ fun s => s.count operation := by
  constructor
  · intro s hs
    cases operation <;> exact hs
  · intro s _
    have hsum : ∀ a b c d : Nat, a + 1 + b + c + d = a + b + c + d + 1 ∧
        a + (b + 1) + c + d = a + b + c + d + 1 := by omega
    cases operation <;> (ext <;> first | rfl | exact (hsum ..).1 | exact (hsum ..).2)

theorem counts_reportRefusal (env : Env) (offset : Nat) (target : Target)
    (operation : Operation) (reason : Refusal) :
    Counts env env ⟨1, 0, 0⟩ fun s => s.reportRefusal setting offset target operation reason := by
  refine ⟨fun _ hs => hs, fun s _ => ?_⟩
  have hsum : ∀ a b c d : Nat, a + b + (c + 1) + d = a + b + c + d + 1 := by omega
  ext
  · exact hsum ..
  · rfl
  · rfl

theorem counts_reportEscape (env : Env) (offset : Nat) (target : Target) (how : String) :
    Counts env env ⟨1, 0, 0⟩ fun s => s.reportEscape setting offset target how :=
  ⟨fun _ hs => hs, fun _ _ => rfl⟩

theorem counts_pushScope (env : Env) : Counts env env.pushScope 0 pushScope :=
  ⟨fun s hs => by rw [← hs]; rfl, fun _ _ => (add_zero _).symm⟩

theorem counts_popScope (env : Env) : Counts env env.popScope 0 popScope :=
  ⟨fun s hs => by rw [← hs]; rfl, fun _ _ => (add_zero _).symm⟩

theorem counts_declare (env : Env) (v : Var) (initClass : Option String) :
    Counts env (env.declare setting.symbols v.name v.type initClass) 0
      fun s => s.declare setting v initClass :=
  ⟨fun s hs => by rw [← hs]; rfl, fun _ _ => (add_zero _).symm⟩

theorem counts_declareAll (env : Env) (vs : List Var) :
    Counts env (env.declareVars setting.symbols vs) 0 fun s => s.declareAll setting vs := by
  induction vs generalizing env with
  | nil => exact Counts.id
  | cons v vs ih => exact (ih _).after (counts_declare setting env v none)

/-- Rendering visits once and counts nothing of its own. -/
theorem counts_render {a b : Env} {n : Tally} {visit : Scan → Scan} (span : Span)
    (h : Counts a b n visit) : Counts a b n fun s => (s.render setting span visit).1 := by
  have same : ∀ s : Scan, (s.render setting span visit).1.env =
        (visit { s with queue := [] }).env ∧
      (s.render setting span visit).1.stats = (visit { s with queue := [] }).stats := by
    intro s
    simp only [render]
    split <;> exact ⟨rfl, rfl⟩
  constructor
  · intro s hs
    rw [(same s).1]
    exact h.env _ hs
  · intro s hs
    rw [(same s).2]
    exact h.tally { s with queue := [] } hs

theorem counts_renderRight {a b : Env} {n : Tally} (right : Option RightSide)
    (h : Counts a b n fun s => s.visitRight right) :
    Counts a b n fun s => (s.renderRight setting right).1 := by
  cases right with
  | none => exact h
  | some right => exact counts_render setting right.code.span h

/-- A plan with a helper statement is counted as one. -/
theorem counts_apply (env : Env) (site : CodeNode) (ancestors : List CodeNode)
    (operation : Operation) (b : Option Boundary) (plan : Plan) :
    Counts env env ⟨1, 0, (plan.helper.isSome && b.isSome).toNat⟩
      fun s => s.apply site ancestors operation b plan := by
  have replaced : ∀ span, Counts env env ⟨1, 0, 0⟩ fun s =>
      (s.push (.replace span plan.replacement)).count operation :=
    fun span => (counts_count env operation).after ((quiet_push _).counts env)
  unfold apply
  cases hplan : plan.helper with
  | none => exact replaced site.span
  | some helper =>
    cases b with
    | none => exact replaced _
    | some b => exact (counts_hoist env b helper.1 helper.2).comp (replaced _)

end Scan
def Strategy.isHoist : Strategy → Bool
  | .hoist _ => true
  | _ => false

def isHoisted (source : List Char) (site : CodeNode) (ancestors : List CodeNode)
    (operation : Operation) : Bool :=
  match boundary source site ancestors with
  | some b => (Strategy.choose operation (some b.position)).isHoist
  | none => false

/-- Reads need no boundary, and are never hoisted. -/
theorem isHoist_choose (source : List Char) (site : CodeNode) (ancestors : List CodeNode)
    (operation : Operation) :
    (Strategy.choose operation (Option.map Boundary.position (match operation with
      | .read => none
      | _ => boundary source site ancestors))).isHoist =
      isHoisted source site ancestors operation := by
  unfold isHoisted
  cases hb : boundary source site ancestors with
  | none => cases operation <;> rfl
  | some b => cases operation <;> rfl

/-- A helper statement is made, with a boundary at hand, exactly for a write that is
hoisted. -/
theorem isSome_helper (source : List Char) (site : CodeNode) (ancestors : List CodeNode)
    (operation : Operation) (base : String) (isArrow : Bool) (field : String)
    (operand : Option Operand) :
    ((Plan.make (Accesses.of base isArrow field operation operand)
      (Strategy.choose operation (Option.map Boundary.position (match operation with
        | .read => none
        | _ => boundary source site ancestors)))).helper.isSome &&
      Option.isSome (match operation with
        | .read => none
        | _ => boundary source site ancestors)) =
      isHoisted source site ancestors operation := by
  unfold isHoisted
  cases hb : boundary source site ancestors with
  | none => cases operation <;> rfl
  | some b =>
    cases operation with
    | read => rfl
    | assign =>
      simp only [Option.map_some, Option.isSome_some, Bool.and_true]
      cases Strategy.choose .assign (some b.position) <;> rfl
    | compound op =>
      simp only [Option.map_some, Option.isSome_some, Bool.and_true]
      cases Strategy.choose (.compound op) (some b.position) <;> rfl
    | step op fixity =>
      simp only [Option.map_some, Option.isSome_some, Bool.and_true]
      cases Strategy.choose (.step op fixity) (some b.position) <;> rfl

namespace Scan

variable (setting : Setting)

/-- A usage that is rewritten or refused is counted once, its object and its right-hand
side are visited once, and its helper statement is counted if it has one. -/
theorem counts_rewriteSite {a b c : Env} {n n' : Tally} {visitBase : Scan → Scan}
    (right : Option RightSide) (site : CodeNode) (ancestors : List CodeNode) (u : Usage)
    (operation : Operation) (hbase : Counts a b n visitBase)
    (hright : Counts b c n' fun s => s.visitRight right) :
    Counts a c (n + n' + ⟨1, 0, (isHoisted setting.file.source site ancestors operation).toNat⟩)
      fun s => s.rewriteSite setting site ancestors u operation visitBase right := by
  unfold rewriteSite
  simp only
  split
  · rename_i reason hrefuse
    have hnot : isHoisted setting.file.source site ancestors operation = false :=
      (isHoist_choose setting.file.source site ancestors operation).symm.trans
        (congrArg Strategy.isHoist hrefuse)
    refine (hright.comp (hbase.comp (counts_reportRefusal setting a _ _ _ _))).of_eq ?_
    rw [hnot, add_assoc, add_comm]
    rfl
  · -- the accesses are built from what is rendered, which does not change the counters
    have hnote := (quiet_noteDuplicate setting site.span.start u operation).counts a
    have hrendered := (counts_renderRight setting right hright).comp
      ((counts_render setting u.base.span hbase).after hnote)
    constructor
    · intro s hs
      rw [(counts_apply c site ancestors operation _ _).env _ (hrendered.env s hs)]
    · intro s hs
      rw [(counts_apply c site ancestors operation _ _).tally _ (hrendered.env s hs),
        hrendered.tally s hs]
      have hhelper := isSome_helper setting.file.source site ancestors operation
      exact (congrArg (fun k : Bool => s.stats.tally + (n + n') + ⟨1, 0, k.toNat⟩)
        (hhelper _ u.isArrow u.target.name _)).trans (add_assoc ..)

end Scan

section Survey

variable (setting : Setting)

theorem usageCount_append (ts us : List SurveyedCode) :
    usageCount setting (ts ++ us) = usageCount setting ts + usageCount setting us := by
  simp [usageCount, subtreesOf_append]

theorem unresolvedCount_append (ts us : List SurveyedCode) :
    unresolvedCount setting (ts ++ us) =
      unresolvedCount setting ts + unresolvedCount setting us := by
  simp [unresolvedCount, subtreesOf_append]

theorem hoistCounts_append (ancestors : List CodeNode) (ts us : List SurveyedCode) :
    hoistCounts setting ancestors (ts ++ us) =
      hoistCounts setting ancestors ts + hoistCounts setting ancestors us := by
  induction ts with
  | nil => simp [hoistCounts]
  | cons t ts ih => simp only [List.cons_append, hoistCounts, ih, Nat.add_assoc]

theorem tallyOf_append (ancestors : List CodeNode) (ts us : List SurveyedCode) :
    tallyOf setting ancestors (ts ++ us) =
      tallyOf setting ancestors ts + tallyOf setting ancestors us := by
  ext
  · exact usageCount_append setting ts us
  · exact unresolvedCount_append setting ts us
  · exact hoistCounts_append setting ancestors ts us

theorem tallyOf_cons (ancestors : List CodeNode) (t : SurveyedCode) (ts : List SurveyedCode) :
    tallyOf setting ancestors (t :: ts) =
      tallyOf setting ancestors [t] + tallyOf setting ancestors ts :=
  tallyOf_append setting ancestors [t] ts

/-- A node adds what it is itself to what its parts come to. -/
theorem tallyOf_node (ancestors : List CodeNode) (x : CodeNode × Env) (parts : List SurveyedCode) :
    tallyOf setting ancestors [.node x parts] =
      tallyOf setting (x.1 :: ancestors) parts + ownTally setting ancestors (.node x parts) := by
  have hlast : ∀ b : Bool, (if b then 1 else 0) = b.toNat := by decide
  ext
  · simp [tallyOf, ownTally, usageCount, subtreesOf, subtrees, List.countP_cons, hlast]
  · simp [tallyOf, ownTally, unresolvedCount, subtreesOf, subtrees, List.countP_cons, hlast]
  · simp [tallyOf, ownTally, hoistCounts, hoistCount]

/-- An access is seen as a usage where the survey says that it reaches a target. -/
theorem usage?_member {i : CodeNode} {isArrow : Bool} {field : String}
    (hi : i.shape = .member isArrow field) (env : Env) (cs : List Code) :
    (usage? setting env (.node i cs)).isSome =
      isUsage setting (survey setting.symbols env (.node i cs)).1 := by
  have hp : i.isParen = false := by simp [CodeNode.isParen, hi]
  rw [isUsage, reached?_survey]
  simp only [usage?, Code.unparen, Tree.skip, hp, Bool.false_eq_true, if_false, hi]
  cases cs with
  | nil => simp [Env.resolveMember, Code.shape, hi, Env.classOfFirst]
  | cons base rest =>
    cases env.resolveMember setting.symbols (.node i (base :: rest)) <;> simp

/-- Only accesses count as usages. -/
theorem not_isUsage {i : CodeNode} (h : ∀ isArrow field, i.shape ≠ .member isArrow field)
    (env : Env) (parts : List SurveyedCode) : isUsage setting (.node (i, env) parts) = false := by
  simp only [isUsage, reached?, info_node, SurveyedCode.code_node, Env.resolveMember,
    Code.shape, Option.bind_none, Option.isSome_none]

theorem not_isUnresolved {i : CodeNode} (h : ∀ isArrow field, i.shape ≠ .member isArrow field)
    (env : Env) (parts : List SurveyedCode) :
    isUnresolved setting (.node (i, env) parts) = false := by
  simp only [isUnresolved, info_node]

theorem isSome_hoistAt (ancestors : List CodeNode) (t : SurveyedCode) :
    (hoistAt setting ancestors t).isSome = (write? setting t).any fun w =>
      isHoisted setting.file.source t.info.1 ancestors w.2 := by
  unfold hoistAt isHoisted
  cases write? setting t with
  | none => rfl
  | some w =>
    cases boundary setting.file.source t.info.1 ancestors with
    | none => rfl
    | some b =>
      simp only [Option.bind_eq_bind, Option.bind_some, Option.any_some]
      cases Strategy.choose w.2 (some b.position) <;> rfl

/-- Only assignments and steps write. -/
theorem write?_other {i : CodeNode} (hassign : ∀ op, i.shape ≠ .assign op)
    (hstep : ∀ op fixity, i.shape ≠ .step op fixity) (env : Env) (parts : List SurveyedCode) :
    write? setting (.node (i, env) parts) = none := by
  unfold write?
  split
  · rename_i hshape _
    exact absurd hshape (hassign _)
  · rename_i hshape _
    exact absurd hshape (hstep _ _)
  · rfl

theorem hoistAt_other {i : CodeNode} (hassign : ∀ op, i.shape ≠ .assign op)
    (hstep : ∀ op fixity, i.shape ≠ .step op fixity) (ancestors : List CodeNode) (env : Env)
    (parts : List SurveyedCode) : hoistAt setting ancestors (.node (i, env) parts) = none := by
  rw [hoistAt, write?_other setting hassign hstep]
  rfl

/-- A node that is neither an access nor a write adds nothing. -/
theorem ownTally_other {i : CodeNode} (hmember : ∀ isArrow field, i.shape ≠ .member isArrow field)
    (hassign : ∀ op, i.shape ≠ .assign op) (hstep : ∀ op fixity, i.shape ≠ .step op fixity)
    (ancestors : List CodeNode) (env : Env) (parts : List SurveyedCode) :
    ownTally setting ancestors (.node (i, env) parts) = 0 := by
  rw [ownTally, not_isUsage setting hmember, not_isUnresolved setting hmember,
    hoistAt_other setting hassign hstep]
  rfl

/-- What a write adds, given the usage it writes to. -/
theorem ownTally_write {i : CodeNode} (hmember : ∀ isArrow field, i.shape ≠ .member isArrow field)
    (ancestors : List CodeNode) (env : Env) (parts : List SurveyedCode)
    {w : Option (Usage × Operation)} (hw : write? setting (.node (i, env) parts) = w) :
    ownTally setting ancestors (.node (i, env) parts) =
      ⟨0, 0, (w.any fun w => isHoisted setting.file.source i ancestors w.2).toNat⟩ := by
  rw [ownTally, not_isUsage setting hmember, not_isUnresolved setting hmember, isSome_hoistAt, hw]
  rfl

end Survey

section Visit

variable {setting : Setting}

def VisitCounts (setting : Setting) (c : Code) : Prop :=
  ∀ env ancestors, Counts env (survey setting.symbols env c).2
    (tallyOf setting ancestors [(survey setting.symbols env c).1]) (visit setting ancestors c)

def BaseCounts (setting : Setting) (c : Code) : Prop :=
  ∀ env ancestors, (usage? setting env c).isSome →
    ∃ n, tallyOf setting ancestors [(survey setting.symbols env c).1] = n + ⟨1, 0, 0⟩ ∧
      Counts env (survey setting.symbols env c).2 n (visitBase setting ancestors c)

/-- One part after the other. -/
theorem counts_cons {a b c : Env} {ancestors : List CodeNode} {t : SurveyedCode}
    {ts : List SurveyedCode} {f g : Scan → Scan}
    (hf : Counts a b (tallyOf setting ancestors [t]) f)
    (hg : Counts b c (tallyOf setting ancestors ts) g) :
    Counts a c (tallyOf setting ancestors (t :: ts)) fun s => g (f s) := by
  rw [tallyOf_cons]
  exact hg.comp hf

theorem counts_visitAll {cs : List Code} (hcs : ∀ c ∈ cs, VisitCounts setting c) (env : Env)
    (ancestors : List CodeNode) :
    Counts env (surveyAll setting.symbols env cs).2
      (tallyOf setting ancestors (surveyAll setting.symbols env cs).1)
      (visitAll setting ancestors cs) := by
  induction cs generalizing env with
  | nil => exact Counts.id
  | cons c cs ih =>
    have hfirst := hcs c (List.mem_cons_self ..) env ancestors
    have hrest := ih fun d hd => hcs d (List.mem_cons_of_mem _ hd)
    refine (counts_cons hfirst (hrest _)).congr fun s _ => ?_
    rw [visitAll]

theorem counts_visitParams {cs : List Code} (hcs : ∀ c ∈ cs, VisitCounts setting c)
    (params : List Var) (env : Env) (ancestors : List CodeNode) :
    Counts env (surveyParams setting.symbols params env cs).2
      (tallyOf setting ancestors (surveyParams setting.symbols params env cs).1)
      (visitParams setting ancestors params cs) := by
  induction cs generalizing params env with
  | nil => exact Scan.counts_declareAll setting env params
  | cons c cs ih =>
    have hlater : ∀ d ∈ cs, VisitCounts setting d := fun d hd => hcs d (List.mem_cons_of_mem _ hd)
    have hfirst := (hcs c (List.mem_cons_self ..) _ ancestors).after
      (Scan.counts_declareAll setting env (params.takeWhile (!·.isInitialized)))
    simp only [surveyParams]
    cases hdrop : params.dropWhile (!·.isInitialized) with
    | nil =>
      refine (counts_cons hfirst (counts_visitAll hlater _ ancestors)).congr fun s _ => ?_
      rw [visitParams]
      simp only [hdrop]
    | cons v later =>
      refine (counts_cons hfirst
        ((ih hlater later _).after (Scan.counts_declare setting _ v none))).congr fun s _ => ?_
      rw [visitParams]
      simp only [hdrop]

/-- The initializer of a variable, whether or not the variable is a reference through
which a target escapes. -/
theorem counts_initializer {c : Code} (hvisit : VisitCounts setting c)
    (hbase : BaseCounts setting c) (env : Env) (ancestors : List CodeNode) (v : Var) :
    Counts env (survey setting.symbols env c).2
      (tallyOf setting ancestors [(survey setting.symbols env c).1])
      fun s => match usage? setting s.env c with
        | some u =>
          if v.type.isMutableReference then
            visitBase setting ancestors c (s.reportEscape setting c.span.start u.target
              "it is bound to a non-const reference")
          else
            visit setting ancestors c s
        | none => visit setting ancestors c s := by
  cases hu : usage? setting env c with
  | none =>
    refine (hvisit env ancestors).congr fun s hs => ?_
    rw [hs, hu]
  | some u =>
    by_cases href : v.type.isMutableReference
    · obtain ⟨n, hn, hcounts⟩ := hbase env ancestors (by rw [hu]; rfl)
      refine ((hcounts.comp (Scan.counts_reportEscape setting env c.span.start u.target
        "it is bound to a non-const reference")).congr fun s hs => ?_).of_eq ?_
      · rw [hs, hu]
        simp only [href, if_true]
      · rw [hn, add_comm]
    · refine (hvisit env ancestors).congr fun s hs => ?_
      rw [hs, hu]
      simp only [href, Bool.false_eq_true, if_false]

theorem counts_visitVars {cs : List Code} (hcs : ∀ c ∈ cs, VisitCounts setting c)
    (hbase : ∀ c ∈ cs, BaseCounts setting c) (vars : List Var) (env : Env)
    (ancestors : List CodeNode) :
    Counts env (surveyVars setting.symbols vars env cs).2
      (tallyOf setting ancestors (surveyVars setting.symbols vars env cs).1)
      (visitVars setting ancestors vars cs) := by
  induction cs generalizing vars env with
  | nil => exact Scan.counts_declareAll setting env vars
  | cons c cs ih =>
    have hlater : ∀ d ∈ cs, VisitCounts setting d := fun d hd => hcs d (List.mem_cons_of_mem _ hd)
    have hdeclared := Scan.counts_declareAll setting env (vars.takeWhile (!·.isInitialized))
    simp only [surveyVars]
    cases hdrop : vars.dropWhile (!·.isInitialized) with
    | nil =>
      have hfirst := (hcs c (List.mem_cons_self ..) _ ancestors).after hdeclared
      refine (counts_cons hfirst (counts_visitAll hlater _ ancestors)).congr fun s _ => ?_
      rw [visitVars]
      simp only [hdrop]
    | cons v later =>
      have hfirst := (counts_initializer (hcs c (List.mem_cons_self ..))
        (hbase c (List.mem_cons_self ..)) _ ancestors v).after hdeclared
      have hrest := ih hlater (fun d hd => hbase d (List.mem_cons_of_mem _ hd)) later
      refine (counts_cons hfirst
        ((hrest _).after (Scan.counts_declare setting _ v _))).congr fun s hs => ?_
      rw [visitVars]
      cases hu : usage? setting (env.declareVars setting.symbols
          (vars.takeWhile (!·.isInitialized))) c with
      | none => simp only [hdrop, hdeclared.env s hs, hu]
      | some u => simp only [hdrop, hdeclared.env s hs, hu]

theorem counts_visitLoop {cs : List Code} (hcs : ∀ c ∈ cs, VisitCounts setting c)
    (element : Option Var) (range : Option Code) (env : Env) (ancestors : List CodeNode) :
    Counts env (surveyLoop setting.symbols element range env cs).2
      (tallyOf setting ancestors (surveyLoop setting.symbols element range env cs).1)
      (visitLoop setting ancestors element range cs) := by
  induction cs generalizing range env with
  | nil => exact Counts.id
  | cons c cs ih =>
    have hc := hcs c (List.mem_cons_self ..)
    have hlater : ∀ d ∈ cs, VisitCounts setting d := fun d hd => hcs d (List.mem_cons_of_mem _ hd)
    rw [surveyLoop.eq_def]
    simp only
    split
    · rename_i hrole
      cases element with
      | none =>
        refine (counts_cons (hc env ancestors) (counts_visitAll hlater _ ancestors)).congr
          fun s _ => ?_
        rw [visitLoop.eq_def]
        simp only [hrole]
      | some v =>
        have hdeclared := Scan.counts_declare setting env v
          (range.bind (env.elementClass setting.symbols))
        refine (counts_cons ((hc _ ancestors).after hdeclared)
          (counts_visitAll hlater _ ancestors)).congr fun s hs => ?_
        rw [visitLoop.eq_def]
        simp only [hrole, hs]
    · rename_i hrole
      refine (counts_cons (hc env ancestors) (ih hlater (some c) _)).congr fun s _ => ?_
      rw [visitLoop.eq_def]
      simp only [hrole]
    · refine (counts_cons (hc env ancestors) (ih hlater range _)).congr fun s _ => ?_
      rw [visitLoop.eq_def]
      simp only

/-- A surveyed assignment is a write of the usage that is its left operand. -/
theorem write?_assign {i : CodeNode} {op : Option CompoundOp} (hi : i.shape = .assign op)
    (env : Env) {parts : List SurveyedCode} {left : Code} {rest : List Code}
    (hparts : parts.map SurveyedCode.code = left :: rest) :
    write? setting (.node (i, env) parts) =
      (usage? setting env left).map fun u => (u, .ofAssign op) := by
  simp only [write?, info_node, hi, SurveyedCode.code_node, children_node, hparts]

/-- A surveyed step is a write of the usage that is its operand. -/
theorem write?_step {i : CodeNode} {op : StepOp} {fixity : Fixity} (hi : i.shape = .step op fixity)
    (env : Env) {parts : List SurveyedCode} {operand : Code} {rest : List Code}
    (hparts : parts.map SurveyedCode.code = operand :: rest) :
    write? setting (.node (i, env) parts) =
      (usage? setting env operand).map fun u => (u, .step op fixity) := by
  simp only [write?, info_node, hi, SurveyedCode.code_node, children_node, hparts]

theorem counts_visitAssign {left right : Code} (hleft : VisitCounts setting left)
    (hbase : BaseCounts setting left) (hright : VisitCounts setting right) (env : Env)
    (ancestors : List CodeNode) {site : CodeNode} {op : Option CompoundOp}
    (hsite : site.shape = .assign op) :
    Counts env (surveyAll setting.symbols env [left, right]).2
      (tallyOf setting ancestors
        [.node (site, env) (surveyAll setting.symbols env [left, right]).1])
      (visitAssign setting ancestors site op [left, right]) := by
  have hr := hright (survey setting.symbols env left).2 (site :: ancestors)
  have hown := ownTally_write setting (by simp [hsite]) ancestors env
    (surveyAll setting.symbols env [left, right]).1
    (write?_assign hsite env (by simp only [surveyAll, List.map_cons, code_survey]; rfl))
  rw [tallyOf_node, hown]
  simp only [surveyAll]
  cases hu : usage? setting env left with
  | none =>
    refine ((counts_cons (hleft env (site :: ancestors)) hr).congr fun s hs => ?_).of_eq ?_
    · rw [visitAssign, hs, hu]
      simp only [visitAll]
    · exact (add_zero _).symm
  | some u =>
    obtain ⟨n, hn, hcounts⟩ := hbase env (site :: ancestors) (by rw [hu]; rfl)
    have hrewrite := Scan.counts_rewriteSite setting
      (some ⟨right, visit setting (site :: ancestors) right⟩) site ancestors u
      (.ofAssign op) hcounts hr
    refine (hrewrite.congr fun s hs => ?_).of_eq ?_
    · rw [visitAssign, hs, hu]
    · rw [tallyOf_cons setting _ _ [_], hn]
      ext
      · simp only [Tally.add_usages]
        omega
      · simp only [Tally.add_unresolved]
        omega
      · simp only [Tally.add_hoisted]
        rfl

theorem counts_visitStep {operand : Code} (hoperand : VisitCounts setting operand)
    (hbase : BaseCounts setting operand) (env : Env) (ancestors : List CodeNode)
    {site : CodeNode} {op : StepOp} {fixity : Fixity} (hsite : site.shape = .step op fixity) :
    Counts env (surveyAll setting.symbols env [operand]).2
      (tallyOf setting ancestors [.node (site, env) (surveyAll setting.symbols env [operand]).1])
      (visitStep setting ancestors site op fixity [operand]) := by
  have hown := ownTally_write setting (by simp [hsite]) ancestors env
    (surveyAll setting.symbols env [operand]).1
    (write?_step hsite env (by simp only [surveyAll, List.map_cons, code_survey]; rfl))
  rw [tallyOf_node, hown]
  simp only [surveyAll]
  cases hu : usage? setting env operand with
  | none =>
    refine ((hoperand env (site :: ancestors)).congr fun s hs => ?_).of_eq ?_
    · rw [visitStep, hs, hu]
      simp only [visitAll]
    · exact (add_zero _).symm
  | some u =>
    obtain ⟨n, hn, hcounts⟩ := hbase env (site :: ancestors) (by rw [hu]; rfl)
    have hrewrite := Scan.counts_rewriteSite setting none site ancestors u
      (.step op fixity) hcounts Counts.id
    refine (hrewrite.congr fun s hs => ?_).of_eq ?_
    · rw [visitStep, hs, hu]
    · rw [hn]
      ext
      · simp only [Tally.add_usages, Tally.zero_usages]
      · simp only [Tally.add_unresolved, Tally.zero_unresolved]
      · simp only [Tally.add_hoisted, Tally.zero_hoisted]
        rfl

theorem counts_visitAddressOf {operand : Code} (hoperand : VisitCounts setting operand)
    (hbase : BaseCounts setting operand) (env : Env) (ancestors : List CodeNode)
    (site : CodeNode) :
    Counts env (surveyAll setting.symbols env [operand]).2
      (tallyOf setting (site :: ancestors) (surveyAll setting.symbols env [operand]).1)
      (visitAddressOf setting ancestors site [operand]) := by
  simp only [surveyAll]
  cases hu : usage? setting env operand with
  | none =>
    refine (hoperand env (site :: ancestors)).congr fun s hs => ?_
    rw [visitAddressOf, hs, hu]
    simp only [visitAll]
  | some u =>
    obtain ⟨n, hn, hcounts⟩ := hbase env (site :: ancestors) (by rw [hu]; rfl)
    have hescape := Scan.counts_reportEscape setting env site.span.start u.target
      "its address is taken"
    refine ((hcounts.comp hescape).congr fun s hs => ?_).of_eq ?_
    · rw [visitAddressOf, hs, hu]
    · rw [hn, add_comm]

/-- A member that is no usage is unresolved where the survey says so. -/
theorem counts_reportUnresolved (setting : Setting) {i : CodeNode} {isArrow : Bool}
    {field : String} (hi : i.shape = .member isArrow field) (env : Env) (cs : List Code)
    (hnone : isUsage setting (survey setting.symbols env (.node i cs)).1 = false) :
    Counts env env
      ⟨0, (isUnresolved setting (survey setting.symbols env (.node i cs)).1).toNat, 0⟩
      fun s => s.reportUnresolved setting i.span field
        (s.env.classOfFirst setting.symbols cs) := by
  have hiff : isUnresolved setting (survey setting.symbols env (.node i cs)).1 =
      ((setting.targets.find? (·.name == field)).isSome &&
        (env.classOfFirst setting.symbols cs).isNone) := by
    simp only [isUnresolved, info_survey, hi, hnone, code_survey, children_node,
      List.isSome_find?, Bool.not_false, Bool.true_and]
  rw [hiff]
  constructor
  · intro s hs
    simp only [Scan.reportUnresolved]
    split <;> exact hs
  · intro s hs
    rw [hs]
    simp only [Scan.reportUnresolved]
    cases setting.targets.find? (·.name == field) with
    | none => exact (add_zero _).symm
    | some target =>
      cases env.classOfFirst setting.symbols cs with
      | none => rfl
      | some record => exact (add_zero _).symm

/-- A member access, whether it is a usage, an unresolved member or neither. -/
theorem counts_member {i : CodeNode} {isArrow : Bool} {field : String} {cs : List Code}
    (hi : i.shape = .member isArrow field) (hcs : ∀ c ∈ cs, VisitCounts setting c) (env : Env)
    (ancestors : List CodeNode) :
    Counts env (surveyAll setting.symbols env cs).2
      (tallyOf setting ancestors [.node (i, env) (surveyAll setting.symbols env cs).1])
      fun s => match usage? setting s.env (.node i cs) with
        | some u =>
          s.rewriteSite setting i ancestors u .read (visitAll setting (i :: ancestors) cs) none
        | none =>
          visitAll setting (i :: ancestors) cs
            (s.reportUnresolved setting i.span field (s.env.classOfFirst setting.symbols cs)) := by
  have hall := counts_visitAll hcs env (i :: ancestors)
  have hsurvey : (survey setting.symbols env (.node i cs)).1 =
      .node (i, env) (surveyAll setting.symbols env cs).1 := by
    rw [survey, hi]
  have hsome := usage?_member setting hi env cs
  have hun := counts_reportUnresolved setting hi env cs
  have hhoist := hoistAt_other setting (i := i) (by simp [hi]) (by simp [hi]) ancestors env
    (surveyAll setting.symbols env cs).1
  rw [hsurvey] at hsome hun
  rw [tallyOf_node, ownTally, hhoist]
  cases hu : usage? setting env (.node i cs) with
  | none =>
    rw [hu] at hsome
    refine ((hall.comp (hun hsome.symm)).congr fun s hs => ?_).of_eq ?_
    · rw [hs, hu]
    · rw [← hsome, add_comm]
      rfl
  | some u =>
    rw [hu] at hsome
    have hnot : isUnresolved setting (.node (i, env) (surveyAll setting.symbols env cs).1) =
        false := by
      simp only [isUnresolved, info_node, hi, ← hsome, Option.isSome_some, Bool.not_true,
        Bool.false_and]
    have hsite := Scan.counts_rewriteSite setting none i ancestors u .read hall Counts.id
    refine (hsite.congr fun s hs => ?_).of_eq ?_
    · rw [hs, hu]
    · have hread : isHoisted setting.file.source i ancestors .read = false := by
        unfold isHoisted
        cases boundary setting.file.source i ancestors <;> rfl
      rw [← hsome, hnot, hread, add_zero]
      rfl

/-- A node that is neither an access nor a write adds nothing to what its parts count. -/
theorem counts_node {a b : Env} {i : CodeNode} {ancestors : List CodeNode}
    {parts : List SurveyedCode} {f : Scan → Scan}
    (hmember : ∀ isArrow field, i.shape ≠ .member isArrow field)
    (hassign : ∀ op, i.shape ≠ .assign op) (hstep : ∀ op fixity, i.shape ≠ .step op fixity)
    (hf : Counts a b (tallyOf setting (i :: ancestors) parts) f) :
    Counts a b (tallyOf setting ancestors [.node (i, a) parts]) f := by
  refine hf.of_eq ?_
  rw [tallyOf_node, ownTally_other setting hmember hassign hstep, add_zero]

/-- The object of a usage inside parentheses. -/
theorem baseCounts_node {i : CodeNode} {cs : List Code} (hfull : Code.Full (.node i cs))
    (hvisit : ∀ c ∈ cs, VisitCounts setting c) (hbase : ∀ c ∈ cs, BaseCounts setting c) :
    BaseCounts setting (.node i cs) := by
  intro env ancestors hu
  by_cases hparen : i.shape = .paren
  · have hlen : cs.length = 1 := hfull 1 (by rw [Code.shape, info_node, hparen]; rfl)
    obtain ⟨c, rfl⟩ := List.length_eq_one_iff.mp hlen
    rw [usage?_paren setting hparen] at hu
    obtain ⟨n, hn, hcounts⟩ := hbase c (List.mem_singleton_self c) env (i :: ancestors) hu
    have hsurvey : survey setting.symbols env (.node i [c]) =
        (.node (i, env) [(survey setting.symbols env c).1], (survey setting.symbols env c).2) := by
      rw [survey, hparen]
      rfl
    rw [hsurvey]
    refine ⟨n, ?_, hcounts.congr fun s _ => ?_⟩
    · rw [tallyOf_node, ownTally_other setting (by simp [hparen]) (by simp [hparen])
        (by simp [hparen]), add_zero, hn]
    · rw [visitBase, hparen]
      rfl
  · by_cases hmember : ∃ isArrow field, i.shape = .member isArrow field
    · obtain ⟨isArrow, field, hi⟩ := hmember
      have hsurvey : survey setting.symbols env (.node i cs) =
          (.node (i, env) (surveyAll setting.symbols env cs).1,
            (surveyAll setting.symbols env cs).2) := by
        rw [survey, hi]
      have hhoist := hoistAt_other setting (i := i) (by simp [hi]) (by simp [hi]) ancestors env
        (surveyAll setting.symbols env cs).1
      rw [usage?_member setting hi, hsurvey] at hu
      rw [hsurvey]
      refine ⟨_, ?_, (counts_visitAll hvisit env (i :: ancestors)).congr fun s _ => ?_⟩
      · rw [tallyOf_node, ownTally, hhoist, hu]
        simp [isUnresolved, hi, hu]
      · rw [visitBase, hi]
    · have hother : ∀ isArrow field, i.shape ≠ .member isArrow field :=
        fun isArrow field h => hmember ⟨isArrow, field, h⟩
      rw [usage?_other setting hparen hother] at hu
      exact absurd hu (by simp)

theorem visitCounts_node {i : CodeNode} {cs : List Code} (hfull : Code.Full (.node i cs))
    (hvisit : ∀ c ∈ cs, VisitCounts setting c) (hbase : ∀ c ∈ cs, BaseCounts setting c) :
    VisitCounts setting (.node i cs) := by
  intro env ancestors
  -- closing a block that was put around a statement counts nothing
  have closed : ∀ {b : Env} {n : Tally} {f : Scan → Scan}, Counts env b n f →
      Counts env b n fun s => (f s).close ancestors.length i.span.stop :=
    fun {b _ _} hf => hf.before ((Scan.quiet_close _ _).counts b)
  have hlen : ∀ n, Code.arity? i.shape = some n → cs.length = n := hfull
  have hall := fun env => counts_visitAll hvisit env (i :: ancestors)
  have hscoped : ∀ {b : Env} {n : Tally} {f : Scan → Scan}, Counts env.pushScope b n f →
      Counts env b.popScope n fun s => (f s.pushScope).popScope :=
    fun hf => (hf.after (Scan.counts_pushScope env)).before (Scan.counts_popScope _)
  change Counts _ _ _ fun s => visit setting ancestors (.node i cs) s
  unfold visit survey
  cases hi : i.shape with
  | assign op =>
    obtain ⟨left, right, rfl⟩ := List.length_eq_two.mp (hlen 2 (by rw [hi]; rfl))
    exact counts_visitAssign (hvisit left (by simp)) (hbase left (by simp))
      (hvisit right (by simp)) env ancestors hi
  | step op fixity =>
    obtain ⟨operand, rfl⟩ := List.length_eq_one_iff.mp (hlen 1 (by rw [hi]; rfl))
    exact counts_visitStep (hvisit operand (by simp)) (hbase operand (by simp)) env ancestors hi
  | unary op =>
    refine counts_node (by simp [hi]) (by simp [hi]) (by simp [hi]) ?_
    cases op with
    | addressOf =>
      obtain ⟨operand, rfl⟩ := List.length_eq_one_iff.mp (hlen 1 (by rw [hi]; rfl))
      exact counts_visitAddressOf (hvisit operand (by simp)) (hbase operand (by simp)) env
        ancestors i
    | _ => exact hall env
  | member isArrow field => exact counts_member hi hvisit env ancestors
  | lambda params =>
    exact counts_node (by simp [hi]) (by simp [hi]) (by simp [hi])
      (hscoped (counts_visitParams hvisit params _ (i :: ancestors)))
  | declaration vars =>
    exact closed (counts_node (by simp [hi]) (by simp [hi]) (by simp [hi])
      (counts_visitVars hvisit hbase vars env (i :: ancestors)))
  | loop kind element =>
    exact closed (counts_node (by simp [hi]) (by simp [hi]) (by simp [hi])
      (hscoped (counts_visitLoop hvisit element none _ (i :: ancestors))))
  | block | branch | switch =>
    exact closed (counts_node (by simp [hi]) (by simp [hi]) (by simp [hi]) (hscoped (hall _)))
  | exprStmt | returnStmt | throwStmt | caseLabel | otherStmt =>
    exact closed (counts_node (by simp [hi]) (by simp [hi]) (by simp [hi]) (hall env))
  | _ => exact counts_node (by simp [hi]) (by simp [hi]) (by simp [hi]) (hall env)

/-- Visiting code in which every node has its parts. -/
theorem visitCounts (setting : Setting) (c : Code) (hfull : Everywhere Code.Full c) :
    VisitCounts setting c := by
  have both : VisitCounts setting c ∧ BaseCounts setting c := by
    induction c using Tree.inductionOn with
    | h i cs ih =>
      have hcs : ∀ c ∈ cs, VisitCounts setting c ∧ BaseCounts setting c :=
        fun c hc => ih c hc (hfull.child hc)
      exact ⟨visitCounts_node hfull.here (fun c hc => (hcs c hc).1) fun c hc => (hcs c hc).2,
        baseCounts_node hfull.here (fun c hc => (hcs c hc).1) fun c hc => (hcs c hc).2⟩
  exact both.1

end Visit

section Scan

variable (setting : Setting)

def surveyFunctions (symbols : Symbols) (fs : List Function) : List SurveyedCode :=
  fs.filterMap (surveyFunction symbols)

theorem scanFunction_counts (s : Scan) (f : Function)
    (hfull : ∀ b, f.body = some b → Everywhere Code.Full b) :
    (scanFunction setting s f).stats.tally =
      s.stats.tally + tallyOf setting [] (surveyFunctions setting.symbols [f]) := by
  cases hb : f.body with
  | none =>
    have hsurvey : surveyFunctions setting.symbols [f] = [] := by
      simp [surveyFunctions, surveyFunction, hb]
    rw [hsurvey, scanFunction, hb]
    exact (add_zero _).symm
  | some body =>
    have hsurvey : surveyFunctions setting.symbols [f] =
        [(survey setting.symbols (Env.enter setting.symbols f) body).1] := by
      simp [surveyFunctions, surveyFunction, hb]
    have hcounts := visitCounts setting body (hfull body hb) (Env.enter setting.symbols f) []
    rw [hsurvey, scanFunction, hb]
    exact hcounts.tally { s with env := Env.enter setting.symbols f } rfl

/-- One function after the other: the tally of a list is that of its members. -/
theorem scan_counts (fs : List Function)
    (hfull : ∀ f ∈ fs, ∀ b, f.body = some b → Everywhere Code.Full b) (s : Scan) :
    (fs.foldl (scanFunction setting) s).stats.tally =
      s.stats.tally + tallyOf setting [] (surveyFunctions setting.symbols fs) := by
  induction fs generalizing s with
  | nil => exact (add_zero _).symm
  | cons f fs ih =>
    have hsplit : surveyFunctions setting.symbols (f :: fs) =
        surveyFunctions setting.symbols [f] ++ surveyFunctions setting.symbols fs := by
      rw [surveyFunctions, ← List.singleton_append, List.filterMap_append]
      rfl
    have hfirst := scanFunction_counts setting s f (hfull f (List.mem_cons_self ..))
    have hrest := ih (fun g hg => hfull g (List.mem_cons_of_mem _ hg)) (scanFunction setting s f)
    rw [List.foldl_cons, hrest, hfirst, hsplit, tallyOf_append, add_assoc]

/-- Bodies of functions of a file are read from its tree, so every node has its parts. -/
theorem full_body {path : String} {source : List Char} {parsed : Parsed} {f : Function}
    (hf : f ∈ (SourceFile.ofParsed path source parsed).functions) {b : Code}
    (hb : f.body = some b) : Everywhere Code.Full b := by
  have hmem : b ∈ Decl.bodiesOf (SourceFile.ofParsed path source parsed).decls :=
    List.mem_filterMap.mpr ⟨f, hf, hb⟩
  obtain ⟨v, -, rfl⟩ := (SourceFile.placed_ofParsed path source parsed).body b hmem
  exact Code.full_read source .body v

/-- Every node of a surveyed body has its parts. -/
theorem full_of_at? {symbols : Symbols} {fs : List Function}
    (hfull : ∀ f ∈ fs, ∀ b, f.body = some b → Everywhere Code.Full b) {body t : SurveyedCode}
    (hbody : body ∈ surveyFunctions symbols fs) {p : List Nat}
    (ht : body.at? p = some t) : Everywhere Code.Full t.code := by
  obtain ⟨f, hf, hsurvey⟩ := List.mem_filterMap.mp hbody
  obtain ⟨b, hb, rfl⟩ := Option.map_eq_some_iff.mp hsurvey
  refine (hfull f hf b hb).of_mem ?_
  rw [← code_survey symbols (Env.enter symbols f) b, SurveyedCode.code, SurveyedCode.code,
    subtrees_map]
  exact List.mem_map_of_mem (mem_subtrees_of_at? ht)

theorem code_surveyFunctions (symbols : Symbols) (fs : List Function) :
    (surveyFunctions symbols fs).map SurveyedCode.code = fs.filterMap (·.body) := by
  have hone : ∀ f : Function,
      (surveyFunction symbols f).map SurveyedCode.code = f.body := by
    intro f
    cases hb : f.body with
    | none => simp [surveyFunction, hb]
    | some body => simp [surveyFunction, hb, code_survey]
  simp only [surveyFunctions, List.map_filterMap, hone]

end Scan

/-- A search counts every member access that reaches a target once, as a read, a write,
an unsupported usage or an escape, and every other member that is named like a target on
an object without a known class once as unresolved. The accesses are those of the
surveyed bodies, and a survey has exactly the nodes of its body. -/
theorem scan_counts_each_usage_once (path : String) (source : List Char) (parsed : Parsed)
    (symbols : Symbols) (targets : List Target) (fs : List Function)
    (hfs : ∀ f ∈ fs, f ∈ (SourceFile.ofParsed path source parsed).functions) :
    let setting : Setting := ⟨.ofParsed path source parsed, symbols, targets⟩
    let stats := (scan setting fs).stats
    let nodes := subtreesOf (surveyFunctions symbols fs)
    stats.reads + stats.writes + stats.unsupported + stats.escapes =
        nodes.countP (isUsage setting) ∧
      stats.unresolved = nodes.countP (isUnresolved setting) ∧
      nodes.map SurveyedCode.code = subtreesOf (fs.filterMap (·.body)) := by
  intro setting stats nodes
  have hfull : ∀ f ∈ fs, ∀ b, f.body = some b → Everywhere Code.Full b :=
    fun f hf b hb => full_body (hfs f hf) hb
  have htally := scan_counts setting fs hfull {}
  refine ⟨?_, ?_, ?_⟩
  · exact (congrArg Tally.usages htally).trans (Nat.zero_add _)
  · exact (congrArg Tally.unresolved htally).trans (Nat.zero_add _)
  · rw [← code_surveyFunctions symbols fs]
    exact (subtreesOf_map Prod.fst (surveyFunctions symbols fs)).symm

section Example

open ParseTree

/-- A function with the statement `a.x=b.x;`. -/
def copyTree : ParseTree :=
  unitTree 37 [named "expression_statement" 29 37
    [named "assignment_expression" 29 36 [accessTree "left" 29, accessTree "right" 33]]]

def copyFile : SourceFile :=
  .ofParsed "copy.cpp" (unitText "a.x=b.x;") ⟨copyTree, false⟩

/-- The object `a` has the class `F` and the name `b` is unknown: one usage is counted, as
a write, and one unresolved member. -/
theorem scan_counts_copy :
    (∀ f ∈ copyFile.functions, f ∈ copyFile.functions) ∧
      let stats := (scan (.ofUnit ["F::x"] ⟨copyFile, []⟩) copyFile.functions).stats
      stats.reads + stats.writes + stats.unsupported + stats.escapes = 1 ∧
        stats.unresolved = 1 := by
  have hsetting : Setting.ofUnit ["F::x"] ⟨copyFile, []⟩ =
      ⟨.ofParsed "copy.cpp" (unitText "a.x=b.x;") ⟨copyTree, false⟩, .ofUnit ⟨copyFile, []⟩,
        (select ["F::x"] ⟨copyFile, []⟩).targets⟩ := rfl
  obtain ⟨husages, hunresolved, -⟩ := scan_counts_each_usage_once "copy.cpp"
    (unitText "a.x=b.x;") ⟨copyTree, false⟩ (.ofUnit ⟨copyFile, []⟩)
    (select ["F::x"] ⟨copyFile, []⟩).targets copyFile.functions fun _ hf => hf
  rw [hsetting]
  refine ⟨fun _ hf => hf, ?_, ?_⟩
  · rw [husages]
    decide
  · rw [hunresolved]
    decide

end Example

end Encapsulate.Accessors
