import Encapsulate.Proofs.Conservation

/-!
A search as a list of actions. What a search does to its state, the names in force apart,
depends on the surveyed code only: it reports, it rewrites or refuses the usages it comes
to, and it closes blocks. The actions of surveyed code are listed without running the
search, and visiting the code carries them out one after the other. The usages among them
are the writes of the code and the accesses that nothing around them holds.
-/

namespace Encapsulate.Accessors

open Cpp Encapsulate.Tree

/-- A usage that a search comes to, to rewrite it or to refuse it. -/
structure Site where
  node : CodeNode
  ancestors : List CodeNode
  usage : Usage
  operation : Operation

/-- One thing that a search does. -/
inductive Action where
  | unresolved (span : Span) (field : String) (objectClass : Option String)
  | escape (offset : Nat) (target : Target) (how : String)
  /-- A usage, with what is done to its object and to its right-hand side. -/
  | site (site : Site) (base : List Action) (right : Option Code) (inRight : List Action)
  | close (depth stop : Nat)

def strategyAt (source : List Char) (site : CodeNode) (ancestors : List CodeNode)
    (operation : Operation) : Strategy :=
  Strategy.choose operation ((boundary source site ancestors).map Boundary.position)

namespace Scan

variable {setting : Setting} {site : CodeNode} {ancestors : List CodeNode}
  {operation : Operation}

/-- A usage that is refused is reported, and its parts are visited. -/
theorem rewriteSite_of_refuse {reason : Refusal}
    (h : strategyAt setting.file.source site ancestors operation = .refuse reason) (s : Scan)
    (u : Usage) (visitBase : Scan → Scan) (right : Option RightSide) :
    s.rewriteSite setting site ancestors u operation visitBase right =
      (visitBase (s.reportRefusal setting site.span.start u.target operation reason)).visitRight
        right := by
  unfold strategyAt at h
  unfold rewriteSite
  cases operation with
  | read => exact absurd h (by simp [Strategy.choose])
  | assign | compound op | step op fixity => simp only [h]

/-- A usage that is not refused is rewritten once its parts are rendered. -/
theorem rewriteSite_of_rewrite
    (h : ∀ reason, strategyAt setting.file.source site ancestors operation ≠ .refuse reason)
    (s : Scan) (u : Usage) (visitBase : Scan → Scan) (right : Option RightSide) :
    let object := (s.noteDuplicate setting site.span.start u operation).render setting u.base.span
      visitBase
    let operand := object.1.renderRight setting right
    s.rewriteSite setting site ancestors u operation visitBase right =
      operand.1.apply site ancestors operation (boundary setting.file.source site ancestors)
        (Plan.make (Accesses.of object.2 u.isArrow u.target.name operation operand.2)
          (strategyAt setting.file.source site ancestors operation)) := by
  unfold strategyAt at h ⊢
  unfold rewriteSite
  cases operation with
  | read => rfl
  | assign | compound op | step op fixity => simp only

end Scan

mutual

def Action.exec (setting : Setting) : Action → Scan → Scan
  | .unresolved span field objectClass, s => s.reportUnresolved setting span field objectClass
  | .escape offset target how, s => s.reportEscape setting offset target how
  | .site x base right inRight, s =>
    s.rewriteSite setting x.node x.ancestors x.usage x.operation
      (fun s => execAll setting base s)
      (right.map fun c => ⟨c, fun s => execAll setting inRight s⟩)
  | .close depth stop, s => s.close depth stop

def execAll (setting : Setting) : List Action → Scan → Scan
  | [], s => s
  | a :: as, s => execAll setting as (a.exec setting s)

end

mutual

def acts (setting : Setting) (ancestors : List CodeNode) : SurveyedCode → List Action
  | .node (i, env) parts =>
    let own := match i.shape with
      | .assign op => actsAssign setting ancestors i env op parts
      | .step op fixity =>
        actsOperand setting (i :: ancestors) env
          (fun u base => [.site ⟨i, ancestors, u, .step op fixity⟩ base none []]) parts
      | .unary .addressOf =>
        actsOperand setting (i :: ancestors) env
          (fun u base => .escape i.span.start u.target "its address is taken" :: base) parts
      | .member _ field =>
        match usage? setting env (.node i (parts.map SurveyedCode.code)) with
        | some u =>
          [.site ⟨i, ancestors, u, .read⟩ (actsAll setting (i :: ancestors) parts) none []]
        | none =>
          .unresolved i.span field
              (env.classOfFirst setting.symbols (parts.map SurveyedCode.code))
            :: actsAll setting (i :: ancestors) parts
      | .declaration vars =>
        actsInits setting (i :: ancestors) (vars.filter (·.isInitialized)) parts
      | _ => actsAll setting (i :: ancestors) parts
    match i.shape.sort with
    | .statement => own ++ [.close ancestors.length i.span.stop]
    | _ => own

def actsAll (setting : Setting) (ancestors : List CodeNode) : List SurveyedCode → List Action
  | [] => []
  | t :: ts => acts setting ancestors t ++ actsAll setting ancestors ts

def actsBase (setting : Setting) (ancestors : List CodeNode) : SurveyedCode → List Action
  | .node (i, _) parts =>
    match i.shape with
    | .paren => actsBaseFirst setting (i :: ancestors) parts
    | .member .. => actsAll setting (i :: ancestors) parts
    | _ => []

def actsBaseFirst (setting : Setting) (ancestors : List CodeNode) :
    List SurveyedCode → List Action
  | [] => []
  | t :: _ => actsBase setting ancestors t

def actsAssign (setting : Setting) (ancestors : List CodeNode) (site : CodeNode) (env : Env)
    (op : Option CompoundOp) : List SurveyedCode → List Action
  | left :: right :: rest =>
    match usage? setting env left.code with
    | some u =>
      [.site ⟨site, ancestors, u, .ofAssign op⟩ (actsBase setting (site :: ancestors) left)
        (some right.code) (acts setting (site :: ancestors) right)]
    | none =>
      acts setting (site :: ancestors) left ++ acts setting (site :: ancestors) right
        ++ actsAll setting (site :: ancestors) rest
  | [left] => acts setting (site :: ancestors) left
  | [] => []

def actsOperand (setting : Setting) (ancestors : List CodeNode) (env : Env)
    (perform : Usage → List Action → List Action) : List SurveyedCode → List Action
  | [] => []
  | operand :: rest =>
    match usage? setting env operand.code with
    | some u => perform u (actsBase setting ancestors operand)
    | none => acts setting ancestors operand ++ actsAll setting ancestors rest

def actsInits (setting : Setting) (ancestors : List CodeNode) :
    List Var → List SurveyedCode → List Action
  | _, [] => []
  | [], t :: ts => acts setting ancestors t ++ actsAll setting ancestors ts
  | v :: vars, t :: ts =>
    (match usage? setting t.info.2 t.code with
      | some u =>
        if v.type.isMutableReference then
          .escape t.info.1.span.start u.target "it is bound to a non-const reference"
            :: actsBase setting ancestors t
        else
          acts setting ancestors t
      | none => acts setting ancestors t)
      ++ actsInits setting ancestors vars ts

end

theorem execAll_append (setting : Setting) (as bs : List Action) (s : Scan) :
    execAll setting (as ++ bs) s = execAll setting bs (execAll setting as s) := by
  induction as generalizing s with
  | nil => rfl
  | cons a as ih => exact ih _

/-- Entered with the names `before`, `f` does what `g` does and leaves the names `after`. -/
def Tracks (before after : Env) (f g : Scan → Scan) : Prop :=
  ∀ s : Scan, f { s with env := before } = { g s with env := after }

namespace Tracks

variable {a b c : Env} {f f' g g' : Scan → Scan}

theorem id : Tracks a a (fun s => s) fun s => s :=
  fun _ => rfl

theorem comp (hg : Tracks b c g g') (hf : Tracks a b f f') :
    Tracks a c (fun s => g (f s)) fun s => g' (f' s) := by
  intro s
  simp only [hf s, hg (f' s)]

end Tracks

namespace Scan

variable (setting : Setting) (env : Env)

theorem tracks_push (e : Edit) : Tracks env env (fun s => s.push e) fun s => s.push e :=
  fun _ => rfl

theorem tracks_count (operation : Operation) :
    Tracks env env (fun s => s.count operation) fun s => s.count operation := by
  intro s
  cases operation <;> rfl

theorem tracks_close (depth stop : Nat) :
    Tracks env env (fun s => s.close depth stop) fun s => s.close depth stop := by
  intro s
  simp only [close]
  split <;> rfl

theorem tracks_hoist (b : Boundary) (side : Side) (text : String) :
    Tracks env env (fun s => s.hoist b side text) fun s => s.hoist b side text := by
  have hopen : Tracks env env (fun s => s.openBlock b) fun s => s.openBlock b := by
    intro s
    simp only [openBlock]
    split <;> rfl
  intro s
  have hs := hopen s
  cases side <;> simp only [hoist, hs] <;> rfl

theorem tracks_reportUnresolved (span : Span) (field : String) (objectClass : Option String) :
    Tracks env env (fun s => s.reportUnresolved setting span field objectClass)
      fun s => s.reportUnresolved setting span field objectClass := by
  intro s
  simp only [reportUnresolved]
  split <;> rfl

theorem tracks_reportEscape (offset : Nat) (target : Target) (how : String) :
    Tracks env env (fun s => s.reportEscape setting offset target how)
      fun s => s.reportEscape setting offset target how :=
  fun _ => rfl

theorem tracks_reportRefusal (offset : Nat) (target : Target) (operation : Operation)
    (reason : Refusal) :
    Tracks env env (fun s => s.reportRefusal setting offset target operation reason)
      fun s => s.reportRefusal setting offset target operation reason :=
  fun _ => rfl

theorem tracks_noteDuplicate (offset : Nat) (u : Usage) (operation : Operation) :
    Tracks env env (fun s => s.noteDuplicate setting offset u operation)
      fun s => s.noteDuplicate setting offset u operation := by
  intro s
  simp only [noteDuplicate]
  split <;> rfl

theorem tracks_apply (site : CodeNode) (ancestors : List CodeNode) (operation : Operation)
    (b : Option Boundary) (plan : Plan) :
    Tracks env env (fun s => s.apply site ancestors operation b plan)
      fun s => s.apply site ancestors operation b plan := by
  have replaced : ∀ span, Tracks env env
      (fun s => (s.push (.replace span plan.replacement)).count operation)
      fun s => (s.push (.replace span plan.replacement)).count operation :=
    fun span => (tracks_count env operation).comp (tracks_push env _)
  unfold apply
  cases plan.helper with
  | none => exact replaced _
  | some helper =>
    cases b with
    | none => exact replaced _
    | some b => exact (tracks_hoist env b helper.1 helper.2).comp (replaced _)

theorem tracks_pushScope : Tracks env env.pushScope pushScope fun s => s :=
  fun _ => rfl

theorem tracks_popScope : Tracks env env.popScope popScope fun s => s :=
  fun _ => rfl

theorem tracks_declare (v : Var) (initClass : Option String) :
    Tracks env (env.declare setting.symbols v.name v.type initClass)
      (fun s => s.declare setting v initClass) fun s => s :=
  fun _ => rfl

theorem tracks_declareAll (vs : List Var) :
    Tracks env (env.declareVars setting.symbols vs) (fun s => s.declareAll setting vs)
      fun s => s := by
  induction vs generalizing env with
  | nil => exact Tracks.id
  | cons v vs ih => exact (ih _).comp (tracks_declare setting env v none)

/-- Rendering gives the same text under whatever names, and leaves the names of the visit. -/
theorem render_tracks {a b : Env} {f g : Scan → Scan} (h : Tracks a b f g) (span : Span)
    (s : Scan) :
    ({ s with env := a } : Scan).render setting span f =
      ({ (s.render setting span g).1 with env := b }, (s.render setting span g).2) := by
  have hvisit := h { s with queue := [] }
  simp only [render]
  simp only at hvisit
  rw [hvisit]
  generalize g { s with queue := [] } = visited
  cases EditQueue.apply (visited.queue.partition span).1 (Text.slice setting.file.source span)
    span.start <;> rfl

theorem renderRight_tracks {a b : Env} {right right' : Option RightSide}
    (hcode : right.map RightSide.code = right'.map RightSide.code)
    (h : Tracks a b (fun s => s.visitRight right) fun s => s.visitRight right') (s : Scan) :
    ({ s with env := a } : Scan).renderRight setting right =
      ({ (s.renderRight setting right').1 with env := b }, (s.renderRight setting right').2) := by
  cases right with
  | none =>
    cases right' with
    | none =>
      have hs := h s
      simp only [visitRight] at hs
      simp only [renderRight, hs]
    | some r' => exact absurd hcode (by simp)
  | some r =>
    cases right' with
    | none => exact absurd hcode (by simp)
    | some r' =>
      have hsame : r.code = r'.code := by simpa using hcode
      have hvisit : Tracks a b r.visit r'.visit := h
      simp only [renderRight, hsame, render_tracks setting hvisit]

/-- A usage is rewritten or refused alike under whatever names. -/
theorem tracks_rewriteSite {a b c : Env} {visitBase visitBase' : Scan → Scan}
    (right right' : Option RightSide) (site : CodeNode) (ancestors : List CodeNode) (u : Usage)
    (operation : Operation) (hbase : Tracks a b visitBase visitBase')
    (hcode : right.map RightSide.code = right'.map RightSide.code)
    (hright : Tracks b c (fun s => s.visitRight right) fun s => s.visitRight right') :
    Tracks a c (fun s => s.rewriteSite setting site ancestors u operation visitBase right)
      fun s => s.rewriteSite setting site ancestors u operation visitBase' right' := by
  unfold rewriteSite
  simp only
  split
  · exact hright.comp (hbase.comp (tracks_reportRefusal setting a _ _ _ _))
  · intro s
    have hnote := tracks_noteDuplicate setting a site.span.start u operation s
    simp only at hnote
    simp only [hnote, render_tracks setting hbase, renderRight_tracks setting hcode hright]
    exact tracks_apply c site ancestors operation _ _ _

end Scan

/-- A way to visit that is entered with the names `before`, carries out `as` and leaves the
names `after`. -/
def Performs (setting : Setting) (before after : Env) (as : List Action)
    (visit : Scan → Scan) : Prop :=
  Tracks before after visit (execAll setting as)

namespace Performs

variable {setting : Setting} {a b c : Env} {as bs : List Action} {f g : Scan → Scan}

theorem nil : Performs setting a a [] fun s => s :=
  fun _ => rfl

theorem append (hg : Performs setting b c bs g) (hf : Performs setting a b as f) :
    Performs setting a c (as ++ bs) fun s => g (f s) := by
  intro s
  rw [execAll_append]
  exact Tracks.comp hg hf s

theorem cons {x : Action} (hg : Performs setting b c bs g) (hf : Tracks a b f (x.exec setting)) :
    Performs setting a c (x :: bs) fun s => g (f s) := by
  intro s
  rw [execAll]
  exact Tracks.comp hg hf s

/-- A first step that only changes the names. -/
theorem after (hg : Performs setting b c bs g) (hf : Tracks a b f fun s => s) :
    Performs setting a c bs fun s => g (f s) :=
  Tracks.comp hg hf

/-- A last step that only changes the names. -/
theorem before (hf : Performs setting a b as f) (hg : Tracks b c g fun s => s) :
    Performs setting a c as fun s => g (f s) := by
  have hboth := Tracks.comp hg hf
  exact hboth

/-- Only what happens under the names it is entered with matters. -/
theorem congr (hf : Performs setting a b as f) (h : ∀ s : Scan, s.env = a → g s = f s) :
    Performs setting a b as g := by
  intro s
  rw [h _ rfl]
  exact hf s

end Performs

section Visit

variable {setting : Setting}

def VisitPerforms (setting : Setting) (c : Code) : Prop :=
  ∀ env ancestors, Performs setting env (survey setting.symbols env c).2
    (acts setting ancestors (survey setting.symbols env c).1) (visit setting ancestors c)

def BasePerforms (setting : Setting) (c : Code) : Prop :=
  ∀ env ancestors, (usage? setting env c).isSome →
    Performs setting env (survey setting.symbols env c).2
      (actsBase setting ancestors (survey setting.symbols env c).1)
      (visitBase setting ancestors c)

theorem performs_visitAll {cs : List Code} (hcs : ∀ c ∈ cs, VisitPerforms setting c) (env : Env)
    (ancestors : List CodeNode) :
    Performs setting env (surveyAll setting.symbols env cs).2
      (actsAll setting ancestors (surveyAll setting.symbols env cs).1)
      (visitAll setting ancestors cs) := by
  induction cs generalizing env with
  | nil => exact Performs.nil
  | cons c cs ih =>
    have hfirst := hcs c (List.mem_cons_self ..) env ancestors
    have hrest := ih fun d hd => hcs d (List.mem_cons_of_mem _ hd)
    rw [surveyAll, actsAll]
    exact ((hrest _).append hfirst).congr fun s _ => by rw [visitAll]

theorem performs_visitParams {cs : List Code} (hcs : ∀ c ∈ cs, VisitPerforms setting c)
    (params : List Var) (env : Env) (ancestors : List CodeNode) :
    Performs setting env (surveyParams setting.symbols params env cs).2
      (actsAll setting ancestors (surveyParams setting.symbols params env cs).1)
      (visitParams setting ancestors params cs) := by
  induction cs generalizing params env with
  | nil => exact Scan.tracks_declareAll setting env params
  | cons c cs ih =>
    have hlater : ∀ d ∈ cs, VisitPerforms setting d :=
      fun d hd => hcs d (List.mem_cons_of_mem _ hd)
    have hfirst := (hcs c (List.mem_cons_self ..) _ ancestors).after
      (Scan.tracks_declareAll setting env (params.takeWhile (!·.isInitialized)))
    simp only [surveyParams, actsAll]
    cases hdrop : params.dropWhile (!·.isInitialized) with
    | nil =>
      refine ((performs_visitAll hlater _ ancestors).append hfirst).congr fun s _ => ?_
      rw [visitParams]
      simp only [hdrop]
    | cons v later =>
      refine (((ih hlater later _).after (Scan.tracks_declare setting _ v none)).append
        hfirst).congr fun s _ => ?_
      rw [visitParams]
      simp only [hdrop]

/-- The variables that have an initializer, from the first of them on. -/
theorem filter_eq_dropWhile (vars : List Var) :
    vars.filter (·.isInitialized) =
      (vars.dropWhile (!·.isInitialized)).filter (·.isInitialized) := by
  induction vars with
  | nil => rfl
  | cons v vars ih =>
    cases hv : v.isInitialized with
    | true => simp [hv]
    | false => simp [hv, ih]

/-- The initializer of a variable, which may be a reference through which a target
escapes. -/
theorem performs_initializer {c : Code} (hvisit : VisitPerforms setting c)
    (hbase : BasePerforms setting c) (env : Env) (ancestors : List CodeNode) (v : Var) :
    Performs setting env (survey setting.symbols env c).2
      (match usage? setting env c with
        | some u =>
          if v.type.isMutableReference then
            .escape c.span.start u.target "it is bound to a non-const reference"
              :: actsBase setting ancestors (survey setting.symbols env c).1
          else
            acts setting ancestors (survey setting.symbols env c).1
        | none => acts setting ancestors (survey setting.symbols env c).1)
      fun s => match usage? setting s.env c with
        | some u =>
          if v.type.isMutableReference then
            visitBase setting ancestors c (s.reportEscape setting c.span.start u.target
              "it is bound to a non-const reference")
          else
            visit setting ancestors c s
        | none => visit setting ancestors c s := by
  cases hu : usage? setting env c with
  | none => exact (hvisit env ancestors).congr fun s hs => by rw [hs, hu]
  | some u =>
    by_cases href : v.type.isMutableReference = true
    · simp only [href, if_true]
      have hescape := Scan.tracks_reportEscape setting env c.span.start u.target
        "it is bound to a non-const reference"
      have hboth := (hbase env ancestors (by rw [hu]; rfl)).cons
        (x := .escape c.span.start u.target "it is bound to a non-const reference") hescape
      exact hboth.congr fun s hs => by rw [hs, hu]
    · simp only [href]
      exact (hvisit env ancestors).congr fun s hs => by rw [hs, hu]; rfl

theorem performs_visitVars {cs : List Code} (hcs : ∀ c ∈ cs, VisitPerforms setting c)
    (hbase : ∀ c ∈ cs, BasePerforms setting c) (vars : List Var) (env : Env)
    (ancestors : List CodeNode) :
    Performs setting env (surveyVars setting.symbols vars env cs).2
      (actsInits setting ancestors (vars.filter (·.isInitialized))
        (surveyVars setting.symbols vars env cs).1)
      (visitVars setting ancestors vars cs) := by
  induction cs generalizing vars env with
  | nil =>
    rw [surveyVars, actsInits]
    exact Scan.tracks_declareAll setting env vars
  | cons c cs ih =>
    have hlater : ∀ d ∈ cs, VisitPerforms setting d :=
      fun d hd => hcs d (List.mem_cons_of_mem _ hd)
    have hdeclared := Scan.tracks_declareAll setting env (vars.takeWhile (!·.isInitialized))
    rw [filter_eq_dropWhile]
    simp only [surveyVars]
    cases hdrop : vars.dropWhile (!·.isInitialized) with
    | nil =>
      have hfirst := (hcs c (List.mem_cons_self ..) _ ancestors).after hdeclared
      simp only [List.filter_nil, actsInits]
      refine ((performs_visitAll hlater _ ancestors).append hfirst).congr fun s _ => ?_
      rw [visitVars]
      simp only [hdrop]
    | cons v later =>
      have hv : v.isInitialized = true := by
        have hhead := List.head?_dropWhile_not (p := fun v : Var => !v.isInitialized) vars
        simpa [hdrop] using hhead
      obtain ⟨i, ds⟩ := c
      have hinit := (performs_initializer (hcs _ (List.mem_cons_self ..))
        (hbase _ (List.mem_cons_self ..)) _ ancestors v).after hdeclared
      have hrest := ih hlater (fun d hd => hbase d (List.mem_cons_of_mem _ hd)) later
      rw [List.filter_cons_of_pos hv, actsInits, code_survey, info_survey]
      refine (((hrest _).after (Scan.tracks_declare setting _ v _)).append hinit).congr
        fun s hs => ?_
      have henv := (Scan.counts_declareAll setting env
        (vars.takeWhile (!·.isInitialized))).env s hs
      rw [visitVars]
      cases hu : usage? setting (env.declareVars setting.symbols
          (vars.takeWhile (!·.isInitialized))) (.node i ds) with
      | none => simp only [hdrop, henv, hu]
      | some u => simp only [hdrop, henv, hu]

theorem performs_visitLoop {cs : List Code} (hcs : ∀ c ∈ cs, VisitPerforms setting c)
    (element : Option Var) (range : Option Code) (env : Env) (ancestors : List CodeNode) :
    Performs setting env (surveyLoop setting.symbols element range env cs).2
      (actsAll setting ancestors (surveyLoop setting.symbols element range env cs).1)
      (visitLoop setting ancestors element range cs) := by
  induction cs generalizing range env with
  | nil => exact Performs.nil
  | cons c cs ih =>
    have hc := hcs c (List.mem_cons_self ..)
    have hlater : ∀ d ∈ cs, VisitPerforms setting d :=
      fun d hd => hcs d (List.mem_cons_of_mem _ hd)
    rw [surveyLoop.eq_def]
    simp only
    split
    · rename_i hrole
      rw [actsAll]
      cases element with
      | none =>
        refine ((performs_visitAll hlater _ ancestors).append (hc env ancestors)).congr
          fun s _ => ?_
        rw [visitLoop.eq_def]
        simp only [hrole]
      | some v =>
        have hdeclared := Scan.tracks_declare setting env v
          (range.bind (env.elementClass setting.symbols))
        refine ((performs_visitAll hlater _ ancestors).append
          ((hc _ ancestors).after hdeclared)).congr fun s hs => ?_
        rw [visitLoop.eq_def]
        simp only [hrole, hs]
    · rename_i hrole
      rw [actsAll]
      refine ((ih hlater (some c) _).append (hc env ancestors)).congr fun s _ => ?_
      rw [visitLoop.eq_def]
      simp only [hrole]
    · rw [actsAll]
      refine ((ih hlater range _).append (hc env ancestors)).congr fun s _ => ?_
      rw [visitLoop.eq_def]
      simp only

theorem performs_visitAssign {left right : Code} (hleft : VisitPerforms setting left)
    (hbase : BasePerforms setting left) (hright : VisitPerforms setting right) (env : Env)
    (ancestors : List CodeNode) (site : CodeNode) (op : Option CompoundOp) :
    Performs setting env (surveyAll setting.symbols env [left, right]).2
      (actsAssign setting ancestors site env op
        (surveyAll setting.symbols env [left, right]).1)
      (visitAssign setting ancestors site op [left, right]) := by
  have hr := hright (survey setting.symbols env left).2 (site :: ancestors)
  simp only [surveyAll, actsAssign, code_survey, actsAll, List.append_nil]
  cases hu : usage? setting env left with
  | none =>
    refine (hr.append (hleft env (site :: ancestors))).congr fun s hs => ?_
    rw [visitAssign, hs, hu]
    simp only [visitAll]
  | some u =>
    have hsite := Scan.tracks_rewriteSite setting
      (some ⟨right, visit setting (site :: ancestors) right⟩)
      (some ⟨right, fun s => execAll setting (acts setting (site :: ancestors)
        (survey setting.symbols (survey setting.symbols env left).2 right).1) s⟩)
      site ancestors u (.ofAssign op) (hbase env (site :: ancestors) (by rw [hu]; rfl)) rfl hr
    refine (Performs.nil.cons hsite).congr fun s hs => ?_
    rw [visitAssign, hs, hu]

/-- A step or an address, whose first operand may be a usage. -/
theorem performs_operand {operand : Code} (hoperand : VisitPerforms setting operand)
    (hbase : BasePerforms setting operand) (env : Env) (ancestors : List CodeNode)
    {perform : Usage → List Action → List Action} {f : Scan → Scan}
    (hnone : usage? setting env operand = none →
      ∀ s : Scan, s.env = env → f s = visit setting ancestors operand s)
    (hsome : ∀ u as, usage? setting env operand = some u →
      Performs setting env (survey setting.symbols env operand).2 as
        (visitBase setting ancestors operand) →
      Performs setting env (survey setting.symbols env operand).2 (perform u as) f) :
    Performs setting env (surveyAll setting.symbols env [operand]).2
      (actsOperand setting ancestors env perform (surveyAll setting.symbols env [operand]).1)
      f := by
  simp only [surveyAll, actsOperand, code_survey, actsAll, List.append_nil]
  cases hu : usage? setting env operand with
  | none => exact (hoperand env ancestors).congr (hnone hu)
  | some u => exact hsome u _ hu (hbase env ancestors (by rw [hu]; rfl))

theorem performs_visitStep {operand : Code} (hoperand : VisitPerforms setting operand)
    (hbase : BasePerforms setting operand) (env : Env) (ancestors : List CodeNode)
    (site : CodeNode) (op : StepOp) (fixity : Fixity) :
    Performs setting env (surveyAll setting.symbols env [operand]).2
      (actsOperand setting (site :: ancestors) env
        (fun u base => [.site ⟨site, ancestors, u, .step op fixity⟩ base none []])
        (surveyAll setting.symbols env [operand]).1)
      (visitStep setting ancestors site op fixity [operand]) := by
  refine performs_operand hoperand hbase env (site :: ancestors) ?_ ?_
  · intro hu s hs
    rw [visitStep, hs, hu]
    simp only [visitAll]
  · intro u as hu has
    have hsite := Scan.tracks_rewriteSite setting none none site ancestors u (.step op fixity)
      has rfl Tracks.id
    refine (Performs.nil.cons hsite).congr fun s hs => ?_
    rw [visitStep, hs, hu]

theorem performs_visitAddressOf {operand : Code} (hoperand : VisitPerforms setting operand)
    (hbase : BasePerforms setting operand) (env : Env) (ancestors : List CodeNode)
    (site : CodeNode) :
    Performs setting env (surveyAll setting.symbols env [operand]).2
      (actsOperand setting (site :: ancestors) env
        (fun u base => .escape site.span.start u.target "its address is taken" :: base)
        (surveyAll setting.symbols env [operand]).1)
      (visitAddressOf setting ancestors site [operand]) := by
  refine performs_operand hoperand hbase env (site :: ancestors) ?_ ?_
  · intro hu s hs
    rw [visitAddressOf, hs, hu]
    simp only [visitAll]
  · intro u as hu has
    have hescape := Scan.tracks_reportEscape setting env site.span.start u.target
      "its address is taken"
    refine (has.cons (x := .escape _ u.target _) hescape).congr fun s hs => ?_
    rw [visitAddressOf, hs, hu]

theorem code_surveyAll (symbols : Symbols) (env : Env) (cs : List Code) :
    (surveyAll symbols env cs).1.map SurveyedCode.code = cs := by
  induction cs generalizing env with
  | nil => rfl
  | cons c cs ih => rw [surveyAll, List.map_cons, code_survey, ih]

/-- A member access, whether it is a usage or not. -/
theorem performs_member {i : CodeNode} {field : String} {cs : List Code}
    (hcs : ∀ c ∈ cs, VisitPerforms setting c) (env : Env) (ancestors : List CodeNode) :
    Performs setting env (surveyAll setting.symbols env cs).2
      (match usage? setting env (.node i cs) with
        | some u =>
          [.site ⟨i, ancestors, u, .read⟩
            (actsAll setting (i :: ancestors) (surveyAll setting.symbols env cs).1) none []]
        | none =>
          .unresolved i.span field (env.classOfFirst setting.symbols cs)
            :: actsAll setting (i :: ancestors) (surveyAll setting.symbols env cs).1)
      fun s => match usage? setting s.env (.node i cs) with
        | some u =>
          s.rewriteSite setting i ancestors u .read (visitAll setting (i :: ancestors) cs) none
        | none =>
          visitAll setting (i :: ancestors) cs
            (s.reportUnresolved setting i.span field (s.env.classOfFirst setting.symbols cs)) := by
  have hall := performs_visitAll hcs env (i :: ancestors)
  cases hu : usage? setting env (.node i cs) with
  | none =>
    have hreport := Scan.tracks_reportUnresolved setting env i.span field
      (env.classOfFirst setting.symbols cs)
    refine (hall.cons (x := .unresolved _ field _) hreport).congr fun s hs => ?_
    rw [hs, hu]
  | some u =>
    have hsite := Scan.tracks_rewriteSite setting none none i ancestors u .read hall rfl Tracks.id
    refine (Performs.nil.cons (x := .site _ _ none []) hsite).congr fun s hs => ?_
    rw [hs, hu]

theorem basePerforms_node {i : CodeNode} {cs : List Code} (hfull : Code.Full (.node i cs))
    (hvisit : ∀ c ∈ cs, VisitPerforms setting c) (hbase : ∀ c ∈ cs, BasePerforms setting c) :
    BasePerforms setting (.node i cs) := by
  intro env ancestors hu
  by_cases hparen : i.shape = .paren
  · have hlen : cs.length = 1 := hfull 1 (by rw [Code.shape, info_node, hparen]; rfl)
    obtain ⟨c, rfl⟩ := List.length_eq_one_iff.mp hlen
    rw [usage?_paren setting hparen] at hu
    have hinner := hbase c (List.mem_singleton_self c) env (i :: ancestors) hu
    simp only [survey, hparen, surveyAll, actsBase, actsBaseFirst]
    refine hinner.congr fun s _ => ?_
    rw [visitBase, hparen]
    rfl
  · by_cases hmember : ∃ isArrow field, i.shape = .member isArrow field
    · obtain ⟨isArrow, field, hi⟩ := hmember
      simp only [survey, hi, actsBase]
      refine (performs_visitAll hvisit env (i :: ancestors)).congr fun s _ => ?_
      rw [visitBase, hi]
    · have hother : ∀ isArrow field, i.shape ≠ .member isArrow field :=
        fun isArrow field h => hmember ⟨isArrow, field, h⟩
      rw [usage?_other setting hparen hother] at hu
      exact absurd hu (by simp)

theorem visitPerforms_node {i : CodeNode} {cs : List Code} (hfull : Code.Full (.node i cs))
    (hvisit : ∀ c ∈ cs, VisitPerforms setting c) (hbase : ∀ c ∈ cs, BasePerforms setting c) :
    VisitPerforms setting (.node i cs) := by
  intro env ancestors
  have hlen : ∀ n, Code.arity? i.shape = some n → cs.length = n := hfull
  have hall := fun env => performs_visitAll hvisit env (i :: ancestors)
  -- a statement closes the block that was put around it last
  have hclosed : ∀ {b : Env} {as : List Action} {f : Scan → Scan}, Performs setting env b as f →
      Performs setting env b (as ++ [.close ancestors.length i.span.stop])
        fun s => (f s).close ancestors.length i.span.stop :=
    fun {b _ _} hf => (Performs.nil.cons (x := .close _ _) (Scan.tracks_close b _ _)).append hf
  have hscoped : ∀ {b : Env} {as : List Action} {f : Scan → Scan},
      Performs setting env.pushScope b as f →
      Performs setting env b.popScope as fun s => (f s.pushScope).popScope :=
    fun hf => (hf.after (Scan.tracks_pushScope env)).before (Scan.tracks_popScope _)
  change Performs _ _ _ _ fun s => visit setting ancestors (.node i cs) s
  unfold visit survey acts
  cases hi : i.shape with
  | assign op =>
    obtain ⟨left, right, rfl⟩ := List.length_eq_two.mp (hlen 2 (by rw [hi]; rfl))
    exact performs_visitAssign (hvisit left (by simp)) (hbase left (by simp))
      (hvisit right (by simp)) env ancestors i op
  | step op fixity =>
    obtain ⟨operand, rfl⟩ := List.length_eq_one_iff.mp (hlen 1 (by rw [hi]; rfl))
    exact performs_visitStep (hvisit operand (by simp)) (hbase operand (by simp)) env ancestors
      i op fixity
  | unary op =>
    cases op with
    | addressOf =>
      obtain ⟨operand, rfl⟩ := List.length_eq_one_iff.mp (hlen 1 (by rw [hi]; rfl))
      exact performs_visitAddressOf (hvisit operand (by simp)) (hbase operand (by simp)) env
        ancestors i
    | _ => exact hall env
  | member isArrow field =>
    simp only [code_surveyAll]
    exact performs_member hvisit env ancestors
  | lambda params => exact hscoped (performs_visitParams hvisit params _ (i :: ancestors))
  | declaration vars =>
    exact hclosed (performs_visitVars hvisit hbase vars env (i :: ancestors))
  | loop kind element =>
    exact hclosed (hscoped (performs_visitLoop hvisit element none _ (i :: ancestors)))
  | block | branch | switch => exact hclosed (hscoped (hall _))
  | exprStmt | returnStmt | throwStmt | caseLabel | otherStmt => exact hclosed (hall env)
  | _ => exact hall env

/-- Visiting code in which every node has its parts, or the object of a usage in it, carries
out the actions of its survey. -/
theorem visitPerforms (setting : Setting) (c : Code) (hfull : Everywhere Code.Full c) :
    VisitPerforms setting c ∧ BasePerforms setting c := by
  induction c using Tree.inductionOn with
  | h i cs ih =>
    have hcs : ∀ c ∈ cs, VisitPerforms setting c ∧ BasePerforms setting c :=
      fun c hc => ih c hc (hfull.child hc)
    exact ⟨visitPerforms_node hfull.here (fun c hc => (hcs c hc).1) fun c hc => (hcs c hc).2,
      basePerforms_node hfull.here (fun c hc => (hcs c hc).1) fun c hc => (hcs c hc).2⟩

end Visit

section Sites

variable (setting : Setting)

mutual

def Action.sites : Action → List Site
  | .site x base none _ => x :: sitesOf base
  | .site x base (some _) inRight => x :: (sitesOf base ++ sitesOf inRight)
  | .unresolved .. | .escape .. | .close .. => []

def sitesOf : List Action → List Site
  | [] => []
  | a :: as => a.sites ++ sitesOf as

end

/-- Whether a node holds its child `n`: it writes to it, takes its address, or binds it to
a reference that could change it. -/
def holds (parent : CodeNode) (n : Nat) : Bool :=
  match parent.shape with
  | .assign _ | .step .. | .unary .addressOf => n == 0
  | .declaration vars => (vars.filter (·.isInitialized))[n]?.any (·.type.isMutableReference)
  | _ => false

/-- Whether the child `n` of a node is held, given whether the node is. Parentheses hand on
that they are held. -/
def holdsOn (held : Bool) (parent : CodeNode) (n : Nat) : Bool :=
  holds parent n || (held && parent.isParen)

def heldFrom (held : Bool) (t : SurveyedCode) : List Nat → Bool
  | [] => held
  | n :: p => match t.children[n]? with
    | some c => heldFrom (holdsOn held t.info.1 n) c p
    | none => false

def read? (t : SurveyedCode) : Option Usage :=
  match t.info.1.shape with
  | .member .. => usage? setting t.info.2 t.code
  | _ => none

def ownSite (held : Bool) (ancestors : List CodeNode) (t : SurveyedCode) : Option Site :=
  match write? setting t with
  | some (u, operation) => some ⟨t.info.1, ancestors, u, operation⟩
  | none =>
    if held then none else (read? setting t).map fun u => ⟨t.info.1, ancestors, u, .read⟩

def siteAt (body : SurveyedCode) (p : List Nat) : Option Site :=
  (body.at? p).bind (ownSite setting (heldFrom false body p) (ancestorsAt body p))

mutual

def gather (held : Bool) (ancestors : List CodeNode) : SurveyedCode → List Site
  | .node x parts =>
    (ownSite setting held ancestors (.node x parts)).toList
      ++ gatherFrom (holdsOn held x.1) 0 (x.1 :: ancestors) parts

def gatherFrom (held : Nat → Bool) (n : Nat) (ancestors : List CodeNode) :
    List SurveyedCode → List Site
  | [] => []
  | t :: ts => gather (held n) ancestors t ++ gatherFrom held (n + 1) ancestors ts

end

/-- They are those of the positions. -/
theorem gather_eq (held : Bool) (ancestors : List CodeNode) (t : SurveyedCode) :
    gather setting held ancestors t = (positions t).filterMap fun p =>
      (t.at? p).bind (ownSite setting (heldFrom held t p) (ancestorsAt t p ++ ancestors)) := by
  induction t using Tree.inductionOn generalizing held ancestors with
  | h x parts ih =>
    -- the positions below the children from the `n`-th on
    have hfrom : ∀ (ts front : List SurveyedCode), parts = front ++ ts →
        gatherFrom setting (holdsOn held x.1) front.length (x.1 :: ancestors) ts =
          (positionsFrom front.length ts).filterMap fun p =>
            ((Tree.node x parts).at? p).bind (ownSite setting (heldFrom held (.node x parts) p)
              (ancestorsAt (.node x parts) p ++ ancestors)) := by
      intro ts
      induction ts with
      | nil => exact fun _ _ => rfl
      | cons t ts ihts =>
        intro front hparts
        have ht : parts[front.length]? = some t := by simp [hparts]
        have hmem : t ∈ parts := by simp [hparts]
        have hrest := ihts (front ++ [t]) (by simp [hparts])
        rw [List.length_append, List.length_singleton] at hrest
        rw [gatherFrom, positionsFrom, List.filterMap_append, hrest, ih t hmem,
          List.filterMap_map]
        congr 2
        funext p
        simp only [Function.comp_apply, at?, children_node, ht, Option.bind_some, ancestorsAt,
          above, Option.map_some, Option.getD_some, info_node, List.map_append, List.map_cons,
          List.map_nil, List.append_assoc, List.singleton_append, heldFrom]
    have hnone : ancestorsAt (.node x parts) [] = [] := rfl
    have hchildren := hfrom parts [] rfl
    rw [List.length_nil] at hchildren
    rw [gather, hchildren, positions, List.filterMap_cons]
    simp only [at?_nil, Option.bind_some, hnone, List.nil_append, heldFrom]
    cases ownSite setting held ancestors (.node x parts) <;> rfl

theorem sitesOf_append (as bs : List Action) :
    sitesOf (as ++ bs) = sitesOf as ++ sitesOf bs := by
  induction as with
  | nil => rfl
  | cons a as ih => rw [List.cons_append, sitesOf, ih, sitesOf, List.append_assoc]

/-- The usages among the actions of surveyed code, of its object if it is an access, and of
code that nothing can hold. -/
structure Lists (t : SurveyedCode) : Prop where
  sites : ∀ ancestors, sitesOf (acts setting ancestors t) = gather setting false ancestors t
  base : (usage? setting t.info.2 t.code).isSome →
    ∀ ancestors, sitesOf (actsBase setting ancestors t) = gather setting true ancestors t
  other : usage? setting t.info.2 t.code = none →
    ∀ ancestors, gather setting true ancestors t = gather setting false ancestors t

variable {setting}

theorem sitesOf_actsAll {parts : List SurveyedCode} (hparts : ∀ t ∈ parts, Lists setting t)
    {held : Nat → Bool} (hheld : ∀ m, held m = false) (ancestors : List CodeNode) (n : Nat) :
    sitesOf (actsAll setting ancestors parts) = gatherFrom setting held n ancestors parts := by
  induction parts generalizing n with
  | nil => rfl
  | cons t ts ih =>
    have hrest := ih fun r hr => hparts r (List.mem_cons_of_mem _ hr)
    rw [actsAll, sitesOf_append, gatherFrom, hheld n, (hparts t (List.mem_cons_self ..)).sites,
      hrest (n + 1)]

/-- The initializers of a declaration, each held if its variable is a reference that could
change it. -/
theorem sitesOf_actsInits {parts : List SurveyedCode} (hparts : ∀ t ∈ parts, Lists setting t)
    (vars : List Var) {held : Nat → Bool} (ancestors : List CodeNode) (n : Nat)
    (hheld : ∀ m, held (n + m) = vars[m]?.any (·.type.isMutableReference)) :
    sitesOf (actsInits setting ancestors vars parts) =
      gatherFrom setting held n ancestors parts := by
  induction parts generalizing vars n with
  | nil => rfl
  | cons t ts ih =>
    have ht := hparts t (List.mem_cons_self ..)
    have hlater : ∀ r ∈ ts, Lists setting r := fun r hr => hparts r (List.mem_cons_of_mem _ hr)
    have hshift : ∀ m, held (n + 1 + m) = vars[m + 1]?.any (·.type.isMutableReference) := by
      intro m
      rw [← hheld (m + 1), Nat.add_assoc, Nat.add_comm 1]
    rw [gatherFrom]
    cases vars with
    | nil =>
      have hfirst : held n = false := by simpa using hheld 0
      have hrest := ih hlater [] (n + 1) (by simpa using hshift)
      rw [actsInits, sitesOf_append, ht.sites, hfirst, ← hrest]
      cases ts with
      | nil => rfl
      | cons r rs => rw [actsInits, actsAll]
    | cons v vars =>
      have hfirst : held n = v.type.isMutableReference := by simpa using hheld 0
      have hrest := ih hlater vars (n + 1) (by simpa using hshift)
      rw [actsInits, sitesOf_append, hrest, hfirst]
      congr 1
      cases hu : usage? setting t.info.2 t.code with
      | none =>
        cases v.type.isMutableReference with
        | false => exact ht.sites ancestors
        | true => rw [ht.other hu]; exact ht.sites ancestors
      | some u =>
        cases v.type.isMutableReference with
        | false => exact ht.sites ancestors
        | true => exact ht.base (by rw [hu]; rfl) ancestors

section Node

variable {i : CodeNode} {env : Env} {parts : List SurveyedCode}

/-- A node that neither writes nor is an access is no usage. -/
theorem gather_other (hmember : ∀ isArrow field, i.shape ≠ .member isArrow field)
    (hassign : ∀ op, i.shape ≠ .assign op) (hstep : ∀ op fixity, i.shape ≠ .step op fixity)
    (held : Bool) (ancestors : List CodeNode) :
    gather setting held ancestors (.node (i, env) parts) =
      gatherFrom setting (holdsOn held i) 0 (i :: ancestors) parts := by
  have hread : read? setting (.node (i, env) parts) = none := by
    unfold read?
    split
    · rename_i hshape
      exact absurd hshape (hmember _ _)
    · rfl
  rw [gather, ownSite, write?_other setting hassign hstep, hread]
  cases held <;> rfl

theorem gather_member {isArrow : Bool} {field : String} (hi : i.shape = .member isArrow field)
    (held : Bool) (ancestors : List CodeNode) :
    gather setting held ancestors (.node (i, env) parts) =
      (if held then none
        else (usage? setting env (.node i (parts.map SurveyedCode.code))).map fun u =>
          (⟨i, ancestors, u, .read⟩ : Site)).toList
        ++ gatherFrom setting (holdsOn held i) 0 (i :: ancestors) parts := by
  rw [gather, ownSite, write?_other setting (by simp [hi]) (by simp [hi])]
  simp only [read?, info_node, hi, SurveyedCode.code_node]

/-- A node that holds nothing and hands nothing on. -/
theorem holdsOn_eq_false (hholds : ∀ n, holds i n = false) (hparen : i.isParen = false)
    (held : Bool) (n : Nat) : holdsOn held i n = false := by
  rw [holdsOn, hholds, hparen, Bool.and_false, Bool.or_false]

theorem holdsOn_false (n : Nat) : holdsOn false i n = holds i n := by
  rw [holdsOn, Bool.false_and, Bool.or_false]

def Wraps (i : CodeNode) (env : Env) (parts : List SurveyedCode) : Prop :=
  i.shape = .paren → ∃ t, parts = [t] ∧ t.info.2 = env

/-- Where no access is held, being held makes no difference. -/
theorem gather_held (hparts : ∀ t ∈ parts, Lists setting t) (hwraps : Wraps i env parts)
    (hu : usage? setting env (.node i (parts.map SurveyedCode.code)) = none)
    (ancestors : List CodeNode) :
    gather setting true ancestors (.node (i, env) parts) =
      gather setting false ancestors (.node (i, env) parts) := by
  by_cases hparen : i.shape = .paren
  · obtain ⟨t, rfl, hlabel⟩ := hwraps hparen
    have hp : i.isParen = true := by simp [CodeNode.isParen, hparen]
    have hholds : holds i 0 = false := by simp [holds, hparen]
    rw [List.map_singleton, usage?_paren setting hparen, ← hlabel] at hu
    have hinner := (hparts t (List.mem_singleton_self t)).other hu (i :: ancestors)
    simp only [gather_other (i := i) (by simp [hparen]) (by simp [hparen]) (by simp [hparen]),
      gatherFrom, holdsOn, hholds, hp, Bool.false_or, Bool.and_true, hinner]
  · have hflags : holdsOn true i = holdsOn false i := by
      have hp : i.isParen = false := by simp [CodeNode.isParen, hparen]
      funext n
      simp only [holdsOn, hp, Bool.and_false]
    have hread : read? setting (.node (i, env) parts) = none := by
      unfold read?
      split
      · rw [info_node, SurveyedCode.code_node]
        exact hu
      · rfl
    rw [gather, gather, ownSite, ownSite, hread, hflags]
    cases write? setting (.node (i, env) parts) <;> rfl

/-- The usages inside the object of an access are those of the access without itself. -/
theorem sitesOf_actsBase (hparts : ∀ t ∈ parts, Lists setting t) (hwraps : Wraps i env parts)
    (hu : (usage? setting env (.node i (parts.map SurveyedCode.code))).isSome)
    (ancestors : List CodeNode) :
    sitesOf (actsBase setting ancestors (.node (i, env) parts)) =
      gather setting true ancestors (.node (i, env) parts) := by
  by_cases hparen : i.shape = .paren
  · obtain ⟨t, rfl, hlabel⟩ := hwraps hparen
    have hp : i.isParen = true := by simp [CodeNode.isParen, hparen]
    have hholds : holds i 0 = false := by simp [holds, hparen]
    rw [List.map_singleton, usage?_paren setting hparen, ← hlabel] at hu
    have hinner := (hparts t (List.mem_singleton_self t)).base hu (i :: ancestors)
    simp only [gather_other (i := i) (by simp [hparen]) (by simp [hparen]) (by simp [hparen]),
      gatherFrom, holdsOn, hholds, hp, Bool.false_or, Bool.and_true, actsBase, hparen,
      actsBaseFirst, hinner, List.append_nil]
  · by_cases hmember : ∃ isArrow field, i.shape = .member isArrow field
    · obtain ⟨isArrow, field, hi⟩ := hmember
      have hflags := holdsOn_eq_false (i := i) (fun n => by simp [holds, hi])
        (by simp [CodeNode.isParen, hi]) true
      rw [gather_member hi, if_pos rfl, ← sitesOf_actsAll hparts hflags]
      simp only [actsBase, hi]
      rfl
    · have hother : ∀ isArrow field, i.shape ≠ .member isArrow field :=
        fun isArrow field h => hmember ⟨isArrow, field, h⟩
      rw [usage?_other setting hparen hother] at hu
      exact absurd hu (by simp)

/-- Where the first operand is held, it is visited whole only if it is no access. -/
theorem sitesOf_first {t : SurveyedCode} (ht : Lists setting t) (hlabel : t.info.2 = env)
    (hu : usage? setting env t.code = none) (ancestors : List CodeNode) :
    sitesOf (acts setting ancestors t) = gather setting true ancestors t := by
  rw [← hlabel] at hu
  rw [ht.sites, ht.other hu]

theorem sitesOf_base {t : SurveyedCode} (ht : Lists setting t) (hlabel : t.info.2 = env)
    {u : Usage} (hu : usage? setting env t.code = some u) (ancestors : List CodeNode) :
    sitesOf (actsBase setting ancestors t) = gather setting true ancestors t := by
  rw [← hlabel] at hu
  exact ht.base (by rw [hu]; rfl) ancestors

theorem sitesOf_assign {op : Option CompoundOp} {left right : SurveyedCode}
    (hi : i.shape = .assign op) (hleft : Lists setting left) (hright : Lists setting right)
    (hlabel : left.info.2 = env) (ancestors : List CodeNode) :
    sitesOf (actsAssign setting ancestors i env op [left, right]) =
      gather setting false ancestors (.node (i, env) [left, right]) := by
  have hread : read? setting (.node (i, env) [left, right]) = none := by simp [read?, hi]
  have hflags : holdsOn false i 0 = true ∧ holdsOn false i 1 = false := by
    simp [holdsOn, holds, hi, CodeNode.isParen]
  rw [gather, ownSite, hread, write?_assign hi env (List.map_cons ..)]
  simp only [actsAssign, gatherFrom, hflags.1, hflags.2, Nat.zero_add]
  cases hu : usage? setting env left.code with
  | none =>
    simp only [actsAll, List.append_nil, sitesOf_append, sitesOf_first hleft hlabel hu,
      hright.sites]
    rfl
  | some u =>
    simp only [sitesOf, Action.sites, sitesOf_base hleft hlabel hu, hright.sites]
    simp

theorem sitesOf_step {op : StepOp} {fixity : Fixity} {operand : SurveyedCode}
    (hi : i.shape = .step op fixity) (hoperand : Lists setting operand)
    (hlabel : operand.info.2 = env) (ancestors : List CodeNode) :
    sitesOf (actsOperand setting (i :: ancestors) env
        (fun u base => [.site ⟨i, ancestors, u, .step op fixity⟩ base none []]) [operand]) =
      gather setting false ancestors (.node (i, env) [operand]) := by
  have hread : read? setting (.node (i, env) [operand]) = none := by simp [read?, hi]
  have hflag : holdsOn false i 0 = true := by simp [holdsOn, holds, hi]
  rw [gather, ownSite, hread, write?_step hi env (List.map_cons ..)]
  simp only [actsOperand, gatherFrom, hflag]
  cases hu : usage? setting env operand.code with
  | none =>
    simp only [actsAll, List.append_nil, sitesOf_first hoperand hlabel hu]
    rfl
  | some u =>
    simp only [sitesOf, Action.sites, sitesOf_base hoperand hlabel hu]
    simp

theorem sitesOf_addressOf {operand : SurveyedCode} (hi : i.shape = .unary .addressOf)
    (hoperand : Lists setting operand) (hlabel : operand.info.2 = env)
    (ancestors : List CodeNode) :
    sitesOf (actsOperand setting (i :: ancestors) env
        (fun u base => .escape i.span.start u.target "its address is taken" :: base) [operand]) =
      gather setting false ancestors (.node (i, env) [operand]) := by
  have hflag : holdsOn false i 0 = true := by simp [holdsOn, holds, hi]
  rw [gather_other (by simp [hi]) (by simp [hi]) (by simp [hi])]
  simp only [actsOperand, gatherFrom, hflag]
  cases hu : usage? setting env operand.code with
  | none => simp only [actsAll, List.append_nil, sitesOf_first hoperand hlabel hu]
  | some u => simp [sitesOf, Action.sites, sitesOf_base hoperand hlabel hu]

/-- What a node adds to the usages of its parts. -/
theorem sitesOf_node (hparts : ∀ t ∈ parts, Lists setting t)
    (hlen : ∀ n, Code.arity? i.shape = some n → parts.length = n)
    (hlabel : i.shape.sort = .expression → (∀ params, i.shape ≠ .lambda params) →
      ∀ t ∈ parts.head?, t.info.2 = env) (ancestors : List CodeNode) :
    sitesOf (acts setting ancestors (.node (i, env) parts)) =
      gather setting false ancestors (.node (i, env) parts) := by
  have hclosed : ∀ as : List Action,
      sitesOf (as ++ [.close ancestors.length i.span.stop]) = sitesOf as := by
    intro as
    rw [sitesOf_append]
    exact List.append_nil _
  -- a node without a meaning of its own
  have hplain : (∀ isArrow field, i.shape ≠ .member isArrow field) →
      (∀ op, i.shape ≠ .assign op) → (∀ op fixity, i.shape ≠ .step op fixity) →
      (∀ n, holds i n = false) →
      sitesOf (actsAll setting (i :: ancestors) parts) =
        gather setting false ancestors (.node (i, env) parts) := by
    intro hmember hassign hstep hholds
    rw [gather_other hmember hassign hstep]
    exact sitesOf_actsAll hparts (fun n => by rw [holdsOn_false, hholds]) _ 0
  unfold acts
  cases hi : i.shape with
  | assign op =>
    obtain ⟨left, right, rfl⟩ := List.length_eq_two.mp (hlen 2 (by rw [hi]; rfl))
    exact sitesOf_assign hi (hparts left (by simp)) (hparts right (by simp))
      (hlabel (by rw [hi]; rfl) (by simp [hi]) left rfl) ancestors
  | step op fixity =>
    obtain ⟨operand, rfl⟩ := List.length_eq_one_iff.mp (hlen 1 (by rw [hi]; rfl))
    exact sitesOf_step hi (hparts operand (by simp))
      (hlabel (by rw [hi]; rfl) (by simp [hi]) operand rfl) ancestors
  | unary op =>
    cases op with
    | addressOf =>
      obtain ⟨operand, rfl⟩ := List.length_eq_one_iff.mp (hlen 1 (by rw [hi]; rfl))
      exact sitesOf_addressOf hi (hparts operand (by simp))
        (hlabel (by rw [hi]; rfl) (by simp [hi]) operand rfl) ancestors
    | _ =>
      exact hplain (by simp [hi]) (by simp [hi]) (by simp [hi]) fun n => by simp [holds, hi]
  | member isArrow field =>
    have hflags : ∀ n, holdsOn false i n = false := fun n => by simp [holdsOn, holds, hi]
    rw [gather_member hi, ← sitesOf_actsAll hparts hflags]
    simp only [Shape.sort]
    cases usage? setting env (.node i (parts.map SurveyedCode.code)) with
    | none => rfl
    | some u => simp [sitesOf, Action.sites]
  | declaration vars =>
    simp only [Shape.sort, hclosed]
    rw [gather_other (by simp [hi]) (by simp [hi]) (by simp [hi])]
    refine sitesOf_actsInits hparts _ _ 0 fun m => ?_
    simp only [holdsOn_false, holds, hi, Nat.zero_add]
  | block | exprStmt | returnStmt | throwStmt | branch | switch | caseLabel | loop kind element
  | otherStmt =>
    simp only [Shape.sort, hclosed]
    exact hplain (by simp [hi]) (by simp [hi]) (by simp [hi]) fun n => by simp [holds, hi]
  | _ => exact hplain (by simp [hi]) (by simp [hi]) (by simp [hi]) fun n => by simp [holds, hi]

end Node

/-- The parts of an expression that is no lambda are surveyed one after the other. -/
theorem parts_of_expression {symbols : Symbols} {i : CodeNode} {env : Env} {cs : List Code}
    {parts : List SurveyedCode}
    (h : (survey symbols env (.node i cs)).1 = .node (i, env) parts)
    (hsort : i.shape.sort = .expression) (hlambda : ∀ params, i.shape ≠ .lambda params) :
    parts = (surveyAll symbols env cs).1 := by
  have hparts : parts = (Tree.node (i, env) parts).children := rfl
  rw [hparts, ← h]
  unfold survey
  cases hi : i.shape with
  | lambda params => exact absurd hi (hlambda params)
  | block | exprStmt | declaration vars | returnStmt | throwStmt | branch | switch | caseLabel
  | loop kind element | otherStmt | group =>
    rw [hi] at hsort
    exact absurd hsort (by simp [Shape.sort])
  | _ => rfl

/-- A part of a survey is the survey of a part. -/
theorem exists_of_mem_parts {symbols : Symbols} {cs : List Code} {parts : List SurveyedCode}
    (h : List.Forall₂ (IsSurveyOf symbols) cs parts) {t : SurveyedCode} (ht : t ∈ parts) :
    ∃ c ∈ cs, IsSurveyOf symbols c t := by
  induction h with
  | nil => simp at ht
  | cons hfirst _ ih =>
    rcases List.mem_cons.mp ht with rfl | ht
    · exact ⟨_, List.mem_cons_self .., hfirst⟩
    · obtain ⟨c, hc, hsurvey⟩ := ih ht
      exact ⟨c, List.mem_cons_of_mem _ hc, hsurvey⟩

/-- Induction over the survey of code in which every node has its parts. The first part of an
expression that is no lambda is reached under the names of the expression. -/
theorem survey_induct {symbols : Symbols} {P : SurveyedCode → Prop}
    (h : ∀ i env parts, (∀ t ∈ parts, P t) →
      (∀ n, Code.arity? i.shape = some n → parts.length = n) →
      (i.shape.sort = .expression → (∀ params, i.shape ≠ .lambda params) →
        ∀ t ∈ parts.head?, t.info.2 = env) →
      P (.node (i, env) parts))
    (c : Code) (hfull : Everywhere Code.Full c) (env : Env) : P (survey symbols env c).1 := by
  induction c using Tree.inductionOn generalizing env with
  | h i cs ih =>
    obtain ⟨parts, heq, hforall⟩ := survey_parts symbols env i cs
    have hcodes : parts.map SurveyedCode.code = cs := by
      have hcode := code_survey symbols env (.node i cs)
      rw [heq, SurveyedCode.code_node] at hcode
      exact congrArg Tree.children hcode
    rw [heq]
    refine h i env parts ?_ ?_ ?_
    · intro t ht
      obtain ⟨c, hc, env', rfl⟩ := exists_of_mem_parts hforall ht
      exact ih c hc (hfull.child hc) env'
    · intro n hn
      rw [← hfull.here n hn, children_node, ← hcodes, List.length_map]
    · intro hsort hlambda t ht
      rw [parts_of_expression heq hsort hlambda] at ht
      cases cs with
      | nil => simp [surveyAll] at ht
      | cons c cs =>
        obtain ⟨j, ds⟩ := c
        rw [surveyAll, List.head?_cons, Option.mem_some_iff] at ht
        rw [← ht, info_survey]

theorem lists_survey (setting : Setting) (c : Code) (hfull : Everywhere Code.Full c)
    (env : Env) : Lists setting (survey setting.symbols env c).1 := by
  refine survey_induct (fun i env parts hparts hlen hlabel => ?_) c hfull env
  have hwraps : Wraps i env parts := by
    intro hparen
    obtain ⟨t, rfl⟩ := List.length_eq_one_iff.mp (hlen 1 (by rw [hparen]; rfl))
    exact ⟨t, rfl, hlabel (by rw [hparen]; rfl) (by simp [hparen]) t rfl⟩
  refine ⟨sitesOf_node hparts hlen hlabel, ?_, ?_⟩
  · intro hu ancestors
    rw [SurveyedCode.code_node] at hu
    exact sitesOf_actsBase hparts hwraps hu ancestors
  · intro hu ancestors
    rw [SurveyedCode.code_node] at hu
    exact gather_held hparts hwraps hu ancestors

/-- The usages that a search of a body comes to are those at its positions. -/
theorem sitesOf_survey (setting : Setting) {c : Code} (hfull : Everywhere Code.Full c)
    (env : Env) :
    sitesOf (acts setting [] (survey setting.symbols env c).1) =
      (positions (survey setting.symbols env c).1).filterMap
        (siteAt setting (survey setting.symbols env c).1) := by
  rw [(lists_survey setting c hfull env).sites, gather_eq]
  simp only [List.append_nil]
  rfl

end Sites

section Scan

def actsOfFunctions (setting : Setting) (fs : List Function) : List Action :=
  (surveyFunctions setting.symbols fs).flatMap (acts setting [])

/-- A search carries out the actions of the bodies it visits, one body after the other. -/
theorem scan_eq (setting : Setting) (fs : List Function)
    (hfull : ∀ f ∈ fs, ∀ b, f.body = some b → Everywhere Code.Full b) :
    ∃ env, scan setting fs = { execAll setting (actsOfFunctions setting fs) {} with env } := by
  have hfold : ∀ (s : Scan) (env : Env), ∃ env',
      fs.foldl (scanFunction setting) { s with env } =
        { execAll setting (actsOfFunctions setting fs) s with env := env' } := by
    induction fs with
    | nil => exact fun s env => ⟨env, rfl⟩
    | cons f fs ih =>
      intro s env
      have hrest := ih fun g hg => hfull g (List.mem_cons_of_mem _ hg)
      cases hbody : f.body with
      | none =>
        have hskip : scanFunction setting { s with env } f = { s with env } := by
          simp only [scanFunction, hbody]
        have hacts : actsOfFunctions setting (f :: fs) = actsOfFunctions setting fs := by
          simp [actsOfFunctions, surveyFunctions, surveyFunction, hbody]
        rw [List.foldl_cons, hskip, hacts]
        exact hrest s env
      | some body =>
        have hvisit := (visitPerforms setting body
          (hfull f (List.mem_cons_self ..) body hbody)).1 (Env.enter setting.symbols f) [] s
        have hfirst : scanFunction setting { s with env } f =
            visit setting [] body { s with env := Env.enter setting.symbols f } := by
          simp only [scanFunction, hbody]
        have hacts : actsOfFunctions setting (f :: fs) =
            acts setting [] (survey setting.symbols (Env.enter setting.symbols f) body).1
              ++ actsOfFunctions setting fs := by
          simp [actsOfFunctions, surveyFunctions, surveyFunction, hbody]
        rw [List.foldl_cons, hfirst, hvisit, hacts, execAll_append]
        exact hrest _ _
  exact hfold {} {}

/-- The usages of a search are those at the positions of the bodies it visits. -/
theorem sitesOf_actsOfFunctions (setting : Setting) (fs : List Function)
    (hfull : ∀ f ∈ fs, ∀ b, f.body = some b → Everywhere Code.Full b) :
    sitesOf (actsOfFunctions setting fs) =
      (surveyFunctions setting.symbols fs).flatMap fun body =>
        (positions body).filterMap (siteAt setting body) := by
  have hsites : ∀ bodies : List SurveyedCode, (∀ body ∈ bodies,
      sitesOf (acts setting [] body) = (positions body).filterMap (siteAt setting body)) →
      sitesOf (bodies.flatMap (acts setting [])) =
        bodies.flatMap fun body => (positions body).filterMap (siteAt setting body) := by
    intro bodies hbodies
    induction bodies with
    | nil => rfl
    | cons body bodies ih =>
      rw [List.flatMap_cons, sitesOf_append, List.flatMap_cons,
        hbodies body (List.mem_cons_self ..),
        ih fun b hb => hbodies b (List.mem_cons_of_mem _ hb)]
  refine hsites _ fun body hbody => ?_
  obtain ⟨f, hf, hsurvey⟩ := List.mem_filterMap.mp hbody
  obtain ⟨b, hb, rfl⟩ := Option.map_eq_some_iff.mp hsurvey
  exact sitesOf_survey setting (hfull f hf b hb) _

mutual

theorem Action.inductionOn {P : List Action → Prop} (hnil : P [])
    (hcons : ∀ a as, P [a] → P as → P (a :: as))
    (hunresolved : ∀ span field objectClass, P [.unresolved span field objectClass])
    (hescape : ∀ offset target how, P [.escape offset target how])
    (hsite : ∀ x base right inRight, P base → P inRight → P [.site x base right inRight])
    (hclose : ∀ depth stop, P [.close depth stop]) : (a : Action) → P [a]
  | .unresolved span field objectClass => hunresolved span field objectClass
  | .escape offset target how => hescape offset target how
  | .site x base right inRight =>
    hsite x base right inRight
      (Action.inductAll hnil hcons hunresolved hescape hsite hclose base)
      (Action.inductAll hnil hcons hunresolved hescape hsite hclose inRight)
  | .close depth stop => hclose depth stop

/-- Induction over a list of actions, with one hypothesis for each list inside a usage. -/
theorem Action.inductAll {P : List Action → Prop} (hnil : P [])
    (hcons : ∀ a as, P [a] → P as → P (a :: as))
    (hunresolved : ∀ span field objectClass, P [.unresolved span field objectClass])
    (hescape : ∀ offset target how, P [.escape offset target how])
    (hsite : ∀ x base right inRight, P base → P inRight → P [.site x base right inRight])
    (hclose : ∀ depth stop, P [.close depth stop]) : (as : List Action) → P as
  | [] => hnil
  | a :: as =>
    hcons a as (Action.inductionOn hnil hcons hunresolved hescape hsite hclose a)
      (Action.inductAll hnil hcons hunresolved hescape hsite hclose as)

end

/-- A property of the state that each step of a search keeps. -/
structure Scan.Invariant (setting : Setting) (P : Scan → Prop) : Prop where
  unresolved : ∀ {s : Scan}, P s → ∀ span field objectClass,
    P (s.reportUnresolved setting span field objectClass)
  escape : ∀ {s : Scan}, P s → ∀ offset target how, P (s.reportEscape setting offset target how)
  refusal : ∀ {s : Scan}, P s → ∀ offset target operation reason,
    P (s.reportRefusal setting offset target operation reason)
  duplicate : ∀ {s : Scan}, P s → ∀ offset u operation,
    P (s.noteDuplicate setting offset u operation)
  render : ∀ {s : Scan}, P s → ∀ {visit : Scan → Scan}, (∀ {r : Scan}, P r → P (visit r)) →
    ∀ span, P (s.render setting span visit).1
  apply : ∀ {s : Scan}, P s → ∀ site ancestors operation plan,
    P (s.apply site ancestors operation (boundary setting.file.source site ancestors) plan)
  close : ∀ {s : Scan}, P s → ∀ depth stop, P (s.close depth stop)

namespace Scan.Invariant

variable {setting : Setting} {P : Scan → Prop} (h : Scan.Invariant setting P)

include h

theorem rewriteSite (x : Site) {visitBase : Scan → Scan} {right : Option Scan.RightSide}
    (hbase : ∀ {r : Scan}, P r → P (visitBase r))
    (hright : ∀ {r : Scan}, P r → P (r.visitRight right)) {s : Scan} (hs : P s) :
    P (s.rewriteSite setting x.node x.ancestors x.usage x.operation visitBase right) := by
  by_cases hrefuse : ∃ reason,
      strategyAt setting.file.source x.node x.ancestors x.operation = .refuse reason
  · obtain ⟨reason, hreason⟩ := hrefuse
    rw [Scan.rewriteSite_of_refuse hreason]
    exact hright (hbase (h.refusal hs _ _ _ reason))
  · rw [Scan.rewriteSite_of_rewrite fun reason hreason => hrefuse ⟨reason, hreason⟩]
    have hobject : P (Scan.render _ setting x.usage.base.span visitBase).1 :=
      h.render (h.duplicate hs x.node.span.start x.usage x.operation) hbase x.usage.base.span
    refine h.apply ?_ x.node x.ancestors x.operation _
    cases right with
    | none => exact hobject
    | some right => exact h.render hobject hright right.code.span

/-- What each step keeps, a search keeps. -/
theorem execAll (as : List Action) {s : Scan} (hs : P s) : P (execAll setting as s) := by
  revert s
  induction as using Action.inductAll with
  | hnil => exact fun hs => hs
  | hcons a as ha has => exact fun hs => has (ha hs)
  | hunresolved span field objectClass => exact fun hs => h.unresolved hs span field objectClass
  | hescape offset target how => exact fun hs => h.escape hs offset target how
  | hsite x base right inRight hbase hright =>
    refine fun hs => h.rewriteSite x hbase ?_ hs
    cases right with
    | none => exact fun hr => hr
    | some c => exact hright
  | hclose depth stop => exact fun hs => h.close hs depth stop

end Scan.Invariant

end Scan

end Encapsulate.Accessors
