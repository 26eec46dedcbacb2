import Encapsulate.Accessors.Transform
import Encapsulate.Proofs.Origins
import Encapsulate.Proofs.Visiting

/-!
Accessors that come to call themselves. The search asks which record a usage belongs to, not
which function it stands in, so a usage on `this` inside a hand-written getter or setter is
rewritten like any other. Whether the new text calls the very accessor it stands in is
decided by the usage alone: a read calls the getter, a legal write calls the setter, and a
write calls the getter too unless it is a plain assignment whose value is not used.
-/

namespace Encapsulate.Accessors

open Cpp Encapsulate.Tree

/-- An object expression that is `this`, up to parentheses and dereference. -/
inductive IsThis : Code → Prop where
  | this (role : Role) (span : Span) : IsThis (.node ⟨role, .this, span⟩ [])
  | around (i : CodeNode) {c : Code} (hi : i.shape = .paren ∨ i.shape = .unary .deref)
      (hc : IsThis c) : IsThis (.node i [c])

def callStart (base : String) (isArrow : Bool) (name : String) : String :=
  base ++ (if isArrow then "->" else ".") ++ name ++ "("

namespace Site

variable (setting : Setting)

/-- The texts that a usage is rewritten to, given those of its object and its right-hand
side. -/
def texts (x : Site) (base : String) (operand : Option Operand) : List String :=
  let plan := Plan.make (Accesses.of base x.usage.isArrow x.usage.target.name x.operation operand)
    (x.strategy setting)
  match x.strategy setting with
  | .refuse _ => []
  | _ => plan.replacement :: plan.helper.toList.map Prod.snd

/-- Rewriting a usage puts a call of the accessor `name` on its object, whatever the texts of
the object and the right-hand side are. -/
def Puts (x : Site) (name : String) : Prop :=
  ∀ base operand, ∃ text ∈ x.texts setting base operand,
    (callStart base x.usage.isArrow name).toList <:+: text.toList

end Site

section Texts

variable {setting : Setting} {x : Site}

/-- A text with too few of some character has no call in it. -/
theorem not_infix_of_count {call text : List Char} (c : Char) (h : text.count c < call.count c) :
    ¬ call <:+: text := by
  intro hinfix
  have hle := hinfix.sublist.count_le c
  omega

theorem prefix_append {xs : List Char} {a : String} (h : xs <+: a.toList) (b : String) :
    xs <+: (a ++ b).toList := by
  rw [String.toList_append]
  exact h.trans (List.prefix_append _ _)

theorem callStart_getter (base : String) (isArrow : Bool) (field : String)
    (operation : Operation) (operand : Option Operand) :
    (callStart base isArrow (Name.getter field)).toList <+:
      (Accesses.of base isArrow field operation operand).getter.toList := by
  refine ⟨[')'], ?_⟩
  simp [callStart, Accesses.of]

/-- A setter call passes one value, which starts with a getter call unless it is the
right-hand side of a plain assignment. -/
theorem exists_value {base : String} {isArrow : Bool} {field : String} {operation : Operation}
    {operand : Option Operand} {setter : String}
    (h : (Accesses.of base isArrow field operation operand).setter = some setter) :
    ∃ value, setter = callStart base isArrow (Name.setter field) ++ " " ++ value ++ " )" ∧
      (operation ≠ .assign →
        (Accesses.of base isArrow field operation operand).getter.toList <+: value.toList) := by
  have hcall : ∀ value : String,
      base ++ (if isArrow then "->" else ".") ++ Name.setter field ++ "( " ++ value ++ " )" =
        callStart base isArrow (Name.setter field) ++ " " ++ value ++ " )" := by
    intro value
    have hbracket : "( " = "(" ++ " " := rfl
    simp only [callStart, hbracket, String.append_assoc]
  cases operation with
  | read => exact absurd h (by simp [Accesses.of])
  | assign => exact ⟨_, (Option.some.inj h).symm.trans (hcall _), fun hne => absurd rfl hne⟩
  | compound op =>
    refine ⟨_, (Option.some.inj h).symm.trans (hcall _), fun _ => ?_⟩
    exact prefix_append (prefix_append (prefix_append (prefix_append List.prefix_rfl _) _) _) _
  | step op fixity =>
    refine ⟨_, (Option.some.inj h).symm.trans (hcall _), fun _ => ?_⟩
    exact prefix_append (prefix_append (prefix_append List.prefix_rfl _) _) _

/-- What a usage is rewritten to where it is not refused: a read by the getter, a write in
place by the setter, and a hoisted write by both. -/
theorem texts_eq (hrewrite : ∀ reason, x.strategy setting ≠ .refuse reason) (base : String)
    (operand : Option Operand) :
    let calls := Accesses.of base x.usage.isArrow x.usage.target.name x.operation operand
    x.texts setting base operand =
      if x.strategy setting = .inPlace then [calls.setter.getD calls.getter]
      else calls.getter :: calls.setter.toList := by
  unfold Site.texts
  generalize Accesses.of base x.usage.isArrow x.usage.target.name x.operation operand = calls
  obtain ⟨getter, setter⟩ := calls
  cases hstrategy : x.strategy setting with
  | refuse reason => exact absurd hstrategy (hrewrite reason)
  | inPlace => cases setter <;> rfl
  | hoist side => cases setter <;> rfl

theorem strategy_of_read (hread : x.operation = .read) : x.strategy setting = .inPlace := by
  rw [Site.strategy, hread]
  exact strategyAt_read _ _ _

/-- Nothing is put where a usage is refused. -/
theorem not_puts_of_refuse {reason : Refusal} (h : x.strategy setting = .refuse reason)
    (name : String) : ¬ x.Puts setting name := by
  intro hputs
  obtain ⟨text, htext, -⟩ := hputs "" none
  rw [Site.texts, h] at htext
  exact absurd htext List.not_mem_nil

theorem puts_setter_iff :
    x.Puts setting (Name.setter x.usage.target.name) ↔
      (∀ reason, x.strategy setting ≠ .refuse reason) ∧ x.operation ≠ .read := by
  constructor
  · intro hputs
    have hrewrite : ∀ reason, x.strategy setting ≠ .refuse reason :=
      fun reason h => not_puts_of_refuse h _ hputs
    refine ⟨hrewrite, fun hread => ?_⟩
    -- the getter call alone has no `s` to spare
    obtain ⟨text, htext, hcall⟩ := hputs "" none
    rw [texts_eq hrewrite, if_pos (strategy_of_read hread), hread, List.mem_singleton] at htext
    refine not_infix_of_count 's' ?_ hcall
    rw [htext]
    cases x.usage.isArrow <;> simp [callStart, Accesses.of, Name.getter, Name.setter]
  · rintro ⟨hrewrite, hwrite⟩ base operand
    obtain ⟨setter, hsetter⟩ :=
      exists_setter hwrite base x.usage.isArrow x.usage.target.name operand
    obtain ⟨value, hvalue, -⟩ := exists_value hsetter
    refine ⟨setter, ?_, ?_⟩
    · rw [texts_eq hrewrite, hsetter]
      split <;> simp
    · rw [hvalue]
      exact (prefix_append (prefix_append (prefix_append List.prefix_rfl _) _) _).isInfix

theorem puts_getter_iff :
    x.Puts setting (Name.getter x.usage.target.name) ↔
      (∀ reason, x.strategy setting ≠ .refuse reason) ∧
        ¬ (x.operation = .assign ∧ x.strategy setting = .inPlace) := by
  constructor
  · intro hputs
    have hrewrite : ∀ reason, x.strategy setting ≠ .refuse reason :=
      fun reason h => not_puts_of_refuse h _ hputs
    refine ⟨hrewrite, ?_⟩
    rintro ⟨hassign, hplace⟩
    -- the setter call alone has no `g` to spare
    obtain ⟨text, htext, hcall⟩ := hputs "" none
    rw [texts_eq hrewrite, if_pos hplace, hassign, List.mem_singleton] at htext
    refine not_infix_of_count 'g' ?_ hcall
    rw [htext]
    cases x.usage.isArrow <;> simp [callStart, Accesses.of, Name.getter, Name.setter]
  · rintro ⟨hrewrite, hvalue⟩ base operand
    have hgetter := callStart_getter base x.usage.isArrow x.usage.target.name x.operation operand
    by_cases hplace : x.strategy setting = .inPlace
    · rw [texts_eq hrewrite, if_pos hplace]
      refine ⟨_, List.mem_singleton_self _, ?_⟩
      cases hsetter :
          (Accesses.of base x.usage.isArrow x.usage.target.name x.operation operand).setter with
      | none => exact hgetter.isInfix
      | some setter =>
        obtain ⟨value, rfl, hinside⟩ := exists_value hsetter
        have hin := hgetter.trans (hinside fun hassign => hvalue ⟨hassign, hplace⟩)
        rw [Option.getD_some, String.toList_append, String.toList_append]
        exact (hin.isInfix.trans (List.infix_append _ _ _))
    · rw [texts_eq hrewrite, if_neg hplace]
      exact ⟨_, List.mem_cons_self .., hgetter.isInfix⟩

end Texts

section Visit

variable {setting : Setting}

/-- There is nothing to do inside `this`. -/
theorem visit_this {c : Code} (h : IsThis c) (ancestors : List CodeNode) (s : Scan) :
    visit setting ancestors c s = s := by
  induction h generalizing ancestors with
  | this role span => rfl
  | @around i c hi _ ih =>
    have hfirst := ih (i :: ancestors)
    rcases hi with hi | hi <;> simp only [visit, hi, Shape.sort, visitAll, hfirst]

/-- The object of a usage on `this` is passed over, whatever parentheses are around the
usage. -/
theorem visitBase_this {env : Env} {u : Usage} (hthis : IsThis u.base) (c : Code)
    (hfull : Everywhere Code.Full c) (hu : usage? setting env c = some u)
    (ancestors : List CodeNode) (s : Scan) : visitBase setting ancestors c s = s := by
  induction c using Tree.inductionOn generalizing ancestors with
  | h i cs ih =>
    have hlen : ∀ n, Code.arity? i.shape = some n → cs.length = n := hfull.here
    by_cases hparen : i.shape = .paren
    · obtain ⟨c, rfl⟩ := List.length_eq_one_iff.mp (hlen 1 (by rw [hparen]; rfl))
      have hc : c ∈ [c] := List.mem_singleton_self c
      rw [usage?_paren setting hparen] at hu
      rw [visitBase, hparen]
      exact ih c hc (hfull.child hc) hu (i :: ancestors)
    · by_cases hmember : ∃ isArrow field, i.shape = .member isArrow field
      · obtain ⟨isArrow, field, hi⟩ := hmember
        obtain ⟨base, rfl⟩ := List.length_eq_one_iff.mp (hlen 1 (by rw [hi]; rfl))
        rw [base_of_usage? hi hu] at hthis
        rw [visitBase, hi]
        exact visit_this hthis (i :: ancestors) s
      · have hother : ∀ isArrow field, i.shape ≠ .member isArrow field :=
          fun isArrow field h => hmember ⟨isArrow, field, h⟩
        rw [usage?_other setting hparen hother] at hu
        exact absurd hu (by simp)

/-- A part in which there is nothing to do is rendered to its own text. -/
theorem render_still {visit : Scan → Scan} (h : ∀ s, visit s = s) (span : Span) (s : Scan) :
    (s.render setting span visit).2 = setting.file.text span := by
  have happly : EditQueue.apply (EditQueue.partition [] span).1
      (Text.slice setting.file.source span) span.start =
        .ok (Text.slice setting.file.source span) := by
    simp [EditQueue.partition, EditQueue.apply, EditQueue.ordered, EditQueue.spliceFrom]
  simp only [Scan.render, h, happly]
  rfl

/-- Carrying out the plan of a usage queues edits with its texts. -/
theorem exists_edit_of_texts {x : Site}
    (hrewrite : ∀ reason, x.strategy setting ≠ .refuse reason) (base : String)
    (operand : Option Operand) (s : Scan) :
    ∀ text ∈ x.texts setting base operand,
      ∃ e ∈ (s.apply x.node x.ancestors x.operation
          (boundary setting.file.source x.node x.ancestors)
          (Plan.make (Accesses.of base x.usage.isArrow x.usage.target.name x.operation operand)
            (x.strategy setting))).queue, text.toList <:+: e.text.toList := by
  rw [texts_eq hrewrite]
  cases hstrategy : x.strategy setting with
  | refuse reason => exact absurd hstrategy (hrewrite reason)
  | inPlace =>
    simp only [if_true, List.mem_singleton, forall_eq]
    refine ⟨.replace x.node.span _, ?_, List.infix_rfl⟩
    unfold Plan.make
    cases (Accesses.of base x.usage.isArrow x.usage.target.name x.operation operand).setter with
    | none => simp [Scan.queue_apply_inPlace]
    | some setter => simp [Scan.queue_apply_inPlace]
  | hoist side =>
    have hwrite : x.operation ≠ .read := by
      intro hread
      rw [strategy_of_read hread] at hstrategy
      exact absurd hstrategy (by simp)
    obtain ⟨b, hb⟩ := exists_boundary_of_hoist hwrite hstrategy
    obtain ⟨setter, hsetter⟩ :=
      exists_setter hwrite base x.usage.isArrow x.usage.target.name operand
    obtain ⟨opening, hqueue, -⟩ := Scan.queue_apply_hoist s x.node x.ancestors x.operation b
      (Accesses.of base x.usage.isArrow x.usage.target.name x.operation operand).getter side setter
    have hhelper : setter.toList <:+:
        (helperEdit b side (helperText b side setter)).text.toList := by
      cases side with
      | before => exact (prefix_append (prefix_append List.prefix_rfl _) _).isInfix
      | after =>
        simp only [helperEdit, Edit.insertAfter, helperText, String.toList_append]
        exact List.infix_append _ _ _
    simp only [hb, Plan.make, hsetter, hqueue, reduceCtorEq, if_false, Option.toList_some]
    intro text htext
    rcases List.mem_pair.mp htext with htext | rfl
    · refine ⟨.replace (parenthesizedSpan x.node x.ancestors) text, ?_, List.infix_rfl⟩
      simp [htext]
    · exact ⟨_, by simp, hhelper⟩

/-- A write on `this` is visited by rewriting it, with nothing to do in its object. -/
theorem visit_write_this {t : SurveyedCode} {u : Usage} {operation : Operation}
    (hfull : Everywhere Code.Full t.code) (hwrite : write? setting t = some (u, operation))
    (hthis : IsThis u.base) (ancestors : List CodeNode) (s : Scan) (hs : s.env = t.info.2) :
    ∃ visitBase right, (∀ r, visitBase r = r) ∧ visit setting ancestors t.code s =
      s.rewriteSite setting t.info.1 ancestors u operation visitBase right := by
  obtain ⟨⟨i, env⟩, parts⟩ := t
  rw [SurveyedCode.code_node] at hfull ⊢
  have hlen : ∀ n, Code.arity? i.shape = some n → (parts.map SurveyedCode.code).length = n :=
    hfull.here
  simp only [write?, info_node, SurveyedCode.code_node, children_node] at hwrite hs
  split at hwrite
  · rename_i op left rest hshape hcs
    obtain ⟨u', hu, hpair⟩ := Option.map_eq_some_iff.mp hwrite
    obtain ⟨rfl, rfl⟩ := Prod.mk.inj hpair
    obtain ⟨left', right, htwo⟩ := List.length_eq_two.mp (hlen 2 (by rw [hshape]; rfl))
    rw [htwo] at hcs hfull ⊢
    obtain ⟨rfl, rfl⟩ := List.cons.inj hcs
    refine ⟨visitBase setting (i :: ancestors) left',
      some ⟨right, visit setting (i :: ancestors) right⟩,
      visitBase_this hthis left' (hfull.child (by simp)) hu _, ?_⟩
    simp only [visit, hshape, Shape.sort, visitAssign, hs, hu, info_node]
  · rename_i op fixity operand rest hshape hcs
    obtain ⟨u', hu, hpair⟩ := Option.map_eq_some_iff.mp hwrite
    obtain ⟨rfl, rfl⟩ := Prod.mk.inj hpair
    rw [hcs] at hfull ⊢
    refine ⟨visitBase setting (i :: ancestors) operand, none,
      visitBase_this hthis operand (hfull.child (by simp)) hu _, ?_⟩
    simp only [visit, hshape, Shape.sort, visitStep, hs, hu, info_node]
  · exact absurd hwrite (by simp)

/-- A read on `this` is visited by rewriting it, with nothing to do in its object. -/
theorem visit_read_this {t : SurveyedCode} {u : Usage} (hfull : Everywhere Code.Full t.code)
    (hread : read? setting t = some u) (hthis : IsThis u.base) (ancestors : List CodeNode)
    (s : Scan) (hs : s.env = t.info.2) :
    ∃ visitBase, (∀ r, visitBase r = r) ∧ visit setting ancestors t.code s =
      s.rewriteSite setting t.info.1 ancestors u .read visitBase none := by
  obtain ⟨⟨i, env⟩, parts⟩ := t
  rw [SurveyedCode.code_node] at hfull ⊢
  have hlen : ∀ n, Code.arity? i.shape = some n → (parts.map SurveyedCode.code).length = n :=
    hfull.here
  simp only [read?, info_node, SurveyedCode.code_node] at hread hs
  split at hread
  · rename_i isArrow field hshape
    obtain ⟨base, hone⟩ := List.length_eq_one_iff.mp (hlen 1 (by rw [hshape]; rfl))
    rw [hone] at hread ⊢
    rw [base_of_usage? hshape hread] at hthis
    refine ⟨visitAll setting (i :: ancestors) [base], fun r => ?_, ?_⟩
    · exact visit_this hthis (i :: ancestors) r
    · simp only [visit, hshape, Shape.sort, hs, hread, info_node]
  · exact absurd hread (by simp)

/-- A write is no access. -/
theorem usage?_eq_none_of_write? {t : SurveyedCode} {w : Usage × Operation}
    (h : write? setting t = some w) : usage? setting t.info.2 t.code = none := by
  obtain ⟨⟨i, env⟩, parts⟩ := t
  simp only [write?, info_node] at h
  rw [SurveyedCode.code_node]
  split at h
  · rename_i hshape _
    exact usage?_other setting (by simp [hshape]) (by simp [hshape]) _ _
  · rename_i hshape _
    exact usage?_other setting (by simp [hshape]) (by simp [hshape]) _ _
  · exact absurd h (by simp)

/-- A search comes to every write. -/
theorem siteAt_of_write? {body t : SurveyedCode} {p : List Nat} {u : Usage}
    {operation : Operation} (ht : body.at? p = some t)
    (hwrite : write? setting t = some (u, operation)) :
    siteAt setting body p = some ⟨t.info.1, ancestorsAt body p, u, operation⟩ := by
  simp only [siteAt, ht, Option.bind_some, ownSite, hwrite]

/-- A search comes to every access that nothing around it holds. -/
theorem siteAt_of_read? {body t : SurveyedCode} {p : List Nat} {u : Usage}
    (ht : body.at? p = some t) (hread : read? setting t = some u)
    (hfree : heldFrom false body p = false) :
    siteAt setting body p = some ⟨t.info.1, ancestorsAt body p, u, .read⟩ := by
  have hnone : write? setting t = none := by
    refine Option.eq_none_iff_forall_ne_some.mpr fun w hw => ?_
    unfold read? at hread
    split at hread
    · exact absurd (hread.symm.trans (usage?_eq_none_of_write? hw)) (by simp)
    · exact absurd hread (by simp)
  simp only [siteAt, ht, Option.bind_some, ownSite, hnone, hfree, hread]
  rfl

/-- Where a usage on `this` is visited with an empty queue, edits with its texts are queued,
and the text of its object is that of the file. -/
theorem exists_edit_of_siteAt {body t : SurveyedCode} {p : List Nat} {x : Site}
    (hfull : Everywhere Code.Full t.code) (ht : body.at? p = some t)
    (hx : siteAt setting body p = some x) (hthis : IsThis x.usage.base) (s : Scan) :
    ∃ operand, ∀ text ∈ x.texts setting (setting.file.text x.usage.base.span) operand,
      ∃ e ∈ localQueue setting body p t s, text.toList <:+: e.text.toList := by
  obtain ⟨t', ht', hnode, hancestors, hcases⟩ := siteAt_cases hx
  obtain rfl : t = t' := Option.some.inj (ht.symm.trans ht')
  obtain ⟨visitBase, right, hstill, hvisit⟩ : ∃ visitBase right, (∀ r, visitBase r = r) ∧
      visit setting (ancestorsAt body p) t.code { s with queue := [], env := t.info.2 } =
        ({ s with queue := [], env := t.info.2 } : Scan).rewriteSite setting x.node x.ancestors
          x.usage x.operation visitBase right := by
    rw [hnode, hancestors]
    rcases hcases with hwrite | ⟨hop, hread, -⟩
    · exact visit_write_this hfull hwrite hthis _ _ rfl
    · rw [hop]
      obtain ⟨visitBase, hstill, hvisit⟩ := visit_read_this hfull hread hthis
        (ancestorsAt body p) { s with queue := [], env := t.info.2 } rfl
      exact ⟨visitBase, none, hstill, hvisit⟩
  have hlocal : localQueue setting body p t s =
      (visit setting (ancestorsAt body p) t.code
        { s with queue := [], env := t.info.2 }).queue := by
    have hwhole : (heldFrom false body p && (usage? setting t.info.2 t.code).isSome) = false := by
      rcases hcases with hwrite | ⟨-, -, hfree⟩
      · rw [usage?_eq_none_of_write? hwrite, Option.isSome_none, Bool.and_false]
      · rw [hfree, Bool.false_and]
    simp only [localQueue, hwhole, Bool.false_eq_true, if_false]
  rw [hlocal, hvisit]
  by_cases hrefuse : ∃ reason, x.strategy setting = .refuse reason
  · obtain ⟨reason, hreason⟩ := hrefuse
    refine ⟨none, fun text htext => ?_⟩
    rw [Site.texts, hreason] at htext
    exact absurd htext List.not_mem_nil
  · have hrewrite : ∀ reason, x.strategy setting ≠ .refuse reason :=
      fun reason h => hrefuse ⟨reason, h⟩
    rw [Scan.rewriteSite_of_rewrite hrewrite]
    simp only [render_still hstill]
    exact ⟨_, exists_edit_of_texts hrewrite _ _ _⟩

end Visit

section Functions

variable (setting : Setting)

/-- The function is the getter or the setter of a field of its own record, and rewriting one
of the usages of that field on `this` in its body puts a call of the function itself. -/
def CallsItself (f : Function) (target : Target) : Prop :=
  (Env.enter setting.symbols f).thisClass = some target.owner ∧
    (f.name = Name.getter target.name ∨ f.name = Name.setter target.name) ∧
    ∃ x ∈ sitesOf (actsOfFunctions setting [f]),
      x.usage.target = target ∧ IsThis x.usage.base ∧ x.Puts setting f.name

/-- A usage of a field on `this` in a surveyed body whose rewritten form reads the field. -/
inductive NeedsGetter (body : SurveyedCode) (target : Target) : Prop where
  /-- An access that nothing around it holds. -/
  | read (p : List Nat) (t : SurveyedCode) (u : Usage) (ht : body.at? p = some t)
      (hread : read? setting t = some u) (hfree : heldFrom false body p = false)
      (htarget : u.target = target) (hthis : IsThis u.base)
  /-- A legal write that uses the old value or whose value is used. -/
  | write (p : List Nat) (t : SurveyedCode) (u : Usage) (operation : Operation)
      (ht : body.at? p = some t) (hwrite : write? setting t = some (u, operation))
      (hlegal : ¬ Illegal t.info.1 (ancestorsAt body p) operation)
      (hvalue : ¬ (operation = .assign ∧ Whole t.info.1 (ancestorsAt body p)))
      (htarget : u.target = target) (hthis : IsThis u.base)

def NeedsSetter (body : SurveyedCode) (target : Target) : Prop :=
  ∃ p t u operation, body.at? p = some t ∧ write? setting t = some (u, operation) ∧
    ¬ Illegal t.info.1 (ancestorsAt body p) operation ∧ u.target = target ∧ IsThis u.base

variable {setting}

theorem mem_sitesOf_iff {f : Function}
    (hfull : ∀ b, f.body = some b → Everywhere Code.Full b) {x : Site} :
    x ∈ sitesOf (actsOfFunctions setting [f]) ↔
      ∃ body p, surveyFunction setting.symbols f = some body ∧ siteAt setting body p = some x := by
  rw [sitesOf_actsOfFunctions setting [f] (by simpa using hfull)]
  simp only [surveyFunctions, List.mem_flatMap, List.mem_filterMap, List.mem_singleton,
    exists_eq_left]
  constructor
  · rintro ⟨body, hbody, p, -, hx⟩
    exact ⟨body, p, hbody, hx⟩
  · rintro ⟨body, p, hbody, hx⟩
    refine ⟨body, hbody, p, mem_positions.mpr ?_, hx⟩
    obtain ⟨t, ht, -⟩ := siteAt_cases hx
    rw [ht]
    rfl

/-- The usages of a body that put a call of the setter. -/
theorem exists_puts_setter_iff {body : SurveyedCode} {target : Target} :
    (∃ p x, siteAt setting body p = some x ∧ x.usage.target = target ∧ IsThis x.usage.base ∧
        x.Puts setting (Name.setter target.name)) ↔ NeedsSetter setting body target := by
  constructor
  · rintro ⟨p, x, hx, rfl, hthis, hputs⟩
    obtain ⟨hrewrite, hnotRead⟩ := puts_setter_iff.mp hputs
    obtain ⟨t, ht, hnode, hancestors, hwrite | ⟨hread, -⟩⟩ := siteAt_cases hx
    · refine ⟨p, t, x.usage, x.operation, ht, hwrite, ?_, rfl, hthis⟩
      rw [← hnode, ← hancestors, ← refuse_iff_illegal setting.file.source _ _ hnotRead]
      rintro ⟨reason, hrefuse⟩
      exact hrewrite reason hrefuse
    · exact absurd hread hnotRead
  · rintro ⟨p, t, u, operation, ht, hwrite, hlegal, rfl, hthis⟩
    have hnotRead := write?_ne_read hwrite
    refine ⟨p, _, siteAt_of_write? ht hwrite, rfl, hthis,
      puts_setter_iff.mpr ⟨fun reason hrefuse => ?_, hnotRead⟩⟩
    exact hlegal ((refuse_iff_illegal setting.file.source _ _ hnotRead).mp ⟨reason, hrefuse⟩)

/-- The usages of a body that put a call of the getter. -/
theorem exists_puts_getter_iff {body : SurveyedCode} {target : Target} :
    (∃ p x, siteAt setting body p = some x ∧ x.usage.target = target ∧ IsThis x.usage.base ∧
        x.Puts setting (Name.getter target.name)) ↔ NeedsGetter setting body target := by
  constructor
  · rintro ⟨p, x, hx, rfl, hthis, hputs⟩
    obtain ⟨hrewrite, hvalue⟩ := puts_getter_iff.mp hputs
    obtain ⟨t, ht, hnode, hancestors, hwrite | ⟨-, hread, hfree⟩⟩ := siteAt_cases hx
    · have hnotRead := write?_ne_read hwrite
      refine .write p t x.usage x.operation ht hwrite ?_ ?_ rfl hthis
      · rw [← hnode, ← hancestors, ← refuse_iff_illegal setting.file.source _ _ hnotRead]
        rintro ⟨reason, hrefuse⟩
        exact hrewrite reason hrefuse
      · rw [← hnode, ← hancestors, ← inPlace_iff_whole setting.file.source _ _ hnotRead]
        exact hvalue
    · exact .read p t x.usage ht hread hfree rfl hthis
  · rintro (⟨p, t, u, ht, hread, hfree, rfl, hthis⟩ |
      ⟨p, t, u, operation, ht, hwrite, hlegal, hvalue, rfl, hthis⟩)
    · refine ⟨p, _, siteAt_of_read? ht hread hfree, rfl, hthis,
        puts_getter_iff.mpr ⟨fun reason hrefuse => ?_, ?_⟩⟩
      · rw [strategy_of_read rfl] at hrefuse
        exact absurd hrefuse (by simp)
      · exact fun h => absurd h.1 (by simp)
    · have hnotRead := write?_ne_read hwrite
      refine ⟨p, _, siteAt_of_write? ht hwrite, rfl, hthis,
        puts_getter_iff.mpr ⟨fun reason hrefuse => ?_, ?_⟩⟩
      · exact hlegal ((refuse_iff_illegal setting.file.source _ _ hnotRead).mp ⟨reason, hrefuse⟩)
      · rintro ⟨hassign, hplace⟩
        exact hvalue ⟨hassign, (inPlace_iff_whole setting.file.source _ _ hnotRead).mp hplace⟩

end Functions

/-- Rewriting the body of a method makes it call itself on `this` exactly where the method is
the getter of a field of its record and has a usage of the field on `this` that needs the
getter, or is the setter and has one that needs the setter. The search of the method carries
out the listed actions, and visiting such a usage queues edits with the texts in question,
the text of the object being that of the file. -/
theorem calls_itself_iff (path : String) (source : List Char) (parsed : Parsed)
    (symbols : Symbols) (targets : List Target) (f : Function)
    (hf : f ∈ (SourceFile.ofParsed path source parsed).functions) (target : Target) :
    let setting : Setting := ⟨.ofParsed path source parsed, symbols, targets⟩
    (CallsItself setting f target ↔
        (Env.enter symbols f).thisClass = some target.owner ∧
          ∃ body, surveyFunction symbols f = some body ∧
            (f.name = Name.getter target.name ∧ NeedsGetter setting body target ∨
              f.name = Name.setter target.name ∧ NeedsSetter setting body target)) ∧
      (∃ env, scan setting [f] =
        { execAll setting (actsOfFunctions setting [f]) {} with env }) ∧
      ∀ body, surveyFunction symbols f = some body → ∀ p t x, body.at? p = some t →
        siteAt setting body p = some x → IsThis x.usage.base → ∀ s : Scan,
          ∃ operand, ∀ text ∈ x.texts setting (setting.file.text x.usage.base.span) operand,
            ∃ e ∈ localQueue setting body p t s, text.toList <:+: e.text.toList := by
  intro setting
  have hfull : ∀ b, f.body = some b → Everywhere Code.Full b := fun b hb => full_body hf hb
  refine ⟨?_, scan_eq setting [f] (by simpa using hfull), ?_⟩
  · unfold CallsItself
    simp only [mem_sitesOf_iff hfull]
    refine and_congr_right fun _ => ?_
    constructor
    · rintro ⟨hname, x, ⟨body, p, hbody, hx⟩, htarget, hthis, hputs⟩
      refine ⟨body, hbody, hname.imp (fun hname => ⟨hname, ?_⟩) fun hname => ⟨hname, ?_⟩⟩
      · exact exists_puts_getter_iff.mp ⟨p, x, hx, htarget, hthis, hname ▸ hputs⟩
      · exact exists_puts_setter_iff.mp ⟨p, x, hx, htarget, hthis, hname ▸ hputs⟩
    · rintro ⟨body, hbody, ⟨hname, hneeds⟩ | ⟨hname, hneeds⟩⟩
      · obtain ⟨p, x, hx, htarget, hthis, hputs⟩ := exists_puts_getter_iff.mpr hneeds
        exact ⟨.inl hname, x, ⟨body, p, hbody, hx⟩, htarget, hthis, hname ▸ hputs⟩
      · obtain ⟨p, x, hx, htarget, hthis, hputs⟩ := exists_puts_setter_iff.mpr hneeds
        exact ⟨.inr hname, x, ⟨body, p, hbody, hx⟩, htarget, hthis, hname ▸ hputs⟩
  · intro body hbody p t x ht hx hthis s
    have hmem : body ∈ surveyFunctions symbols [f] := by simp [surveyFunctions, hbody]
    exact exists_edit_of_siteAt (full_of_at? (by simpa using hfull) hmem ht) ht hx hthis s

section Example

open ParseTree

def selfText : List Char :=
  "struct R\x7bint getX();int x;\x7d;int R::getX()\x7breturn this->x;\x7d".toList

/-- The record `R` with a field `x` and a getter that is written by hand. -/
def selfTree : ParseTree :=
  named "translation_unit" 0 58
    [named "struct_specifier" 0 27
       [filling "name" "type_identifier" 7 8 [],
        filling "body" "field_declaration_list" 8 27
          [named "field_declaration" 9 20
             [filling "type" "primitive_type" 9 12 [],
              filling "declarator" "function_declarator" 13 19
                [filling "declarator" "field_identifier" 13 17 [],
                 filling "parameters" "parameter_list" 17 19 []]],
           named "field_declaration" 20 26
             [filling "type" "primitive_type" 20 23 [],
              filling "declarator" "field_identifier" 24 25 []],
           mark none "\x7d" 26 27]],
     named "function_definition" 28 58
       [filling "type" "primitive_type" 28 31 [],
        filling "declarator" "function_declarator" 32 41
          [filling "declarator" "qualified_identifier" 32 39
             [filling "scope" "namespace_identifier" 32 33 [],
              filling "name" "identifier" 35 39 []],
           filling "parameters" "parameter_list" 39 41 []],
        filling "body" "compound_statement" 41 58
          [named "return_statement" 42 57
             [named "field_expression" 49 56
                [filling "argument" "this" 49 53 [],
                 mark (some "operator") "->" 53 55,
                 filling "field" "field_identifier" 55 56 []]],
           mark none "\x7d" 57 58]]]

def selfFile : SourceFile :=
  .ofParsed "self.cpp" selfText ⟨selfTree, false⟩

def selfSetting : Setting :=
  .ofUnit ["R::x"] ⟨selfFile, []⟩

/-- The only function is the getter of `x` in `R`, and its `this->x` becomes `this->getX()`. -/
theorem getter_made_recursive :
    selfFile.functions.map (fun f => (f.name, (Env.enter selfSetting.symbols f).thisClass)) =
        [(Name.getter "x", some "R")] ∧
      selfSetting.targets.map (fun t => (t.name, t.owner)) = [("x", "R")] ∧
      selfFile.text ⟨49, 56⟩ = "this->x" ∧
      (scan selfSetting selfFile.functions).queue = [.replace ⟨49, 56⟩ "this->getX()"] := by
  refine ⟨?_, ?_, ?_, ?_⟩
  all_goals decide +kernel

def selfBody : SurveyedCode :=
  (selfFile.functions.head?.bind (surveyFunction selfSetting.symbols)).getD
    (.node (⟨.body, .block, .point 0⟩, {}) [])

/-- The access that is returned is a read on `this`. -/
theorem selfBody_needsGetter {target : Target} (htarget : selfSetting.targets = [target]) :
    NeedsGetter selfSetting selfBody target := by
  obtain ⟨t, ht⟩ : ∃ t, selfBody.at? [0, 0] = some t :=
    Option.isSome_iff_exists.mp (by decide +kernel)
  have hused : ((selfBody.at? [0, 0]).bind (read? selfSetting)).map
      (fun u => (some u.target, u.base.info, u.base.children.length)) =
        some (selfSetting.targets.head?, ⟨.item, .this, ⟨49, 53⟩⟩, 0) := by decide +kernel
  rw [ht, Option.bind_some, htarget] at hused
  obtain ⟨⟨used, isArrow, ⟨info, children⟩⟩, hread, hparts⟩ := Option.map_eq_some_iff.mp hused
  obtain ⟨hsame, hbase⟩ := Prod.mk.inj hparts
  obtain ⟨rfl, hnone⟩ := Prod.mk.inj hbase
  obtain rfl : children = [] := List.eq_nil_of_length_eq_zero hnone
  exact .read [0, 0] t _ ht hread (by decide +kernel) (Option.some.inj hsame) (.this _ _)

/-- So the getter calls itself. -/
theorem calls_itself_iff_getter :
    ∃ f ∈ selfFile.functions, ∃ target ∈ selfSetting.targets,
      CallsItself selfSetting f target := by
  obtain ⟨f, hf⟩ : ∃ f, selfFile.functions = [f] :=
    List.length_eq_one_iff.mp (by decide +kernel)
  obtain ⟨target, htarget⟩ : ∃ target, selfSetting.targets = [target] :=
    List.length_eq_one_iff.mp (by decide +kernel)
  have hmem : f ∈ selfFile.functions := by rw [hf]; exact List.mem_singleton_self f
  have hfunction : selfFile.functions.map (fun f => (f.name,
      (Env.enter selfSetting.symbols f).thisClass,
      (surveyFunction selfSetting.symbols f).isSome)) = [("getX", some "R", true)] := by
    decide +kernel
  have howner : selfSetting.targets.map (fun t => (t.owner, Name.getter t.name)) =
      [("R", "getX")] := by decide +kernel
  rw [hf] at hfunction
  rw [htarget] at howner
  simp only [List.map_cons, List.map_nil, List.cons.injEq, Prod.mk.injEq, and_true]
    at hfunction howner
  obtain ⟨hname, hthis, hsome⟩ := hfunction
  obtain ⟨body, hbody⟩ := Option.isSome_iff_exists.mp hsome
  have hself : selfBody = body := by
    rw [selfBody, hf, List.head?_cons, Option.bind_some, hbody, Option.getD_some]
  refine ⟨f, hmem, target, by rw [htarget]; exact List.mem_singleton_self target, ?_⟩
  have hsetting : selfSetting = ⟨.ofParsed "self.cpp" selfText ⟨selfTree, false⟩,
      .ofUnit ⟨selfFile, []⟩, (select ["R::x"] ⟨selfFile, []⟩).targets⟩ := rfl
  obtain ⟨hiff, -⟩ := calls_itself_iff "self.cpp" selfText ⟨selfTree, false⟩
    (.ofUnit ⟨selfFile, []⟩) (select ["R::x"] ⟨selfFile, []⟩).targets f hmem target
  rw [← hsetting] at hiff
  refine hiff.mpr ⟨?_, body, hbody, Or.inl ⟨?_, ?_⟩⟩
  · exact hthis.trans (congrArg some howner.1.symm)
  · rw [hname, howner.2]
  · rw [← hself]
    exact selfBody_needsGetter htarget

end Example

end Encapsulate.Accessors
