import Encapsulate.Proofs.Edits
import Encapsulate.Proofs.Legality
import Encapsulate.Proofs.Scoping

/-!
Where edits come from. Every replacement that a search queues, in its own queue or in one
that a part is rendered with, is of the span that a rewritten usage gives up, and every
insertion is at an end of the statement beside which a hoisted write puts its helper. For
insertions that close a block this needs the order of things: a block is opened for a
statement around the usage, and the search closes it when it leaves that statement.
-/

namespace Encapsulate.Accessors

open Cpp Encapsulate.Tree

namespace Site

def replaced? (source : List Char) (x : Site) : Option Span :=
  match strategyAt source x.node x.ancestors x.operation with
  | .refuse _ => none
  | .inPlace => some x.node.span
  | .hoist _ => some (parenthesizedSpan x.node x.ancestors)

def host? (source : List Char) (x : Site) : Option Span :=
  match strategyAt source x.node x.ancestors x.operation with
  | .hoist _ => (boundary source x.node x.ancestors).map Boundary.span
  | _ => none

end Site

def InsertsBeside (source : List Char) (sites : List Site) (e : Edit) : Prop :=
  e.span = .point e.offset ∧
    ∃ x ∈ sites, ∃ host, x.host? source = some host ∧ EndOf host e.offset

def OpenAround (ancestors : List CodeNode) (s : Scan) : Prop :=
  ∀ c ∈ s.closings, c.1 < ancestors.length

/-- A block that was opened for an ancestor beside which one of the usages puts a helper. -/
def OpenedFor (source : List Char) (sites : List Site) (ancestors : List CodeNode)
    (c : Nat × String) : Prop :=
  ∃ inner n outer, ancestors = inner ++ n :: outer ∧ c.1 = outer.length ∧
    n.shape.sort = .statement ∧ ∃ x ∈ sites, x.host? source = some n.span

theorem OpenedFor.depth_lt {source : List Char} {sites : List Site} {ancestors : List CodeNode}
    {c : Nat × String} (h : OpenedFor source sites ancestors c) : c.1 < ancestors.length := by
  obtain ⟨inner, n, outer, rfl, hdepth, -⟩ := h
  rw [hdepth, List.length_append, List.length_cons]
  omega

/-- A block was opened for the innermost ancestor or for one of the others. -/
theorem OpenedFor.cases_cons {source : List Char} {sites : List Site}
    {ancestors : List CodeNode} {i : CodeNode} {c : Nat × String}
    (h : OpenedFor source sites (i :: ancestors) c) :
    (c.1 = ancestors.length ∧ i.shape.sort = .statement ∧
        ∃ x ∈ sites, x.host? source = some i.span) ∨
      OpenedFor source sites ancestors c := by
  obtain ⟨inner, n, outer, hsplit, hdepth, hsort, hsite⟩ := h
  cases inner with
  | nil =>
    obtain ⟨rfl, rfl⟩ := List.cons.inj hsplit
    exact Or.inl ⟨hdepth, hsort, hsite⟩
  | cons m inner =>
    obtain ⟨-, rfl⟩ := List.cons.inj hsplit
    exact Or.inr ⟨inner, n, outer, rfl, hdepth, hsort, hsite⟩

/-- On the way from `s` to `s'` under the given ancestors the edits `new` are queued, and all
of them are made by the usages `sites`. -/
structure Adds (source : List Char) (sites : List Site) (ancestors : List CodeNode)
    (new : EditQueue) (s s' : Scan) : Prop where
  queue : s'.queue = s.queue ++ new
  replaces : ∀ e ∈ new, e.kind = .replace → ∃ x ∈ sites, x.replaced? source = some e.span
  inserts : OpenAround ancestors s → ∀ e ∈ new, e.kind ≠ .replace → InsertsBeside source sites e
  closings : OpenAround ancestors s →
    ∀ c ∈ s'.closings, c ∈ s.closings ∨ OpenedFor source sites ancestors c

namespace Adds

variable {source : List Char} {sites sites' : List Site} {ancestors : List CodeNode}
  {new new' : EditQueue} {s s' s'' : Scan}

theorem still (hqueue : s'.queue = s.queue) (hclosings : s'.closings = s.closings) :
    Adds source sites ancestors [] s s' :=
  ⟨by rw [hqueue, List.append_nil], by simp, by simp, fun _ c hc => Or.inl (hclosings ▸ hc)⟩

theorem openAround (h : Adds source sites ancestors new s s') (hs : OpenAround ancestors s) :
    OpenAround ancestors s' := by
  intro c hc
  rcases h.closings hs c hc with hold | hnew
  · exact hs c hold
  · exact hnew.depth_lt

theorem mono (h : Adds source sites ancestors new s s') (hsub : ∀ x ∈ sites, x ∈ sites') :
    Adds source sites' ancestors new s s' := by
  refine ⟨h.queue, ?_, ?_, ?_⟩
  · intro e he hkind
    obtain ⟨x, hx, hspan⟩ := h.replaces e he hkind
    exact ⟨x, hsub x hx, hspan⟩
  · intro hs e he hkind
    obtain ⟨hpoint, x, hx, hhost⟩ := h.inserts hs e he hkind
    exact ⟨hpoint, x, hsub x hx, hhost⟩
  · intro hs c hc
    refine (h.closings hs c hc).imp_right ?_
    rintro ⟨inner, n, outer, hsplit, hdepth, hsort, x, hx, hhost⟩
    exact ⟨inner, n, outer, hsplit, hdepth, hsort, x, hsub x hx, hhost⟩

theorem trans (h : Adds source sites ancestors new s s')
    (h' : Adds source sites ancestors new' s' s'') :
    Adds source sites ancestors (new ++ new') s s'' := by
  refine ⟨by rw [h'.queue, h.queue, List.append_assoc], ?_, ?_, ?_⟩
  · intro e he
    rcases List.mem_append.mp he with he | he
    · exact h.replaces e he
    · exact h'.replaces e he
  · intro hs e he
    rcases List.mem_append.mp he with he | he
    · exact h.inserts hs e he
    · exact h'.inserts (h.openAround hs) e he
  · intro hs c hc
    rcases h'.closings (h.openAround hs) c hc with hmid | hnew
    · exact h.closings hs c hmid
    · exact Or.inr hnew

/-- An ancestor that is no statement has no block. -/
theorem below {i : CodeNode} (hi : i.shape.sort ≠ .statement)
    (h : Adds source sites (i :: ancestors) new s s') : Adds source sites ancestors new s s' := by
  have hwider : OpenAround ancestors s → OpenAround (i :: ancestors) s :=
    fun hs c hc => Nat.lt_succ_of_lt (hs c hc)
  refine ⟨h.queue, h.replaces, fun hs => h.inserts (hwider hs), ?_⟩
  intro hs c hc
  refine (h.closings (hwider hs) c hc).imp_right fun hnew => ?_
  rcases hnew.cases_cons with ⟨-, hsort, -⟩ | hnew
  · exact absurd hsort hi
  · exact hnew

/-- Leaving a statement closes the block that was opened for it, and no other. -/
theorem closed {i : CodeNode} (h : Adds source sites (i :: ancestors) new s s') :
    ∃ last, Adds source sites ancestors (new ++ last) s
      (s'.close ancestors.length i.span.stop) := by
  have hwider : OpenAround ancestors s → OpenAround (i :: ancestors) s :=
    fun hs c hc => Nat.lt_succ_of_lt (hs c hc)
  have hcases : OpenAround ancestors s → ∀ c ∈ s'.closings,
      (c.1 = ancestors.length ∧ ∃ x ∈ sites, x.host? source = some i.span) ∨
        c ∈ s.closings ∨ OpenedFor source sites ancestors c := by
    intro hs c hc
    rcases h.closings (hwider hs) c hc with hold | hnew
    · exact Or.inr (Or.inl hold)
    · rcases hnew.cases_cons with ⟨hdepth, -, hsite⟩ | hnew
      · exact Or.inl ⟨hdepth, hsite⟩
      · exact Or.inr (Or.inr hnew)
  unfold Scan.close
  cases hlookup : s'.closings.lookup ancestors.length with
  | none =>
    refine ⟨[], ?_⟩
    rw [List.append_nil]
    refine ⟨h.queue, h.replaces, fun hs => h.inserts (hwider hs), ?_⟩
    intro hs c hc
    rcases hcases hs c hc with ⟨hdepth, -⟩ | hother
    · have hnone := List.lookup_eq_none_iff.mp hlookup c hc
      simp [hdepth] at hnone
    · exact hother
  | some text =>
    refine ⟨[.insertAfter i.span.stop text], ?_, ?_, ?_, ?_⟩
    · change s'.queue ++ _ = _
      rw [h.queue, List.append_assoc]
    · intro e he hkind
      rcases List.mem_append.mp he with he | he
      · exact h.replaces e he hkind
      · rw [List.mem_singleton.mp he] at hkind
        exact absurd hkind (by simp [Edit.insertAfter])
    · intro hs e he hkind
      rcases List.mem_append.mp he with he | he
      · exact h.inserts (hwider hs) e he hkind
      · obtain ⟨front, back, hsplit, -⟩ := List.lookup_eq_some_iff.mp hlookup
        have hmem : (ancestors.length, text) ∈ s'.closings := by rw [hsplit]; simp
        rw [List.mem_singleton.mp he]
        rcases hcases hs _ hmem with ⟨-, x, hx, hhost⟩ | hold | hnew
        · exact ⟨rfl, x, hx, i.span, hhost, Or.inr rfl⟩
        · exact absurd (hs _ hold) (Nat.lt_irrefl _)
        · exact absurd hnew.depth_lt (Nat.lt_irrefl _)
    · intro hs c hc
      obtain ⟨hc, hdepth⟩ := List.mem_filter.mp hc
      rcases hcases hs c hc with ⟨heq, -⟩ | hother
      · simp [heq] at hdepth
      · exact hother

end Adds

namespace Scan

variable {setting : Setting} {sites : List Site} {ancestors : List CodeNode}

theorem adds_reportUnresolved (span : Span) (field : String) (objectClass : Option String)
    (s : Scan) : Adds setting.file.source sites ancestors [] s
      (s.reportUnresolved setting span field objectClass) := by
  unfold reportUnresolved
  split <;> exact .still rfl rfl

theorem adds_noteDuplicate (offset : Nat) (u : Usage) (operation : Operation) (s : Scan) :
    Adds setting.file.source sites ancestors [] s
      (s.noteDuplicate setting offset u operation) := by
  unfold noteDuplicate
  split <;> exact .still rfl rfl

/-- Rendering a part queues no edits but some of those that visiting the part makes. -/
theorem adds_render {visit : Scan → Scan}
    (hvisit : ∀ s, ∃ new, Adds setting.file.source sites ancestors new s (visit s))
    (span : Span) (s : Scan) :
    ∃ new, Adds setting.file.source sites ancestors new s (s.render setting span visit).1 := by
  obtain ⟨new, hnew⟩ := hvisit { s with queue := [] }
  have hqueue : (visit { s with queue := [] }).queue = new := hnew.queue
  have hsub : ∀ e ∈ ((visit { s with queue := [] }).queue.partition span).2, e ∈ new := by
    intro e he
    rw [EditQueue.partition, List.partition_eq_filter_filter, hqueue] at he
    exact List.mem_of_mem_filter he
  have hforwarded : Adds setting.file.source sites ancestors
      ((visit { s with queue := [] }).queue.partition span).2 s
      { visit { s with queue := [] } with
        queue := s.queue ++ ((visit { s with queue := [] }).queue.partition span).2 } :=
    ⟨rfl, fun e he => hnew.replaces e (hsub e he), fun hs e he => hnew.inserts hs e (hsub e he),
      hnew.closings⟩
  unfold render
  simp only
  split
  · exact ⟨_, hforwarded⟩
  · exact ⟨_, hforwarded.trans (.still rfl rfl)⟩

theorem adds_renderRight {right : Option RightSide}
    (hright : ∀ s, ∃ new, Adds setting.file.source sites ancestors new s (s.visitRight right))
    (s : Scan) :
    ∃ new, Adds setting.file.source sites ancestors new s (s.renderRight setting right).1 := by
  cases right with
  | none => exact ⟨[], .still rfl rfl⟩
  | some right => exact adds_render hright right.code.span s

/-- What a helper statement queues stands at the ends of its boundary. -/
theorem insertion_of_helper {b : Boundary} {opening : EditQueue} (side : Side) (text : String)
    (hopening : opening = [] ∨ opening = [.insertBefore b.span.start ("\x7b\n" ++ b.indent)]) :
    ∀ e ∈ opening ++ [helperEdit b side text],
      e.kind ≠ .replace ∧ e.span = .point e.offset ∧ EndOf b.span e.offset := by
  have hhelper : (helperEdit b side text).kind ≠ .replace ∧
      (helperEdit b side text).span = .point (helperEdit b side text).offset ∧
      EndOf b.span (helperEdit b side text).offset := by
    cases side with
    | before => exact ⟨by simp [helperEdit, Edit.insertBefore], rfl, Or.inl rfl⟩
    | after => exact ⟨by simp [helperEdit, Edit.insertAfter], rfl, Or.inr rfl⟩
  intro e he
  rcases List.mem_append.mp he with he | he
  · rcases hopening with rfl | rfl
    · simp at he
    · rw [List.mem_singleton.mp he]
      exact ⟨by simp [Edit.insertBefore], rfl, Or.inl rfl⟩
  · rw [List.mem_singleton.mp he]
    exact hhelper

theorem closings_openBlock (s : Scan) (b : Boundary) :
    ∀ c ∈ (s.openBlock b).closings, c ∈ s.closings ∨ c.1 = b.depth := by
  intro c hc
  unfold openBlock at hc
  split at hc
  · rcases List.mem_cons.mp hc with rfl | hc
    · exact Or.inr rfl
    · exact Or.inl hc
  · exact Or.inl hc

theorem closings_apply_hoist (s : Scan) (site : CodeNode) (ancestors : List CodeNode)
    (operation : Operation) (b : Boundary) (text : String) (side : Side) (setter : String) :
    ∀ c ∈ (s.apply site ancestors operation (some b) ⟨text, some (side, setter)⟩).closings,
      c ∈ s.closings ∨ c.1 = b.depth := by
  have hcount : ∀ r : Scan, (r.count operation).closings = r.closings := by
    intro r
    cases operation <;> rfl
  intro c hc
  have hopened : c ∈ (((s.push (.replace (parenthesizedSpan site ancestors) text)).count
      operation).openBlock b).closings := by
    cases side <;> exact hc
  have hcases := closings_openBlock _ b c hopened
  rw [hcount] at hcases
  exact hcases

/-- Carrying out the plan of a usage queues the edits of that usage. -/
theorem adds_apply (x : Site) (hx : x ∈ sites)
    (hrewrite : ∀ reason,
      strategyAt setting.file.source x.node x.ancestors x.operation ≠ .refuse reason)
    (base : String) (operand : Option Operand) (s : Scan) :
    ∃ new, Adds setting.file.source sites x.ancestors new s
      (s.apply x.node x.ancestors x.operation (boundary setting.file.source x.node x.ancestors)
        (Plan.make (Accesses.of base x.usage.isArrow x.usage.target.name x.operation operand)
          (strategyAt setting.file.source x.node x.ancestors x.operation))) := by
  -- a replacement in place, by whatever text
  have hplace : strategyAt setting.file.source x.node x.ancestors x.operation = .inPlace →
      ∀ (b : Option Boundary) (text : String), Adds setting.file.source sites x.ancestors
        [.replace x.node.span text] s (s.apply x.node x.ancestors x.operation b ⟨text, none⟩) := by
    intro hstrategy b text
    refine ⟨queue_apply_inPlace .., ?_, ?_, ?_⟩
    · intro e he _
      rw [List.mem_singleton.mp he]
      exact ⟨x, hx, by rw [Site.replaced?, hstrategy]; rfl⟩
    · intro _ e he hkind
      rw [List.mem_singleton.mp he] at hkind
      exact absurd rfl hkind
    · intro _ c hc
      refine Or.inl ?_
      revert hc
      unfold apply
      cases x.operation <;> exact id
  cases hstrategy : strategyAt setting.file.source x.node x.ancestors x.operation with
  | refuse reason => exact absurd hstrategy (hrewrite reason)
  | inPlace =>
    unfold Plan.make
    cases (Accesses.of base x.usage.isArrow x.usage.target.name x.operation operand).setter with
    | none => exact ⟨_, hplace hstrategy _ _⟩
    | some setter => exact ⟨_, hplace hstrategy _ _⟩
  | hoist side =>
    have hwrite : x.operation ≠ .read := by
      intro hread
      rw [strategyAt, hread] at hstrategy
      exact absurd hstrategy (by simp [Strategy.choose])
    obtain ⟨b, hb⟩ := exists_boundary_of_hoist hwrite hstrategy
    obtain ⟨setter, hsetter⟩ :=
      exists_setter hwrite base x.usage.isArrow x.usage.target.name operand
    obtain ⟨passed, stmt, outer, hway, hroute, hdepth, hspan, -⟩ := boundaryFrom_route hb
    have hhost : x.host? setting.file.source = some b.span := by
      rw [Site.host?, hstrategy]
      simp [hb]
    rw [hb]
    simp only [Plan.make, hsetter]
    obtain ⟨opening, hqueue, hopening⟩ := queue_apply_hoist s x.node x.ancestors x.operation b
      (Accesses.of base x.usage.isArrow x.usage.target.name x.operation operand).getter side setter
    have hhelper := insertion_of_helper side (helperText b side setter) hopening
    refine ⟨_, by rw [hqueue, List.append_assoc, List.append_assoc], ?_, ?_, ?_⟩
    · intro e he hkind
      rcases List.mem_append.mp he with he | he
      · rw [List.mem_singleton.mp he]
        exact ⟨x, hx, by rw [Site.replaced?, hstrategy]; rfl⟩
      · exact absurd hkind (hhelper e he).1
    · intro _ e he hkind
      rcases List.mem_append.mp he with he | he
      · rw [List.mem_singleton.mp he] at hkind
        exact absurd rfl hkind
      · obtain ⟨-, hpoint, hend⟩ := hhelper e he
        exact ⟨hpoint, x, hx, b.span, hhost, hend⟩
    · intro _ c hc
      refine (closings_apply_hoist s x.node x.ancestors x.operation b _ side setter c hc).imp_right
        fun hc => ⟨passed, stmt, outer, hway, hc.trans hdepth, hroute.sort, x, hx, ?_⟩
      rw [hhost, hspan]

end Scan

/-- A usage queues its own edits, once those of its parts are queued or rendered. -/
theorem adds_rewriteSite (setting : Setting) {sites : List Site} {x : Site} (hx : x ∈ sites)
    {visitBase : Scan → Scan} {right : Option Scan.RightSide}
    (hbase : ∀ s, ∃ new, Adds setting.file.source sites x.ancestors new s (visitBase s))
    (hright : ∀ s, ∃ new, Adds setting.file.source sites x.ancestors new s (s.visitRight right))
    (s : Scan) :
    ∃ new, Adds setting.file.source sites x.ancestors new s
      (s.rewriteSite setting x.node x.ancestors x.usage x.operation visitBase right) := by
  by_cases hrefuse : ∃ reason,
      strategyAt setting.file.source x.node x.ancestors x.operation = .refuse reason
  · obtain ⟨reason, hreason⟩ := hrefuse
    rw [Scan.rewriteSite_of_refuse hreason]
    obtain ⟨new, hnew⟩ := hbase (s.reportRefusal setting x.node.span.start x.usage.target
      x.operation reason)
    obtain ⟨more, hmore⟩ := hright (visitBase (s.reportRefusal setting x.node.span.start
      x.usage.target x.operation reason))
    have hreport : Adds setting.file.source sites x.ancestors [] s
        (s.reportRefusal setting x.node.span.start x.usage.target x.operation reason) :=
      .still rfl rfl
    exact ⟨_, hreport.trans (hnew.trans hmore)⟩
  · have hother : ∀ reason,
        strategyAt setting.file.source x.node x.ancestors x.operation ≠ .refuse reason :=
      fun reason hreason => hrefuse ⟨reason, hreason⟩
    rw [Scan.rewriteSite_of_rewrite hother]
    have hnote : Adds setting.file.source sites x.ancestors [] s
        (s.noteDuplicate setting x.node.span.start x.usage x.operation) :=
      Scan.adds_noteDuplicate x.node.span.start x.usage x.operation s
    obtain ⟨inner, hinner⟩ := Scan.adds_render hbase x.usage.base.span
      (s.noteDuplicate setting x.node.span.start x.usage x.operation)
    obtain ⟨later, hlater⟩ := Scan.adds_renderRight hright ((s.noteDuplicate setting
      x.node.span.start x.usage x.operation).render setting x.usage.base.span visitBase).1
    obtain ⟨own, hown⟩ := Scan.adds_apply x hx hother _ _ _
    exact ⟨_, hnote.trans (hinner.trans (hlater.trans hown))⟩

/-- Actions as they are listed for code with the given ancestors: usages stand directly below
them, and a block is closed where the statement above it is left. -/
inductive Framed : List CodeNode → List Action → Prop where
  | nil {ancestors : List CodeNode} : Framed ancestors []
  | append {ancestors : List CodeNode} {as bs : List Action} (h : Framed ancestors as)
      (h' : Framed ancestors bs) : Framed ancestors (as ++ bs)
  | unresolved {ancestors : List CodeNode} (span : Span) (field : String)
      (objectClass : Option String) : Framed ancestors [.unresolved span field objectClass]
  | escape {ancestors : List CodeNode} (offset : Nat) (target : Target) (how : String) :
      Framed ancestors [.escape offset target how]
  | site (x : Site) {base inRight : List Action} (right : Option Code)
      (hbase : Framed x.ancestors base) (hright : Framed x.ancestors inRight) :
      Framed x.ancestors [.site x base right inRight]
  | through {i : CodeNode} {ancestors : List CodeNode} {as : List Action}
      (hi : i.shape.sort ≠ .statement) (h : Framed (i :: ancestors) as) : Framed ancestors as
  | closed {i : CodeNode} {ancestors : List CodeNode} {as : List Action}
      (h : Framed (i :: ancestors) as) :
      Framed ancestors (as ++ [.close ancestors.length i.span.stop])

/-- Carrying out the actions of some code queues the edits of its usages only. -/
theorem Framed.adds {ancestors : List CodeNode} {as : List Action} (setting : Setting)
    (h : Framed ancestors as) (s : Scan) :
    ∃ new, Adds setting.file.source (sitesOf as) ancestors new s (execAll setting as s) := by
  induction h generalizing s with
  | nil => exact ⟨[], .still rfl rfl⟩
  | @append ancestors as bs _ _ ih ih' =>
    obtain ⟨new, hnew⟩ := ih s
    obtain ⟨more, hmore⟩ := ih' (execAll setting as s)
    rw [execAll_append, sitesOf_append]
    exact ⟨_, (hnew.mono fun x => List.mem_append_left _).trans
      (hmore.mono fun x => List.mem_append_right _)⟩
  | unresolved span field objectClass =>
    exact ⟨[], Scan.adds_reportUnresolved span field objectClass s⟩
  | escape offset target how => exact ⟨[], .still rfl rfl⟩
  | @site x base inRight right _ _ ihbase ihright =>
    have hsites : sitesOf [.site x base right inRight] =
        x :: (sitesOf base ++ if right.isSome then sitesOf inRight else []) := by
      cases right <;> simp [sitesOf, Action.sites]
    rw [hsites]
    refine adds_rewriteSite setting (List.mem_cons_self ..) ?_ ?_ s
    · intro s
      obtain ⟨new, hnew⟩ := ihbase s
      exact ⟨new, hnew.mono fun y hy => List.mem_cons_of_mem _ (List.mem_append_left _ hy)⟩
    · intro s
      cases right with
      | none => exact ⟨[], .still rfl rfl⟩
      | some c =>
        obtain ⟨new, hnew⟩ := ihright s
        exact ⟨new, hnew.mono fun y hy => List.mem_cons_of_mem _ (List.mem_append_right _ hy)⟩
  | through hi _ ih =>
    obtain ⟨new, hnew⟩ := ih s
    exact ⟨new, hnew.below hi⟩
  | closed _ ih =>
    obtain ⟨new, hnew⟩ := ih s
    obtain ⟨last, hlast⟩ := hnew.closed
    rw [execAll_append, sitesOf_append]
    exact ⟨_, hlast.mono fun x => List.mem_append_left _⟩

section Framed

variable {setting : Setting}

/-- The actions of surveyed code, and of its object if it is an access, are framed. -/
structure IsFramed (setting : Setting) (t : SurveyedCode) : Prop where
  acts : ∀ ancestors, Framed ancestors (acts setting ancestors t)
  base : ∀ ancestors, Framed ancestors (actsBase setting ancestors t)

theorem framed_actsAll {parts : List SurveyedCode} (hparts : ∀ t ∈ parts, IsFramed setting t)
    (ancestors : List CodeNode) : Framed ancestors (actsAll setting ancestors parts) := by
  induction parts with
  | nil => exact .nil
  | cons t ts ih =>
    obtain ⟨ht, hts⟩ := List.forall_mem_cons.mp hparts
    exact (ht.acts ancestors).append (ih hts)

theorem framed_actsOperand {parts : List SurveyedCode} (hparts : ∀ t ∈ parts, IsFramed setting t)
    {i : CodeNode} (hi : i.shape.sort ≠ .statement) {ancestors : List CodeNode} (env : Env)
    {perform : Usage → List Action → List Action}
    (hperform : ∀ u base, Framed ancestors base → Framed ancestors (perform u base)) :
    Framed ancestors (actsOperand setting (i :: ancestors) env perform parts) := by
  cases parts with
  | nil => exact .nil
  | cons operand rest =>
    obtain ⟨hoperand, hrest⟩ := List.forall_mem_cons.mp hparts
    rw [actsOperand]
    split
    · exact hperform _ _ ((hoperand.base _).through hi)
    · exact ((hoperand.acts _).append (framed_actsAll hrest _)).through hi

theorem framed_actsAssign {parts : List SurveyedCode} (hparts : ∀ t ∈ parts, IsFramed setting t)
    {i : CodeNode} (hi : i.shape.sort ≠ .statement) (ancestors : List CodeNode) (env : Env)
    (op : Option CompoundOp) :
    Framed ancestors (actsAssign setting ancestors i env op parts) := by
  match parts, hparts with
  | [], _ => exact .nil
  | [left], hparts => exact ((hparts left (by simp)).acts _).through hi
  | left :: right :: rest, hparts =>
    obtain ⟨hleft, hparts⟩ := List.forall_mem_cons.mp hparts
    obtain ⟨hright, hrest⟩ := List.forall_mem_cons.mp hparts
    rw [actsAssign]
    split
    · exact .site ⟨i, ancestors, _, .ofAssign op⟩ _ ((hleft.base _).through hi)
        ((hright.acts _).through hi)
    · exact (((hleft.acts _).append (hright.acts _)).append (framed_actsAll hrest _)).through hi

theorem framed_actsInits {parts : List SurveyedCode} (hparts : ∀ t ∈ parts, IsFramed setting t)
    (vars : List Var) (ancestors : List CodeNode) :
    Framed ancestors (actsInits setting ancestors vars parts) := by
  induction parts generalizing vars with
  | nil => cases vars <;> exact .nil
  | cons t ts ih =>
    obtain ⟨ht, hts⟩ := List.forall_mem_cons.mp hparts
    cases vars with
    | nil => exact (ht.acts ancestors).append (framed_actsAll hts ancestors)
    | cons v vars =>
      rw [actsInits]
      refine .append ?_ (ih hts vars)
      split
      · split
        · exact (Framed.escape _ _ _).append (ht.base ancestors)
        · exact ht.acts ancestors
      · exact ht.acts ancestors

/-- The actions of surveyed code are framed, whatever the code. -/
theorem isFramed (setting : Setting) (t : SurveyedCode) : IsFramed setting t := by
  induction t using Tree.inductionOn with
  | h x parts hparts =>
    obtain ⟨i, env⟩ := x
    constructor
    · intro ancestors
      have hall := framed_actsAll hparts (i :: ancestors)
      rw [acts]
      cases hi : i.shape with
      | assign op => exact framed_actsAssign hparts (by simp [hi, Shape.sort]) ancestors env op
      | step op fixity =>
        exact framed_actsOperand hparts (by simp [hi, Shape.sort]) env
          fun u base hbase => .site ⟨i, ancestors, u, .step op fixity⟩ none hbase .nil
      | unary op =>
        cases op with
        | addressOf =>
          exact framed_actsOperand hparts (by simp [hi, Shape.sort]) env
            fun u base hbase => (Framed.escape _ _ _).append hbase
        | _ => exact hall.through (by simp [hi, Shape.sort])
      | member isArrow field =>
        have hbelow := hall.through (by simp [hi, Shape.sort])
        simp only [Shape.sort]
        split
        · exact .site ⟨i, ancestors, _, .read⟩ none hbelow .nil
        · exact (Framed.unresolved _ _ _).append hbelow
      | declaration vars => exact (framed_actsInits hparts _ _).closed
      | block | exprStmt | returnStmt | throwStmt | branch | switch | caseLabel
      | loop kind element | otherStmt => exact hall.closed
      | _ => exact hall.through (by simp [hi, Shape.sort])
    · intro ancestors
      rw [actsBase]
      split
      · rename_i hi
        cases parts with
        | nil => exact .nil
        | cons t ts =>
          exact ((hparts t (List.mem_cons_self ..)).base _).through (by simp [hi, Shape.sort])
      · rename_i hi
        exact (framed_actsAll hparts _).through (by simp [hi, Shape.sort])
      · exact .nil

end Framed

/-- `outer` is the outermost of the parentheses directly around the node at a position, or
that node where there are none. -/
def Outermost (body outer : SurveyedCode) (p : List Nat) : Prop :=
  ∃ q r, p = q ++ r ∧ body.at? q = some outer ∧ (∀ n ∈ ancestorsAt outer r, n.isParen = true) ∧
    ∀ n, (ancestorsAt body q).head? = some n → n.isParen = false

/-- The usage at a position gives up a span when it is rewritten: an access that nothing
holds gives up its own, a write that is all of a statement or clause too, and a hoisted
write that of the parentheses around it. -/
inductive Rewritten (setting : Setting) (body : SurveyedCode) (p : List Nat) : Span → Prop where
  | read {t : SurveyedCode} {u : Usage} (ht : body.at? p = some t)
      (hread : read? setting t = some u) (hfree : heldFrom false body p = false) :
      Rewritten setting body p t.info.1.span
  | whole {t : SurveyedCode} {u : Usage} {operation : Operation} (ht : body.at? p = some t)
      (hwrite : write? setting t = some (u, operation))
      (hwhole : Whole t.info.1 (ancestorsAt body p)) : Rewritten setting body p t.info.1.span
  | hoisted {w : Hoist} {outer : SurveyedCode} (hhoist : hoist? setting body p = some w)
      (houter : Outermost body outer p) : Rewritten setting body p outer.info.1.span

section Positions

variable {setting : Setting} {body : SurveyedCode} {p : List Nat}

/-- The span that a rewritten usage gives up is that of an expression. -/
theorem Rewritten.exists_expression {span : Span} (h : Rewritten setting body p span) :
    ∃ t ∈ subtrees body, t.info.1.span = span ∧ t.info.1.shape.sort = .expression := by
  cases h with
  | @read t u ht hread =>
    refine ⟨t, mem_subtrees_of_at? ht, rfl, ?_⟩
    unfold read? at hread
    split at hread
    · rename_i hshape
      rw [hshape]
      rfl
    · exact absurd hread (by simp)
  | whole ht hwrite => exact ⟨_, mem_subtrees_of_at? ht, rfl, sort_of_write? hwrite⟩
  | @hoisted w outer hhoist houter =>
    obtain ⟨q, r, rfl, hq, hparens, -⟩ := houter
    refine ⟨outer, mem_subtrees_of_at? hq, rfl, ?_⟩
    cases r with
    | nil =>
      -- no parentheses: the write itself
      rw [List.append_nil, hoist?, hq, Option.bind_some] at hhoist
      obtain ⟨u, operation, hwrite, -⟩ := exists_write_of_hoistAt hhoist
      exact sort_of_write? hwrite
    | cons n r =>
      have hparen := hparens outer.info.1 (by simp [ancestorsAt, above])
      rw [CodeNode.isParen, beq_iff_eq] at hparen
      rw [hparen]
      rfl

theorem heldFrom_append {t : SurveyedCode} (ht : body.at? p = some t) (held : Bool)
    (q : List Nat) : heldFrom held body (p ++ q) = heldFrom (heldFrom held body p) t q := by
  induction p generalizing body held with
  | nil =>
    rw [at?_nil] at ht
    rw [Option.some.inj ht]
    rfl
  | cons n p ih =>
    rw [at?] at ht
    obtain ⟨c, hc, ht⟩ := Option.bind_eq_some_iff.mp ht
    simp only [List.cons_append, heldFrom, hc]
    exact ih ht _

theorem siteAt_append {t : SurveyedCode} (ht : body.at? p = some t) (q : List Nat) :
    siteAt setting body (p ++ q) =
      (t.at? q).bind (ownSite setting (heldFrom (heldFrom false body p) t q)
        (ancestorsAt t q ++ ancestorsAt body p)) := by
  rw [siteAt, at?_append, ht, Option.bind_some, heldFrom_append ht, ancestorsAt,
    above_append ht, List.map_append]
  rfl

/-- The span of the parentheses around a node is that of the outermost. -/
theorem exists_outermost {t : SurveyedCode} (ht : body.at? p = some t) :
    ∃ outer, Outermost body outer p ∧
      parenthesizedSpan t.info.1 (ancestorsAt body p) = outer.info.1.span := by
  induction p using List.reverseRecOn generalizing t with
  | nil =>
    rw [at?_nil] at ht
    obtain rfl := Option.some.inj ht
    exact ⟨body, ⟨[], [], rfl, rfl, by simp [ancestorsAt], by simp [ancestorsAt]⟩, rfl⟩
  | append_singleton p k ih =>
    have hparent := ht
    rw [at?_append] at hparent
    obtain ⟨s, hs, hk⟩ := Option.bind_eq_some_iff.mp hparent
    obtain ⟨c, hc, -⟩ := Option.bind_eq_some_iff.mp hk
    rw [ancestorsAt_concat hs hc, parenthesizedSpan]
    split
    · -- one more pair of parentheses
      rename_i hparen
      obtain ⟨outer, ⟨q, r, rfl, hq, hparens, habove⟩, hspan⟩ := ih hs
      refine ⟨outer, ⟨q, r ++ [k], by rw [List.append_assoc], hq, ?_, habove⟩, hspan⟩
      rw [at?_append, hq, Option.bind_some] at hs
      intro n hn
      rw [ancestorsAt_concat hs hc] at hn
      rcases List.mem_cons.mp hn with rfl | hn
      · exact hparen
      · exact hparens n hn
    · rename_i hparen
      refine ⟨t, ⟨p ++ [k], [], by simp, ht, by simp [ancestorsAt], ?_⟩, rfl⟩
      rw [ancestorsAt_concat hs hc]
      intro n hn
      rw [← Option.some.inj hn]
      simpa using hparen

/-- A write that is hoisted, by the way in which it is rewritten. -/
theorem exists_hoist_of_strategy {t : SurveyedCode} {u : Usage} {operation : Operation}
    {side : Side} (ht : body.at? p = some t) (hwrite : write? setting t = some (u, operation))
    (hhow : strategyAt setting.file.source t.info.1 (ancestorsAt body p) operation =
      .hoist side) :
    ∃ b, boundary setting.file.source t.info.1 (ancestorsAt body p) = some b ∧
      hoist? setting body p = some ⟨u.target, b, side⟩ := by
  obtain ⟨b, hb⟩ := exists_boundary_of_hoist (write?_ne_read hwrite) hhow
  rw [strategyAt, hb, Option.map_some] at hhow
  refine ⟨b, hb, ?_⟩
  simp only [hoist?, ht, Option.bind_some, hoistAt, hwrite, hb, Option.bind_eq_bind, hhow]

/-- A usage that a search comes to at a position is a write, or an access that nothing
holds. -/
theorem siteAt_cases {x : Site} (h : siteAt setting body p = some x) :
    ∃ t, body.at? p = some t ∧ x.node = t.info.1 ∧ x.ancestors = ancestorsAt body p ∧
      (write? setting t = some (x.usage, x.operation) ∨
        x.operation = .read ∧ read? setting t = some x.usage ∧ heldFrom false body p = false) := by
  obtain ⟨t, ht, hown⟩ := Option.bind_eq_some_iff.mp h
  refine ⟨t, ht, ?_⟩
  unfold ownSite at hown
  split at hown
  · rename_i u operation hwrite
    rw [← Option.some.inj hown]
    exact ⟨rfl, rfl, Or.inl hwrite⟩
  · split at hown
    · exact absurd hown (by simp)
    · rename_i hfree
      obtain ⟨u, hread, rfl⟩ := Option.map_eq_some_iff.mp hown
      exact ⟨rfl, rfl, Or.inr ⟨rfl, hread, by simpa using hfree⟩⟩

theorem strategyAt_read (source : List Char) (n : CodeNode) (ancestors : List CodeNode) :
    strategyAt source n ancestors .read = .inPlace := by
  simp only [strategyAt, Strategy.choose]

theorem rewritten_of_siteAt {x : Site} {span : Span} (hx : siteAt setting body p = some x)
    (h : x.replaced? setting.file.source = some span) : Rewritten setting body p span := by
  obtain ⟨t, ht, hnode, hancestors, hwrite | ⟨hop, hread, hfree⟩⟩ := siteAt_cases hx
  · unfold Site.replaced? at h
    rw [hnode, hancestors] at h
    split at h
    · exact absurd h (by simp)
    · rename_i hhow
      rw [← Option.some.inj h]
      exact .whole ht hwrite ((inPlace_iff_whole _ _ _ (write?_ne_read hwrite)).mp hhow)
    · rename_i side hhow
      obtain ⟨b, -, hhoist⟩ := exists_hoist_of_strategy ht hwrite hhow
      obtain ⟨outer, houter, hspan⟩ := exists_outermost ht
      rw [← Option.some.inj h, hspan]
      exact .hoisted hhoist houter
  · rw [Site.replaced?, hop, strategyAt_read, hnode] at h
    rw [← Option.some.inj h]
    exact .read ht hread hfree

theorem exists_hoist_of_siteAt {x : Site} {span : Span} (hx : siteAt setting body p = some x)
    (h : x.host? setting.file.source = some span) :
    ∃ w, hoist? setting body p = some w ∧ w.boundary.span = span := by
  obtain ⟨t, ht, hnode, hancestors, hwrite | ⟨hop, -⟩⟩ := siteAt_cases hx
  · unfold Site.host? at h
    rw [hnode, hancestors] at h
    split at h
    · rename_i side hhow
      obtain ⟨b, hb, hhoist⟩ := exists_hoist_of_strategy ht hwrite hhow
      rw [hb, Option.map_some] at h
      exact ⟨_, hhoist, Option.some.inj h⟩
    · exact absurd h (by simp)
  · rw [Site.host?, hop, strategyAt_read] at h
    exact absurd h (by simp)

/-- The usages that a search comes to in a part of a body are those at the positions in it. -/
theorem exists_siteAt_of_mem_gather {t : SurveyedCode} (ht : body.at? p = some t) {x : Site}
    (hx : x ∈ gather setting (heldFrom false body p) (ancestorsAt body p) t) :
    ∃ q, p <+: q ∧ siteAt setting body q = some x := by
  rw [gather_eq] at hx
  obtain ⟨q, -, hq⟩ := List.mem_filterMap.mp hx
  exact ⟨p ++ q, List.prefix_append p q, by rw [siteAt_append ht]; exact hq⟩

/-- The edits that are queued while the part `t` of a body is rendered: it is visited with
an empty queue, and a usage that is held only as far as its object. -/
def localQueue (setting : Setting) (body : SurveyedCode) (p : List Nat) (t : SurveyedCode)
    (s : Scan) : EditQueue :=
  let isObject := heldFrom false body p && (usage? setting t.info.2 t.code).isSome
  ((if isObject then visitBase else visit) setting (ancestorsAt body p) t.code
    { s with queue := [], env := t.info.2 }).queue

/-- Edits that are queued while a part of a body is rendered come from the usages in it. -/
theorem rewritten_of_mem_localQueue {fs : List Function}
    (hfull : ∀ f ∈ fs, ∀ b, f.body = some b → Everywhere Code.Full b)
    (hbody : body ∈ surveyFunctions setting.symbols fs) {t : SurveyedCode}
    (ht : body.at? p = some t) {s : Scan} {e : Edit} (he : e ∈ localQueue setting body p t s)
    (hkind : e.kind = .replace) : ∃ q, p <+: q ∧ Rewritten setting body q e.span := by
  obtain ⟨f, -, hsurvey⟩ := List.mem_filterMap.mp hbody
  obtain ⟨-, hself⟩ := (exists_names_at (isSurvey_surveyFunction hsurvey) ht).1
  have hparts := full_of_at? hfull hbody ht
  obtain ⟨hvisit, hbase⟩ := visitPerforms setting t.code hparts
  have hlists := lists_survey setting t.code hparts t.info.2
  rw [← hself] at hlists
  -- the actions that are carried out, and the usages among them
  obtain ⟨as, has, hsites, hqueue⟩ : ∃ as, Framed (ancestorsAt body p) as ∧
      sitesOf as = gather setting (heldFrom false body p) (ancestorsAt body p) t ∧
      e ∈ (execAll setting as { s with queue := [] }).queue := by
    have hwhole := hvisit t.info.2 (ancestorsAt body p) { s with queue := [] }
    rw [← hself] at hwhole
    have hacts := (isFramed setting t).acts (ancestorsAt body p)
    cases hheld : heldFrom false body p with
    | false =>
      simp only [localQueue, hheld, Bool.false_and, Bool.false_eq_true, if_false, hwhole] at he
      exact ⟨_, hacts, hlists.sites _, he⟩
    | true =>
      cases husage : usage? setting t.info.2 t.code with
      | none =>
        simp only [localQueue, husage, Option.isSome_none, Bool.and_false, Bool.false_eq_true,
          if_false, hwhole] at he
        exact ⟨_, hacts, (hlists.sites _).trans (hlists.other husage _).symm, he⟩
      | some u =>
        have hsome : (usage? setting t.info.2 t.code).isSome = true := by rw [husage]; rfl
        have hobject := hbase t.info.2 (ancestorsAt body p) hsome { s with queue := [] }
        rw [← hself] at hobject
        simp only [localQueue, hheld, hsome, Bool.and_self, if_true, hobject] at he
        exact ⟨_, (isFramed setting t).base _, hlists.base hsome _, he⟩
  obtain ⟨new, hnew⟩ := has.adds setting { s with queue := [] }
  rw [hnew.queue, List.nil_append] at hqueue
  obtain ⟨x, hx, hspan⟩ := hnew.replaces e hqueue hkind
  rw [hsites] at hx
  obtain ⟨q, hq, hsite⟩ := exists_siteAt_of_mem_gather ht hx
  exact ⟨q, hq, rewritten_of_siteAt hsite hspan⟩

/-- The edits that a search queues come from the usages of the bodies it visits. -/
theorem edit_of_scan (setting : Setting) {fs : List Function}
    (hfull : ∀ f ∈ fs, ∀ b, f.body = some b → Everywhere Code.Full b) {e : Edit}
    (he : e ∈ (scan setting fs).queue) :
    (e.kind = .replace →
      ∃ body ∈ surveyFunctions setting.symbols fs, ∃ p, Rewritten setting body p e.span) ∧
    (e.kind ≠ .replace → e.span = .point e.offset ∧
      ∃ body ∈ surveyFunctions setting.symbols fs, ∃ p w, hoist? setting body p = some w ∧
        EndOf w.boundary.span e.offset) := by
  obtain ⟨env, hscan⟩ := scan_eq setting fs hfull
  have hframed : Framed [] (actsOfFunctions setting fs) := by
    unfold actsOfFunctions
    generalize surveyFunctions setting.symbols fs = bodies
    induction bodies with
    | nil => exact .nil
    | cons body bodies ih => exact ((isFramed setting body).acts []).append ih
  obtain ⟨new, hnew⟩ := hframed.adds setting {}
  have hsites : ∀ x ∈ sitesOf (actsOfFunctions setting fs),
      ∃ body ∈ surveyFunctions setting.symbols fs, ∃ p, siteAt setting body p = some x := by
    intro x hx
    rw [sitesOf_actsOfFunctions setting fs hfull] at hx
    obtain ⟨body, hbody, hx⟩ := List.mem_flatMap.mp hx
    obtain ⟨p, -, hp⟩ := List.mem_filterMap.mp hx
    exact ⟨body, hbody, p, hp⟩
  have hmem : e ∈ new := by
    have hqueue := hnew.queue
    rw [List.nil_append] at hqueue
    rw [hscan] at he
    exact hqueue ▸ he
  constructor
  · intro hkind
    obtain ⟨x, hx, hspan⟩ := hnew.replaces e hmem hkind
    obtain ⟨body, hbody, p, hp⟩ := hsites x hx
    exact ⟨body, hbody, p, rewritten_of_siteAt hp hspan⟩
  · intro hkind
    have hopen : OpenAround [] {} := fun c hc => absurd hc (by simp)
    obtain ⟨hpoint, x, hx, host, hhost, hend⟩ := hnew.inserts hopen e hmem hkind
    obtain ⟨body, hbody, p, hp⟩ := hsites x hx
    obtain ⟨w, hw, hspan⟩ := exists_hoist_of_siteAt hp hhost
    exact ⟨hpoint, body, hbody, p, w, hw, hspan ▸ hend⟩

end Positions

end Encapsulate.Accessors
