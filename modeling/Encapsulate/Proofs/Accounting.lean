import Encapsulate.Proofs.Journal
import Encapsulate.Proofs.SelfCalls

/-!
What becomes of each edit. A part of a usage is rendered by a search with a queue of its own.
The edits of this queue that lie inside the part are carried out in its text, which goes into an
edit of the usage, and the others are handed on. So no edit is lost and none is carried out twice:
each edit of the journal is either left in the queue or taken into the text of one part.
-/

namespace Encapsulate.Accessors

open Cpp Encapsulate.Tree

/-- A part of a usage as it is rendered. -/
structure RenderedPart where
  span : Span
  /-- The edits that are carried out in its text. -/
  inner : EditQueue
  text : String

def Scan.renderedPart (s : Scan) (setting : Setting) (span : Span) (visit : Scan → Scan) :
    RenderedPart :=
  ⟨span, ((visit s.fresh).queue.partition span).1, (s.render setting span visit).2⟩

mutual

def Action.rendered (setting : Setting) : Action → Scan → List RenderedPart
  | .unresolved .., _ | .escape .., _ | .close .., _ => []
  | .site x base right inRight, s =>
    match strategyAt setting.file.source x.node x.ancestors x.operation with
    | .refuse reason =>
      let reported := s.reportRefusal setting x.node.span.start x.usage.target x.operation reason
      renderedOf setting base reported
        ++ if right.isSome then renderedOf setting inRight (execAll setting base reported) else []
    | _ =>
      let noted := s.noteDuplicate setting x.node.span.start x.usage x.operation
      let object := s.renderObject setting x (execAll setting base)
      renderedOf setting base noted.fresh
        ++ [noted.renderedPart setting x.usage.base.span (execAll setting base)]
        ++ right.toList.flatMap fun c => renderedOf setting inRight object.1.fresh
          ++ [object.1.renderedPart setting c.span (execAll setting inRight)]

def renderedOf (setting : Setting) : List Action → Scan → List RenderedPart
  | [], _ => []
  | a :: as, s => a.rendered setting s ++ renderedOf setting as (a.exec setting s)

end

def innerOf (parts : List RenderedPart) : EditQueue :=
  parts.flatMap RenderedPart.inner

@[simp] theorem innerOf_nil : innerOf [] = [] := rfl

@[simp] theorem innerOf_append (ps qs : List RenderedPart) :
    innerOf (ps ++ qs) = innerOf ps ++ innerOf qs :=
  List.flatMap_append

@[simp] theorem innerOf_singleton (r : RenderedPart) : innerOf [r] = r.inner :=
  List.append_nil _

section Conservation

variable {setting : Setting} {x : Site} {base inRight : List Action} {right : Option Code}

/-- An edit that a visit of a part queues is taken into its text or handed on. -/
theorem Scan.count_render (s : Scan) (setting : Setting) (span : Span) (visit : Scan → Scan)
    (e : Edit) :
    (s.render setting span visit).1.queue.count e +
        (s.renderedPart setting span visit).inner.count e =
      s.queue.count e + (visit s.fresh).queue.count e := by
  have hqueue : (s.render setting span visit).1.queue =
      s.queue ++ ((visit s.fresh).queue.partition span).2 := by
    simp only [render]
    split <;> rfl
  have hinner : (s.renderedPart setting span visit).inner =
      ((visit s.fresh).queue.partition span).1 := rfl
  have hboth := ((visit s.fresh).queue.partition_perm span).count_eq e
  rw [List.count_append] at hboth
  rw [hqueue, hinner, List.count_append]
  omega

/-- An edit is as often in the queue after some actions, or taken into the text of a part, as
it was in the queue before or is listed in their journal. -/
def Conserves (setting : Setting) (as : List Action) : Prop :=
  ∀ (s : Scan) (e : Edit),
    (execAll setting as s).queue.count e + (innerOf (renderedOf setting as s)).count e =
      s.queue.count e + (journalOf setting as s).count e

/-- A part that is rendered by carrying out some actions. -/
theorem Conserves.render {as : List Action} (h : Conserves setting as) (s : Scan) (span : Span)
    (e : Edit) :
    (s.render setting span (execAll setting as)).1.queue.count e +
        (innerOf (renderedOf setting as s.fresh ++
          [s.renderedPart setting span (execAll setting as)])).count e =
      s.queue.count e + (journalOf setting as s.fresh).count e := by
  have hvisit := h s.fresh e
  have hrender := s.count_render setting span (execAll setting as) e
  have hempty : s.fresh.queue.count e = 0 := List.count_nil
  rw [innerOf_append, innerOf_singleton, List.count_append]
  omega

/-- The right-hand side of a usage, if there is one. -/
theorem Conserves.renderRight (h : Conserves setting inRight) (right : Option Code) (s : Scan)
    (e : Edit) :
    (s.renderRight setting (right.map fun c => ⟨c, execAll setting inRight⟩)).1.queue.count e +
        (innerOf (right.toList.flatMap fun c => renderedOf setting inRight s.fresh
          ++ [s.renderedPart setting c.span (execAll setting inRight)])).count e =
      s.queue.count e + (if right.isSome then journalOf setting inRight s.fresh else []).count e := by
  cases right with
  | none => rfl
  | some c =>
    rw [Option.toList_some, List.flatMap_singleton]
    exact h.render s c.span e

/-- Carrying out a usage that is not refused renders its object and then its right-hand side. -/
theorem rendered_site_of_rewrite (hrewrite : ∀ reason,
      strategyAt setting.file.source x.node x.ancestors x.operation ≠ .refuse reason)
    (base : List Action) (right : Option Code) (inRight : List Action) (s : Scan) :
    let noted := s.noteDuplicate setting x.node.span.start x.usage x.operation
    let object := s.renderObject setting x (execAll setting base)
    (Action.site x base right inRight).rendered setting s =
      renderedOf setting base noted.fresh
        ++ [noted.renderedPart setting x.usage.base.span (execAll setting base)]
        ++ right.toList.flatMap fun c => renderedOf setting inRight object.1.fresh
          ++ [object.1.renderedPart setting c.span (execAll setting inRight)] := by
  rw [Action.rendered]
  split
  · rename_i reason hreason
    exact absurd hreason (hrewrite reason)
  · rfl

theorem conserves_site (hbase : Conserves setting base) (hright : Conserves setting inRight) :
    Conserves setting [.site x base right inRight] := by
  intro s e
  simp only [execAll, renderedOf, journalOf, List.append_nil]
  by_cases hrefuse : ∃ reason,
      strategyAt setting.file.source x.node x.ancestors x.operation = .refuse reason
  · obtain ⟨reason, hreason⟩ := hrefuse
    rw [Action.exec, Scan.rewriteSite_of_refuse hreason]
    simp only [Action.rendered, Action.journal, hreason]
    have hreported := hbase
      (s.reportRefusal setting x.node.span.start x.usage.target x.operation reason) e
    have hqueue : (s.reportRefusal setting x.node.span.start x.usage.target x.operation
        reason).queue = s.queue := rfl
    rw [hqueue] at hreported
    cases right with
    | none =>
      simp only [Option.isSome_none, Bool.false_eq_true, if_false, List.append_nil]
      exact hreported
    | some c =>
      have hlater := hright (execAll setting base
        (s.reportRefusal setting x.node.span.start x.usage.target x.operation reason)) e
      simp only [Option.isSome_some, if_true, innerOf_append, List.count_append]
      have hvisit : ∀ r : Scan, r.visitRight ((some c).map fun c => ⟨c, execAll setting inRight⟩) =
          execAll setting inRight r := fun r => rfl
      rw [hvisit]
      omega
  · have hrewrite : ∀ reason,
        strategyAt setting.file.source x.node x.ancestors x.operation ≠ .refuse reason :=
      fun reason hreason => hrefuse ⟨reason, hreason⟩
    obtain ⟨hexec, hjournal⟩ := exec_site_of_rewrite hrewrite base right inRight s
    rw [hexec, hjournal, rendered_site_of_rewrite hrewrite,
      ((Scan.appends_applySite setting x _ _).fresh _).1]
    have hobject := hbase.render
      (s.noteDuplicate setting x.node.span.start x.usage x.operation) x.usage.base.span e
    have hoperand := hright.renderRight right (s.renderObject setting x (execAll setting base)).1 e
    rw [Scan.queue_noteDuplicate] at hobject
    have hstate : (s.renderObject setting x (execAll setting base)).1 =
        ((s.noteDuplicate setting x.node.span.start x.usage x.operation).render setting
          x.usage.base.span (execAll setting base)).1 := rfl
    rw [← hstate] at hobject
    simp only [innerOf_append, List.count_append] at hobject hoperand ⊢
    omega

theorem conserves (setting : Setting) (as : List Action) : Conserves setting as := by
  -- nothing is queued, listed or rendered
  have still : ∀ {a : Action}, (∀ s : Scan, (a.exec setting s).queue = s.queue) →
      (∀ s : Scan, a.journal setting s = []) → (∀ s : Scan, a.rendered setting s = []) →
      Conserves setting [a] := by
    intro a hexec hjournal hrendered s e
    simp only [execAll, renderedOf, journalOf, hexec, hjournal, hrendered, List.append_nil,
      innerOf_nil]
  refine Action.inductAll (P := Conserves setting) ?_ ?_ ?_ ?_ ?_ ?_ as
  · exact fun s e => rfl
  · intro a as ha has s e
    have hfirst := ha s e
    have hlater := has (a.exec setting s) e
    simp only [execAll, renderedOf, journalOf, List.append_nil] at hfirst
    simp only [execAll, renderedOf, journalOf, innerOf_append, List.count_append]
    omega
  · refine fun span field objectClass => still (fun s => ?_) (fun s => rfl) fun s => rfl
    rw [Action.exec]
    unfold Scan.reportUnresolved
    split <;> rfl
  · exact fun offset target how => still (fun s => rfl) (fun s => rfl) fun s => rfl
  · exact fun x base right inRight hbase hright => conserves_site hbase hright
  · intro depth stop s e
    simp only [execAll, renderedOf, journalOf, Action.exec, Action.journal, Action.rendered,
      ((Scan.appends_close depth stop).fresh s).1, List.append_nil, innerOf_nil,
      List.count_append, List.count_nil]
    rfl

end Conservation

section Operands

variable {setting : Setting}

mutual

def Action.Assigning : Action → Prop
  | .unresolved .. | .escape .. | .close .. => True
  | .site x base right inRight =>
    (right.isSome → ∃ op, x.operation = .ofAssign op) ∧ AllAssigning base ∧ AllAssigning inRight

def AllAssigning : List Action → Prop
  | [] => True
  | a :: as => a.Assigning ∧ AllAssigning as

end

theorem allAssigning_append {as bs : List Action} :
    AllAssigning (as ++ bs) ↔ AllAssigning as ∧ AllAssigning bs := by
  induction as with
  | nil => exact (true_and _).to_iff.symm
  | cons a as ih => rw [List.cons_append, AllAssigning, ih, AllAssigning, and_assoc]

/-- What is done in surveyed code, and in the object of an access. -/
structure Assigns (setting : Setting) (t : SurveyedCode) : Prop where
  acts : ∀ ancestors, AllAssigning (acts setting ancestors t)
  base : ∀ ancestors, AllAssigning (actsBase setting ancestors t)

variable {i : CodeNode} {env : Env} {parts : List SurveyedCode}

theorem allAssigning_actsAll (hparts : ∀ t ∈ parts, Assigns setting t)
    (ancestors : List CodeNode) : AllAssigning (actsAll setting ancestors parts) := by
  induction parts with
  | nil => trivial
  | cons t ts ih =>
    obtain ⟨ht, hts⟩ := List.forall_mem_cons.mp hparts
    exact allAssigning_append.mpr ⟨ht.acts ancestors, ih hts⟩

theorem allAssigning_actsInits (hparts : ∀ t ∈ parts, Assigns setting t) (vars : List Var)
    (ancestors : List CodeNode) : AllAssigning (actsInits setting ancestors vars parts) := by
  induction parts generalizing vars with
  | nil => cases vars <;> trivial
  | cons t ts ih =>
    obtain ⟨ht, hts⟩ := List.forall_mem_cons.mp hparts
    cases vars with
    | nil => exact allAssigning_append.mpr ⟨ht.acts ancestors, allAssigning_actsAll hts ancestors⟩
    | cons v vars =>
      rw [actsInits, allAssigning_append]
      refine ⟨?_, ih hts vars⟩
      split
      · split
        · exact ⟨trivial, ht.base ancestors⟩
        · exact ht.acts ancestors
      · exact ht.acts ancestors

/-- A usage as the first operand does something of its own. -/
theorem allAssigning_actsOperand (hparts : ∀ t ∈ parts, Assigns setting t)
    (perform : Usage → List Action → List Action)
    (hperform : ∀ u base, AllAssigning base → AllAssigning (perform u base))
    (ancestors : List CodeNode) :
    AllAssigning (actsOperand setting ancestors env perform parts) := by
  cases parts with
  | nil => trivial
  | cons t ts =>
    obtain ⟨ht, hts⟩ := List.forall_mem_cons.mp hparts
    rw [actsOperand]
    split
    · exact hperform _ _ (ht.base ancestors)
    · exact allAssigning_append.mpr ⟨ht.acts ancestors, allAssigning_actsAll hts ancestors⟩

theorem allAssigning_actsAssign (hparts : ∀ t ∈ parts, Assigns setting t)
    (op : Option CompoundOp) (ancestors : List CodeNode) :
    AllAssigning (actsAssign setting ancestors i env op parts) := by
  match parts with
  | [] => trivial
  | [left] => exact (hparts left (List.mem_singleton_self left)).acts _
  | left :: right :: rest =>
    obtain ⟨hleft, hright, hrest⟩ :=
      (List.forall_mem_cons.mp hparts).imp_right List.forall_mem_cons.mp
    rw [actsAssign]
    split
    · exact ⟨⟨fun _ => ⟨op, rfl⟩, hleft.base _, hright.acts _⟩, trivial⟩
    · exact allAssigning_append.mpr
        ⟨allAssigning_append.mpr ⟨hleft.acts _, hright.acts _⟩, allAssigning_actsAll hrest _⟩

theorem assigns (setting : Setting) (t : SurveyedCode) : Assigns setting t := by
  induction t using Tree.inductionOn with
  | h x parts ih =>
    obtain ⟨i, env⟩ := x
    have hall := allAssigning_actsAll ih
    refine ⟨fun ancestors => ?_, fun ancestors => ?_⟩
    · unfold acts
      cases hi : i.shape with
      | assign op => exact allAssigning_actsAssign ih op ancestors
      | step op fixity =>
        refine allAssigning_actsOperand ih (fun u base => [.site _ base none []]) ?_ _
        exact fun u base hbase => ⟨⟨fun h => absurd h (by simp), hbase, trivial⟩, trivial⟩
      | unary op =>
        cases op with
        | addressOf =>
          exact allAssigning_actsOperand ih (fun u base => .escape _ u.target _ :: base)
            (fun u base hbase => ⟨trivial, hbase⟩) _
        | _ => exact hall _
      | member isArrow field =>
        simp only [Shape.sort]
        split
        · exact ⟨⟨fun h => absurd h (by simp), hall _, trivial⟩, trivial⟩
        · exact ⟨trivial, hall _⟩
      | declaration vars =>
        exact allAssigning_append.mpr ⟨allAssigning_actsInits ih _ _, trivial, trivial⟩
      | block | exprStmt | returnStmt | throwStmt | branch | switch | caseLabel
      | loop kind element | otherStmt =>
        exact allAssigning_append.mpr ⟨hall _, trivial, trivial⟩
      | _ => exact hall _
    · rw [actsBase]
      split
      · cases parts with
        | nil => trivial
        | cons t ts => exact (ih t List.mem_cons_self).base _
      · exact hall _
      · trivial

end Operands

section Texts

variable {setting : Setting} {x : Site}

/-- The text of the object of a usage starts one of the texts that the usage is rewritten to. -/
theorem exists_text_of_object (hrewrite : ∀ reason, x.strategy setting ≠ .refuse reason)
    (base : String) (operand : Option Operand) :
    ∃ text ∈ x.texts setting base operand, base.toList <:+: text.toList := by
  have hstart : ∀ name, base.toList <+: (callStart base x.usage.isArrow name).toList :=
    fun name => prefix_append (prefix_append (prefix_append List.prefix_rfl _) _) _
  have hgetter := (hstart _).trans
    (callStart_getter base x.usage.isArrow x.usage.target.name x.operation operand)
  rw [texts_eq hrewrite]
  by_cases hplace : x.strategy setting = .inPlace
  · rw [if_pos hplace]
    refine ⟨_, List.mem_singleton_self _, ?_⟩
    cases hsetter :
        (Accesses.of base x.usage.isArrow x.usage.target.name x.operation operand).setter with
    | none => exact hgetter.isInfix
    | some setter =>
      obtain ⟨value, rfl, -⟩ := exists_value hsetter
      exact (prefix_append (prefix_append (prefix_append (hstart _) _) _) _).isInfix
  · rw [if_neg hplace]
    exact ⟨_, List.mem_cons_self, hgetter.isInfix⟩

/-- The text of the right-hand side of an assignment is part of the setter call. -/
theorem exists_text_of_operand (hrewrite : ∀ reason, x.strategy setting ≠ .refuse reason)
    {op : Option CompoundOp} (hassign : x.operation = .ofAssign op) (base : String)
    (operand : Operand) :
    ∃ text ∈ x.texts setting base (some operand), operand.text.toList <:+: text.toList := by
  have hwrite : x.operation ≠ .read := by
    rw [hassign]
    cases op <;> simp [Operation.ofAssign]
  obtain ⟨setter, hsetter⟩ :=
    exists_setter hwrite base x.usage.isArrow x.usage.target.name (some operand)
  refine ⟨setter, ?_, ?_⟩
  · rw [texts_eq hrewrite, hsetter]
    split <;> simp
  · rw [hassign] at hsetter
    cases op with
    | none =>
      rw [← Option.some.inj hsetter]
      simp only [Option.map_some, Option.getD_some, String.toList_append]
      exact List.infix_append _ _ _
    | some op =>
      have hgiven : operand.text.toList <:+:
          (if operand.isPrimary then operand.text else "(" ++ operand.text ++ ")").toList := by
        split
        · exact List.infix_rfl
        · simp only [String.toList_append]
          exact List.infix_append _ _ _
      rw [← Option.some.inj hsetter]
      simp only [Option.map_some, Option.getD_some, String.toList_append, ← List.append_assoc]
      exact (hgiven.trans (List.suffix_append _ _).isInfix).trans (List.prefix_append _ _).isInfix

/-- A text that is part of what a usage is rewritten to is part of one of its edits. -/
theorem exists_edit_of_text (hrewrite : ∀ reason, x.strategy setting ≠ .refuse reason) (s : Scan)
    {base text : String} {operand : Option Operand}
    (htext : ∃ whole ∈ x.texts setting base operand, text.toList <:+: whole.toList) :
    ∃ e ∈ (s.applySite setting x base operand).queue, text.toList <:+: e.text.toList := by
  obtain ⟨whole, hwhole, hin⟩ := htext
  obtain ⟨e, he, hedit⟩ := exists_edit_of_texts hrewrite base operand s whole hwhole
  exact ⟨e, he, hin.trans hedit⟩

end Texts

section Settled

variable {setting : Setting}

/-- What has been reported stays. -/
theorem Appends.diagnostics_subset {f : Scan → Scan} (h : Appends f) (s : Scan) :
    s.diagnostics ⊆ (f s).diagnostics := by
  have hsplit : s = ({ diagnostics := s.diagnostics } : Scan).followedBy
      { s with diagnostics := [] } := by
    have hstats : ({} : Stats) + s.stats = s.stats := zero_add s.stats
    simp only [Scan.followedBy, List.append_nil, List.nil_append, hstats]
  have hf := h { diagnostics := s.diagnostics } { s with diagnostics := [] }
  rw [← hsplit] at hf
  rw [hf]
  exact List.subset_append_left _ _

theorem Scan.diagnostics_subset_render (s : Scan) (span : Span) (visit : Scan → Scan) :
    (visit s.fresh).diagnostics ⊆ (s.render setting span visit).1.diagnostics := by
  simp only [render]
  split
  · exact List.Subset.refl _
  · exact List.subset_append_left _ _

/-- What becomes of a part. The edits inside it are carried out in its text, which goes into an
edit of the journal; if they cannot be combined this is reported, and the text is that of the
source. -/
structure RenderedPart.Settled (setting : Setting) (journal : EditQueue) (ds : List Diagnostic)
    (r : RenderedPart) : Prop where
  listed : r.inner.Sublist journal
  inside : ∀ e ∈ r.inner, e.isInside r.span = true
  applied : (∃ text, r.inner.apply (Text.slice setting.file.source r.span) r.span.start = .ok text ∧
      r.text = String.ofList text) ∨
    ∃ error, r.inner.apply (Text.slice setting.file.source r.span) r.span.start = .error error ∧
      r.text = setting.file.text r.span ∧
      .locate .warning setting.file.path setting.file.source r.span.start
        ("nested rewrites could not be combined: " ++ error.message) ∈ ds
  used : ∃ e ∈ journal, r.text.toList <:+: e.text.toList

theorem RenderedPart.Settled.mono {journal later : EditQueue} {ds new : List Diagnostic}
    {r : RenderedPart} (h : r.Settled setting journal ds) (hjournal : journal.Sublist later)
    (hds : ds ⊆ new) : r.Settled setting later new where
  listed := h.listed.trans hjournal
  inside := h.inside
  applied := h.applied.imp_right fun ⟨error, happly, htext, hreported⟩ =>
    ⟨error, happly, htext, hds hreported⟩
  used := h.used.imp fun _ ⟨he, hin⟩ => ⟨hjournal.subset he, hin⟩

def Settles (setting : Setting) (as : List Action) : Prop :=
  ∀ s : Scan, ∀ r ∈ renderedOf setting as s,
    r.Settled setting (journalOf setting as s) (execAll setting as s).diagnostics

/-- A part that is rendered by carrying out some actions, and the parts inside it. -/
theorem Settles.render {as : List Action} (h : Settles setting as) (s : Scan) (span : Span)
    {journal : EditQueue} {ds : List Diagnostic}
    (hjournal : (journalOf setting as s.fresh).Sublist journal)
    (hds : (s.render setting span (execAll setting as)).1.diagnostics ⊆ ds)
    (hused : ∃ e ∈ journal,
      (s.render setting span (execAll setting as)).2.toList <:+: e.text.toList) :
    ∀ r ∈ renderedOf setting as s.fresh ++ [s.renderedPart setting span (execAll setting as)],
      r.Settled setting journal ds := by
  intro r hr
  rcases List.mem_append.mp hr with hr | hr
  · exact (h s.fresh r hr).mono hjournal
      (List.Subset.trans (s.diagnostics_subset_render span (execAll setting as)) hds)
  rw [List.mem_singleton.mp hr]
  obtain ⟨new, hqueue, hlisted⟩ := lasting setting as s.fresh
  have hinner : (s.renderedPart setting span (execAll setting as)).inner =
      new.filter (Edit.isInside span) := by
    have hnew : (execAll setting as s.fresh).queue = new := hqueue
    rw [Scan.renderedPart, hnew, EditQueue.partition, List.partition_eq_filter_filter]
  refine ⟨?_, ?_, ?_, hused⟩
  · rw [hinner]
    exact (List.filter_sublist.trans hlisted).trans hjournal
  · rw [hinner]
    exact fun e he => (List.mem_filter.mp he).2
  · simp only [Scan.render] at hds
    simp only [Scan.renderedPart, Scan.render, Scan.fresh]
    cases happly : ((execAll setting as { s with queue := [] }).queue.partition span).1.apply
        (Text.slice setting.file.source span) span.start with
    | ok text => exact .inl ⟨text, rfl, rfl⟩
    | error error =>
      rw [happly] at hds
      exact .inr ⟨error, rfl, rfl, hds (List.mem_append_right _ (List.mem_singleton_self _))⟩

section Site

variable {x : Site} {base inRight : List Action} {right : Option Code}

theorem settles_site_of_refuse {reason : Refusal}
    (hreason : strategyAt setting.file.source x.node x.ancestors x.operation = .refuse reason)
    (hbase : Settles setting base) (hright : Settles setting inRight) :
    Settles setting [.site x base right inRight] := by
  intro s
  simp only [execAll, renderedOf, journalOf, List.append_nil]
  rw [Action.exec, Scan.rewriteSite_of_refuse hreason]
  simp only [Action.rendered, Action.journal, hreason]
  have hreported := hbase
    (s.reportRefusal setting x.node.span.start x.usage.target x.operation reason)
  cases right with
  | none =>
    simp only [Option.isSome_none, Bool.false_eq_true, if_false, List.append_nil]
    exact hreported
  | some c =>
    have hlater := hright (execAll setting base
      (s.reportRefusal setting x.node.span.start x.usage.target x.operation reason))
    intro r hr
    rcases List.mem_append.mp hr with hr | hr
    · exact (hreported r hr).mono (List.sublist_append_left _ _)
        ((appends_execAll setting inRight).diagnostics_subset _)
    · exact (hlater r hr).mono (List.sublist_append_right _ _) (List.Subset.refl _)

/-- The texts of the object and of the right-hand side go into the edits of the usage, which are
queued last. -/
theorem settles_site_of_rewrite (hrewrite : ∀ reason,
      strategyAt setting.file.source x.node x.ancestors x.operation ≠ .refuse reason)
    (hassign : right.isSome → ∃ op, x.operation = .ofAssign op)
    (hbase : Settles setting base) (hright : Settles setting inRight) :
    Settles setting [.site x base right inRight] := by
  intro s
  simp only [execAll, renderedOf, journalOf, List.append_nil]
  obtain ⟨hexec, hjournal⟩ := exec_site_of_rewrite hrewrite base right inRight s
  rw [hexec, hjournal, rendered_site_of_rewrite hrewrite]
  have hafter : ∀ (r : Scan) (object : String) (operand : Option Operand),
      r.diagnostics ⊆ (r.applySite setting x object operand).diagnostics :=
    fun r object operand => (Scan.appends_applySite setting x object operand).diagnostics_subset r
  cases right with
  | none =>
    simp only [Option.toList_none, List.flatMap_nil, List.append_nil, Option.map_none,
      Scan.renderRight, Option.isSome_none, Bool.false_eq_true, if_false]
    refine hbase.render _ _ (List.sublist_append_left _ _) (hafter _ _ _) ?_
    obtain ⟨e, he, hin⟩ := exists_edit_of_text hrewrite _ (exists_text_of_object hrewrite _ none)
    exact ⟨e, List.mem_append_right _ he, hin⟩
  | some c =>
    obtain ⟨op, hop⟩ := hassign rfl
    have hkept : ∀ r : Scan, r.diagnostics ⊆
        (r.render setting c.span (execAll setting inRight)).1.diagnostics :=
      fun r => List.Subset.trans ((appends_execAll setting inRight).diagnostics_subset r.fresh)
        (r.diagnostics_subset_render _ _)
    simp only [Option.toList_some, List.flatMap_singleton, Option.map_some, Scan.renderRight,
      Option.isSome_some, if_true]
    intro r hr
    rcases List.mem_append.mp hr with hr | hr
    · refine hbase.render _ _ ?_ (List.Subset.trans (hkept _) (hafter _ _ _)) ?_ r hr
      · rw [List.append_assoc]
        exact List.sublist_append_left _ _
      · obtain ⟨e, he, hin⟩ := exists_edit_of_text hrewrite _ (exists_text_of_object hrewrite _ _)
        exact ⟨e, List.mem_append_right _ he, hin⟩
    · refine hright.render _ _ ?_ (hafter _ _ _) ?_ r hr
      · exact (List.sublist_append_right _ _).trans (List.sublist_append_left _ _)
      · obtain ⟨e, he, hin⟩ :=
          exists_edit_of_text hrewrite _ (exists_text_of_operand hrewrite hop _ _)
        exact ⟨e, List.mem_append_right _ he, hin⟩

end Site

theorem settles (setting : Setting) (as : List Action) :
    AllAssigning as → Settles setting as := by
  -- nothing is rendered
  have still : ∀ {a : Action}, (∀ s : Scan, a.rendered setting s = []) → Settles setting [a] := by
    intro a hrendered s r hr
    simp only [renderedOf, hrendered, List.append_nil] at hr
    exact absurd hr List.not_mem_nil
  refine Action.inductAll (P := fun as => AllAssigning as → Settles setting as)
    ?_ ?_ ?_ ?_ ?_ ?_ as
  · exact fun _ s r hr => absurd hr List.not_mem_nil
  · rintro a as ha has ⟨hfirst, hlater⟩ s r hr
    have hsettled := ha ⟨hfirst, trivial⟩ s
    simp only [execAll, renderedOf, journalOf, List.append_nil] at hsettled
    rw [renderedOf] at hr
    rw [journalOf, execAll]
    rcases List.mem_append.mp hr with hr | hr
    · exact (hsettled r hr).mono (List.sublist_append_left _ _)
        ((appends_execAll setting as).diagnostics_subset _)
    · exact (has hlater _ r hr).mono (List.sublist_append_right _ _) (List.Subset.refl _)
  · exact fun span field objectClass _ => still fun s => rfl
  · exact fun offset target how _ => still fun s => rfl
  · rintro x base right inRight hbase hright ⟨⟨hassign, hall, hrest⟩, -⟩
    by_cases hrefuse : ∃ reason,
        strategyAt setting.file.source x.node x.ancestors x.operation = .refuse reason
    · obtain ⟨reason, hreason⟩ := hrefuse
      exact settles_site_of_refuse hreason (hbase hall) (hright hrest)
    · exact settles_site_of_rewrite (fun reason hreason => hrefuse ⟨reason, hreason⟩) hassign
        (hbase hall) (hright hrest)
  · exact fun depth stop _ => still fun s => rfl

end Settled

section Scan

variable (setting : Setting)

theorem allAssigning_actsOfFunctions (fs : List Function) :
    AllAssigning (actsOfFunctions setting fs) := by
  unfold actsOfFunctions
  induction surveyFunctions setting.symbols fs with
  | nil => trivial
  | cons body bodies ih =>
    exact allAssigning_append.mpr ⟨(assigns setting body).acts [], ih⟩

/-- No edit of a search is lost: up to order, its journal is what is left in its queue and what
the parts that it has rendered have taken into their texts. -/
theorem queue_append_inner_perm (fs : List Function)
    (hfull : ∀ f ∈ fs, ∀ b, f.body = some b → Everywhere Code.Full b) :
    let as := actsOfFunctions setting fs
    ((scan setting fs).queue ++ innerOf (renderedOf setting as {})).Perm (journalOf setting as {}) ∧
      ∀ r ∈ renderedOf setting as {},
        r.Settled setting (journalOf setting as {}) (scan setting fs).diagnostics := by
  intro as
  obtain ⟨env, hscan⟩ := scan_eq setting fs hfull
  rw [hscan]
  constructor
  · refine List.perm_iff_count.mpr fun e => ?_
    have hcount := conserves setting as {} e
    rw [List.count_append]
    simpa using hcount
  · exact settles setting as (allAssigning_actsOfFunctions setting fs) {}

end Scan

end Encapsulate.Accessors
