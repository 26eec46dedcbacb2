import Encapsulate.Proofs.Independence

/-!
All edits that a search queues. While a part is rendered its edits go to a queue of their
own, and those inside the part end there, in its text. The journal of a search lists the edits
of all these queues in the order in which they are queued. For its insertions only two kinds
of events matter: a helper statement is put beside a boundary, and a statement is left.
-/

namespace Encapsulate

def EditQueue.insertions (queue : EditQueue) : EditQueue :=
  queue.filter (·.kind != .replace)

@[simp] theorem EditQueue.insertions_nil : insertions [] = [] := rfl

@[simp] theorem EditQueue.insertions_append (a b : EditQueue) :
    insertions (a ++ b) = insertions a ++ insertions b :=
  List.filter_append ..

namespace Accessors

open Cpp

/-- An event of a search that opens or closes a block or makes a helper statement. -/
inductive Event where
  | hoist (boundary : Boundary) (side : Side)
  | leave (depth stop : Nat)

def Site.hoisted? (source : List Char) (x : Site) : Option (Boundary × Side) :=
  match strategyAt source x.node x.ancestors x.operation with
  | .hoist side => (boundary source x.node x.ancestors).map (·, side)
  | _ => none

mutual

def Action.events (source : List Char) : Action → List Event
  | .unresolved .. | .escape .. => []
  | .site x base right inRight =>
    eventsOf source base ++ (if right.isSome then eventsOf source inRight else [])
      ++ (x.hoisted? source).toList.map fun h => .hoist h.1 h.2
  | .close depth stop => [.leave depth stop]

def eventsOf (source : List Char) : List Action → List Event
  | [] => []
  | a :: as => a.events source ++ eventsOf source as

end

theorem eventsOf_append (source : List Char) (as bs : List Action) :
    eventsOf source (as ++ bs) = eventsOf source as ++ eventsOf source bs := by
  induction as with
  | nil => rfl
  | cons a as ih => rw [List.cons_append, eventsOf, ih, eventsOf, List.append_assoc]

namespace Scan

def fresh (s : Scan) : Scan :=
  { s with queue := [] }

/-- The state in which the right-hand side of a usage is rendered, and the text of its
object. -/
def renderObject (s : Scan) (setting : Setting) (x : Site) (visitBase : Scan → Scan) :
    Scan × String :=
  (s.noteDuplicate setting x.node.span.start x.usage x.operation).render setting
    x.usage.base.span visitBase

def applySite (s : Scan) (setting : Setting) (x : Site) (base : String)
    (operand : Option Operand) : Scan :=
  s.apply x.node x.ancestors x.operation (boundary setting.file.source x.node x.ancestors)
    (Plan.make (Accesses.of base x.usage.isArrow x.usage.target.name x.operation operand)
      (strategyAt setting.file.source x.node x.ancestors x.operation))

end Scan

mutual

/-- The edits that an action queues, also those in the queues of the parts that it renders. -/
def Action.journal (setting : Setting) : Action → Scan → EditQueue
  | .unresolved .., _ | .escape .., _ => []
  | .site x base right inRight, s =>
    match strategyAt setting.file.source x.node x.ancestors x.operation with
    | .refuse reason =>
      let reported := s.reportRefusal setting x.node.span.start x.usage.target x.operation reason
      journalOf setting base reported
        ++ if right.isSome then journalOf setting inRight (execAll setting base reported) else []
    | _ =>
      let noted := s.noteDuplicate setting x.node.span.start x.usage x.operation
      let object := s.renderObject setting x (execAll setting base)
      let operand := object.1.renderRight setting
        (right.map fun c => ⟨c, execAll setting inRight⟩)
      journalOf setting base noted.fresh
        ++ (if right.isSome then journalOf setting inRight object.1.fresh else [])
        ++ (operand.1.fresh.applySite setting x object.2 operand.2).queue
  | .close depth stop, s => (s.fresh.close depth stop).queue

def journalOf (setting : Setting) : List Action → Scan → EditQueue
  | [], _ => []
  | a :: as, s => a.journal setting s ++ journalOf setting as (a.exec setting s)

end

theorem journalOf_append (setting : Setting) (as bs : List Action) (s : Scan) :
    journalOf setting (as ++ bs) s =
      journalOf setting as s ++ journalOf setting bs (execAll setting as s) := by
  induction as generalizing s with
  | nil => rfl
  | cons a as ih => rw [List.cons_append, journalOf, ih, journalOf, List.append_assoc, execAll]

/-- The insertions that events give rise to where some blocks are open, and the blocks that
are open then. The texts of the helper statements are left open. -/
inductive Inserts : List (Nat × String) → List Event → EditQueue → List (Nat × String) → Prop where
  | nil {closings} : Inserts closings [] [] closings
  /-- The first helper statement beside a boundary opens a block around it. -/
  | opened {closings b side text events made after} (hneeds : b.needsBlock = true)
      (hclosed : closings.lookup b.depth = none)
      (rest : Inserts ((b.depth, "\n" ++ b.indent ++ "\x7d") :: closings) events made after) :
      Inserts closings (.hoist b side :: events)
        (.insertBefore b.span.start ("\x7b\n" ++ b.indent) :: helperEdit b side text :: made) after
  | beside {closings b side text events made after}
      (hkept : b.needsBlock = false ∨ closings.lookup b.depth ≠ none)
      (rest : Inserts closings events made after) :
      Inserts closings (.hoist b side :: events) (helperEdit b side text :: made) after
  | closed {closings depth stop text events made after}
      (hopen : closings.lookup depth = some text)
      (rest : Inserts (closings.filter (·.1 != depth)) events made after) :
      Inserts closings (.leave depth stop :: events) (.insertAfter stop text :: made) after
  | passed {closings depth stop events made after} (hclosed : closings.lookup depth = none)
      (rest : Inserts closings events made after) :
      Inserts closings (.leave depth stop :: events) made after

namespace Inserts

variable {closings mid after : List (Nat × String)} {events later : List Event}
  {made more : EditQueue}

theorem append (h : Inserts closings events made mid) (h' : Inserts mid later more after) :
    Inserts closings (events ++ later) (made ++ more) after := by
  induction h with
  | nil => exact h'
  | opened hneeds hclosed _ ih => exact .opened hneeds hclosed (ih h')
  | beside hkept _ ih => exact .beside hkept (ih h')
  | closed hopen _ ih => exact .closed hopen (ih h')
  | passed hclosed _ ih => exact .passed hclosed (ih h')

end Inserts

/-- What is queued before does not matter to what is queued, nor to the blocks that are open. -/
theorem Appends.fresh {f : Scan → Scan} (h : Appends f) (s : Scan) :
    (f s).queue = s.queue ++ (f s.fresh).queue ∧ (f s).closings = (f s.fresh).closings := by
  have hsplit : s = ({ queue := s.queue } : Scan).followedBy s.fresh := by
    have hstats : ({} : Stats) + s.stats = s.stats := zero_add s.stats
    simp only [Scan.followedBy, Scan.fresh, List.append_nil, List.nil_append, hstats]
  have hf := h { queue := s.queue } s.fresh
  rw [← hsplit] at hf
  rw [hf]
  exact ⟨rfl, rfl⟩

namespace Scan

variable {setting : Setting} {x : Site}

theorem closings_count (s : Scan) (operation : Operation) :
    (s.count operation).closings = s.closings := by
  cases operation <;> rfl

theorem closings_noteDuplicate (s : Scan) (offset : Nat) (u : Usage) (operation : Operation) :
    (s.noteDuplicate setting offset u operation).closings = s.closings := by
  simp only [noteDuplicate]
  split <;> rfl

theorem closings_render (s : Scan) (span : Span) (visit : Scan → Scan) :
    (s.render setting span visit).1.closings = (visit s.fresh).closings := by
  simp only [render]
  split <;> rfl

theorem inserts_close (s : Scan) (depth stop : Nat) :
    Inserts s.closings [.leave depth stop]
      (EditQueue.insertions (s.fresh.close depth stop).queue) (s.close depth stop).closings := by
  unfold close
  simp only [fresh]
  cases hlookup : s.closings.lookup depth with
  | none => exact .passed hlookup .nil
  | some text => exact .closed hlookup .nil

/-- A helper statement at its boundary, with the block around it if that is to be opened. -/
theorem inserts_hoist (s : Scan) {replaced : Edit} (hkind : replaced.kind = .replace)
    (operation : Operation) (b : Boundary) (side : Side) (text : String) :
    let before := (s.fresh.push replaced).count operation
    Inserts s.closings [.hoist b side] (before.hoist b side text).queue.insertions
      (before.hoist b side text).closings := by
  intro before
  have hqueue : before.queue = [replaced] := queue_count _ operation
  have hclosings : before.closings = s.closings := closings_count _ operation
  have hreplaced : EditQueue.insertions [replaced] = [] := by
    simp [EditQueue.insertions, hkind]
  have hhelper : EditQueue.insertions [helperEdit b side (helperText b side text)] =
      [helperEdit b side (helperText b side text)] := by
    cases side <;> rfl
  have hhoist : (before.hoist b side text).queue =
      (before.openBlock b).queue ++ [helperEdit b side (helperText b side text)] := by
    cases side <;> rfl
  have hafter : (before.hoist b side text).closings = (before.openBlock b).closings := by
    cases side <;> rfl
  rw [hhoist, hafter, EditQueue.insertions_append, hhelper]
  unfold openBlock
  split
  · rename_i hopen
    rw [hclosings, Bool.and_eq_true, Option.isNone_iff_eq_none] at hopen
    have hopening : (before.push (.insertBefore b.span.start ("\x7b\n" ++ b.indent))).queue =
        [replaced] ++ [.insertBefore b.span.start ("\x7b\n" ++ b.indent)] :=
      congrArg (· ++ _) hqueue
    simp only [hopening, EditQueue.insertions_append, hreplaced, hclosings]
    exact .opened hopen.1 hopen.2 .nil
  · rename_i hopen
    rw [hqueue, hclosings, hreplaced]
    refine .beside ?_ .nil
    rw [hclosings, Bool.and_eq_true, not_and_or] at hopen
    exact hopen.imp (by simp) fun h hnone => h (by rw [hnone]; rfl)

theorem appends_applySite (setting : Setting) (x : Site) (base : String)
    (operand : Option Operand) : Appends fun s => s.applySite setting x base operand := by
  unfold applySite
  exact appends_apply _ _ _ _ _

/-- The edits of a usage that is not refused, after its parts. -/
theorem inserts_applySite (hrewrite : ∀ reason,
      strategyAt setting.file.source x.node x.ancestors x.operation ≠ .refuse reason)
    (s : Scan) (base : String) (operand : Option Operand) :
    Inserts s.closings
      ((x.hoisted? setting.file.source).toList.map fun h => .hoist h.1 h.2)
      (s.fresh.applySite setting x base operand).queue.insertions
      (s.applySite setting x base operand).closings := by
  rw [((appends_applySite setting x base operand).fresh s).2]
  -- a replacement in place, by whatever text
  have hplace : ∀ (b : Option Boundary) (text : String),
      Inserts s.closings []
        (s.fresh.apply x.node x.ancestors x.operation b ⟨text, none⟩).queue.insertions
        (s.fresh.apply x.node x.ancestors x.operation b ⟨text, none⟩).closings := by
    intro b text
    have hclosings : (s.fresh.apply x.node x.ancestors x.operation b ⟨text, none⟩).closings =
        s.closings := closings_count _ _
    rw [queue_apply_inPlace, hclosings]
    exact .nil
  unfold applySite Site.hoisted?
  cases hstrategy : strategyAt setting.file.source x.node x.ancestors x.operation with
  | refuse reason => exact absurd hstrategy (hrewrite reason)
  | inPlace =>
    unfold Plan.make
    cases (Accesses.of base x.usage.isArrow x.usage.target.name x.operation operand).setter with
    | none => exact hplace _ _
    | some setter => exact hplace _ _
  | hoist side =>
    have hwrite : x.operation ≠ .read := by
      intro hread
      rw [strategyAt, hread] at hstrategy
      exact absurd hstrategy (by simp [Strategy.choose])
    obtain ⟨b, hb⟩ := exists_boundary_of_hoist hwrite hstrategy
    obtain ⟨setter, hsetter⟩ :=
      exists_setter hwrite base x.usage.isArrow x.usage.target.name operand
    simp only [Plan.make, hsetter, hb]
    exact inserts_hoist s rfl x.operation b side setter

end Scan

/-- Carrying out a usage that is not refused: the object is rendered, then the right-hand
side, and the edits of the usage itself are queued last. -/
theorem exec_site_of_rewrite {setting : Setting} {x : Site} (hrewrite : ∀ reason,
      strategyAt setting.file.source x.node x.ancestors x.operation ≠ .refuse reason)
    (base : List Action) (right : Option Code) (inRight : List Action) (s : Scan) :
    let object := s.renderObject setting x (execAll setting base)
    let operand := object.1.renderRight setting (right.map fun c => ⟨c, execAll setting inRight⟩)
    (Action.site x base right inRight).exec setting s =
        operand.1.applySite setting x object.2 operand.2 ∧
      (Action.site x base right inRight).journal setting s =
        journalOf setting base
            (s.noteDuplicate setting x.node.span.start x.usage x.operation).fresh
          ++ (if right.isSome then journalOf setting inRight object.1.fresh else [])
          ++ (operand.1.fresh.applySite setting x object.2 operand.2).queue := by
  refine ⟨Scan.rewriteSite_of_rewrite hrewrite s x.usage _ _, ?_⟩
  rw [Action.journal]
  split
  · rename_i reason hreason
    exact absurd hreason (hrewrite reason)
  · rfl

/-- The insertions of a usage, those of its parts first. -/
theorem inserts_site (setting : Setting) (x : Site) {base inRight : List Action}
    (right : Option Code)
    (hbase : ∀ s : Scan, Inserts s.closings (eventsOf setting.file.source base)
      (journalOf setting base s).insertions (execAll setting base s).closings)
    (hright : ∀ s : Scan, Inserts s.closings (eventsOf setting.file.source inRight)
      (journalOf setting inRight s).insertions (execAll setting inRight s).closings)
    (s : Scan) :
    Inserts s.closings ((Action.site x base right inRight).events setting.file.source)
      ((Action.site x base right inRight).journal setting s).insertions
      ((Action.site x base right inRight).exec setting s).closings := by
  by_cases hrefuse : ∃ reason,
      strategyAt setting.file.source x.node x.ancestors x.operation = .refuse reason
  · obtain ⟨reason, hreason⟩ := hrefuse
    have hnone : x.hoisted? setting.file.source = none := by simp [Site.hoisted?, hreason]
    rw [Action.exec, Scan.rewriteSite_of_refuse hreason]
    simp only [Action.events, Action.journal, hreason, hnone, Option.toList_none, List.map_nil,
      List.append_nil, EditQueue.insertions_append]
    have hreported := hbase
      (s.reportRefusal setting x.node.span.start x.usage.target x.operation reason)
    cases right with
    | none =>
      simp only [Option.isSome_none, Bool.false_eq_true, if_false, EditQueue.insertions_nil,
        List.append_nil]
      exact hreported
    | some c => exact hreported.append (hright _)
  · have hrewrite : ∀ reason,
        strategyAt setting.file.source x.node x.ancestors x.operation ≠ .refuse reason :=
      fun reason hreason => hrefuse ⟨reason, hreason⟩
    obtain ⟨hexec, hjournal⟩ := exec_site_of_rewrite hrewrite base right inRight s
    rw [hexec, hjournal, Action.events]
    simp only [EditQueue.insertions_append]
    refine .append (.append (?_ : Inserts _ _ _
      (s.renderObject setting x (execAll setting base)).1.closings) ?_)
      (Scan.inserts_applySite hrewrite _ _ _)
    · have hnoted := hbase (s.noteDuplicate setting x.node.span.start x.usage x.operation).fresh
      have hclosings : (s.noteDuplicate setting x.node.span.start x.usage
          x.operation).fresh.closings = s.closings := Scan.closings_noteDuplicate s _ _ _
      rw [hclosings] at hnoted
      rw [Scan.renderObject, Scan.closings_render]
      exact hnoted
    · cases right with
      | none => exact .nil
      | some c =>
        have hoperand := hright (s.renderObject setting x (execAll setting base)).1.fresh
        simp only [Option.isSome_some, if_true, Option.map_some, Scan.renderRight]
        rw [Scan.closings_render]
        exact hoperand

/-- The insertions in the journal of some actions are those of their events. -/
theorem inserts_journalOf (setting : Setting) (as : List Action) :
    ∀ s : Scan, Inserts s.closings (eventsOf setting.file.source as)
      (journalOf setting as s).insertions (execAll setting as s).closings := by
  have single : ∀ {a : Action}, (∀ s : Scan, Inserts s.closings (a.events setting.file.source)
      (a.journal setting s).insertions (a.exec setting s).closings) →
      ∀ s : Scan, Inserts s.closings (eventsOf setting.file.source [a])
        (journalOf setting [a] s).insertions (execAll setting [a] s).closings := by
    intro a ha s
    simpa only [eventsOf, journalOf, execAll, List.append_nil] using ha s
  refine Action.inductAll (P := fun as => ∀ s : Scan, Inserts s.closings
    (eventsOf setting.file.source as) (journalOf setting as s).insertions
    (execAll setting as s).closings) ?_ ?_ ?_ ?_ ?_ ?_ as
  · exact fun s => .nil
  · intro a as ha has s
    have hfirst := ha s
    simp only [eventsOf, journalOf, List.append_nil, execAll] at hfirst
    rw [eventsOf, journalOf, EditQueue.insertions_append, execAll]
    exact hfirst.append (has _)
  · intro span field objectClass
    refine single fun s => ?_
    have hclosings : (s.reportUnresolved setting span field objectClass).closings =
        s.closings := by
      unfold Scan.reportUnresolved
      split <;> rfl
    rw [Action.exec, hclosings]
    exact .nil
  · exact fun offset target how => single fun s => .nil
  · exact fun x base right inRight hbase hright =>
      single (inserts_site setting x right hbase hright)
  · exact fun depth stop => single fun s => Scan.inserts_close s depth stop

/-- What rendering hands on is part of what visiting queued, in the same order. -/
theorem Scan.queue_render_sublist (s : Scan) (setting : Setting) (span : Span)
    (visit : Scan → Scan) :
    ∃ handed, (s.render setting span visit).1.queue = s.queue ++ handed ∧
      handed.Sublist (visit s.fresh).queue := by
  have hsub : ((visit s.fresh).queue.partition span).2.Sublist (visit s.fresh).queue := by
    rw [EditQueue.partition, List.partition_eq_filter_filter]
    exact List.filter_sublist
  refine ⟨((visit s.fresh).queue.partition span).2, ?_, hsub⟩
  simp only [render]
  split <;> rfl

def Lasting (setting : Setting) (as : List Action) : Prop :=
  ∀ s : Scan, ∃ new, (execAll setting as s).queue = s.queue ++ new ∧
    new.Sublist (journalOf setting as s)

/-- What is handed on from a part that is rendered by carrying out some actions. -/
theorem Lasting.render {setting : Setting} {as : List Action} (h : Lasting setting as)
    (span : Span) (s : Scan) :
    ∃ handed, (s.render setting span (execAll setting as)).1.queue = s.queue ++ handed ∧
      handed.Sublist (journalOf setting as s.fresh) := by
  obtain ⟨handed, hqueue, hhanded⟩ := s.queue_render_sublist setting span (execAll setting as)
  obtain ⟨new, hnew, hlisted⟩ := h s.fresh
  rw [hnew] at hhanded
  exact ⟨handed, hqueue, hhanded.trans hlisted⟩

/-- The queue of a usage. -/
theorem lasting_site (setting : Setting) (x : Site) {base inRight : List Action}
    (right : Option Code) (hbase : Lasting setting base) (hright : Lasting setting inRight)
    (s : Scan) :
    ∃ new, ((Action.site x base right inRight).exec setting s).queue = s.queue ++ new ∧
      new.Sublist ((Action.site x base right inRight).journal setting s) := by
  by_cases hrefuse : ∃ reason,
      strategyAt setting.file.source x.node x.ancestors x.operation = .refuse reason
  · obtain ⟨reason, hreason⟩ := hrefuse
    rw [Action.exec, Scan.rewriteSite_of_refuse hreason]
    simp only [Action.journal, hreason]
    obtain ⟨new, hqueue, hnew⟩ := hbase
      (s.reportRefusal setting x.node.span.start x.usage.target x.operation reason)
    cases right with
    | none => exact ⟨new, hqueue, hnew.trans (List.sublist_append_left ..)⟩
    | some c =>
      obtain ⟨later, hlater, hrest⟩ := hright (execAll setting base
        (s.reportRefusal setting x.node.span.start x.usage.target x.operation reason))
      rw [hqueue, List.append_assoc] at hlater
      exact ⟨new ++ later, hlater, hnew.append hrest⟩
  · have hrewrite : ∀ reason,
        strategyAt setting.file.source x.node x.ancestors x.operation ≠ .refuse reason :=
      fun reason hreason => hrefuse ⟨reason, hreason⟩
    obtain ⟨hexec, hjournal⟩ := exec_site_of_rewrite hrewrite base right inRight s
    rw [hexec, hjournal]
    obtain ⟨handed, hobject, hhanded⟩ := hbase.render x.usage.base.span
      (s.noteDuplicate setting x.node.span.start x.usage x.operation)
    rw [Scan.queue_noteDuplicate] at hobject
    -- the right-hand side hands on edits of its own
    obtain ⟨later, hoperand, hlater⟩ : ∃ later,
        ((s.renderObject setting x (execAll setting base)).1.renderRight setting
          (right.map fun c => ⟨c, execAll setting inRight⟩)).1.queue = s.queue ++ handed ++ later ∧
        later.Sublist (if right.isSome then journalOf setting inRight
          (s.renderObject setting x (execAll setting base)).1.fresh else []) := by
      cases right with
      | none => exact ⟨[], by rw [List.append_nil]; exact hobject, List.Sublist.refl _⟩
      | some c =>
        obtain ⟨later, hoperand, hlater⟩ := hright.render c.span
          (s.renderObject setting x (execAll setting base)).1
        exact ⟨later, hoperand.trans (congrArg (· ++ later) hobject), hlater⟩
    rw [((Scan.appends_applySite setting x _ _).fresh _).1, hoperand, List.append_assoc,
      List.append_assoc]
    refine ⟨_, rfl, ?_⟩
    rw [← List.append_assoc]
    exact (hhanded.append hlater).append (List.Sublist.refl _)

/-- What some actions queue in the end is listed in their journal, in this order. -/
theorem lasting (setting : Setting) (as : List Action) : Lasting setting as := by
  have single : ∀ {a : Action}, (∀ s : Scan, ∃ new, (a.exec setting s).queue = s.queue ++ new ∧
      new.Sublist (a.journal setting s)) → Lasting setting [a] := by
    intro a ha s
    simpa only [journalOf, execAll, List.append_nil] using ha s
  refine Action.inductAll (P := Lasting setting) ?_ ?_ ?_ ?_ ?_ ?_ as
  · exact fun s => ⟨[], (List.append_nil _).symm, List.Sublist.refl _⟩
  · intro a as ha has s
    obtain ⟨new, hqueue, hnew⟩ := ha s
    simp only [journalOf, execAll, List.append_nil] at hqueue hnew
    obtain ⟨later, hlater, hrest⟩ := has (a.exec setting s)
    refine ⟨new ++ later, ?_, hnew.append hrest⟩
    rw [execAll, hlater, hqueue, List.append_assoc]
  · intro span field objectClass
    refine single fun s => ⟨[], ?_, List.Sublist.refl _⟩
    rw [Action.exec, List.append_nil]
    unfold Scan.reportUnresolved
    split <;> rfl
  · exact fun offset target how => single fun s => ⟨[], (List.append_nil _).symm, .refl _⟩
  · exact fun x base right inRight hbase hright =>
      single (lasting_site setting x right hbase hright)
  · exact fun depth stop =>
      single fun s => ⟨_, ((Scan.appends_close depth stop).fresh s).1, List.Sublist.refl _⟩

end Accessors

end Encapsulate
