import Encapsulate.Proofs.Origins
import Mathlib.Algebra.BigOperators.Group.List.Basic

/-!
Bodies are searched independently of each other. A search hands its queue, its reports, its
counters, the names in force and the blocks still open from one body to the next. The queue,
the reports and the counters are only ever added to, the names are set anew for each body,
and no block is open once a body has been left. So a search of several functions comes to
what the searches of each of them come to, one after the other.
-/

namespace Encapsulate.Accessors

open Cpp Encapsulate.Tree

namespace Stats

instance : Zero Stats := ⟨{}⟩

instance : Add Stats where
  add a b :=
    { targets := a.targets + b.targets
      reads := a.reads + b.reads
      writes := a.writes + b.writes
      hoisted := a.hoisted + b.hoisted
      unsupported := a.unsupported + b.unsupported
      escapes := a.escapes + b.escapes
      unresolved := a.unresolved + b.unresolved
      accessorsInserted := a.accessorsInserted + b.accessorsInserted }

attribute [ext] Stats

instance : AddCommMonoid Stats where
  add_assoc a b c := by ext <;> exact Nat.add_assoc ..
  zero_add a := by ext <;> exact Nat.zero_add _
  add_zero a := by ext <;> exact Nat.add_zero _
  add_comm a b := by ext <;> exact Nat.add_comm ..
  nsmul := nsmulRec

end Stats

/-- What `later` has come to, put behind what `s` has come to. -/
def Scan.followedBy (s later : Scan) : Scan :=
  { later with
    queue := s.queue ++ later.queue
    diagnostics := s.diagnostics ++ later.diagnostics
    stats := s.stats + later.stats }

/-- A part of a search that adds to what was queued, reported and counted before it and does
not look at it. -/
def Appends (f : Scan → Scan) : Prop :=
  ∀ s later : Scan, f (s.followedBy later) = s.followedBy (f later)

namespace Appends

variable {f g : Scan → Scan}

theorem id : Appends fun s => s :=
  fun _ _ => rfl

theorem comp (hg : Appends g) (hf : Appends f) : Appends fun s => g (f s) := by
  intro s later
  simp only [hf s later, hg s (f later)]

end Appends

namespace Scan

variable (setting : Setting)

/-- A search that has come to something goes on like a fresh one, but for the names in force
and the blocks still open. -/
theorem followedBy_fresh (s : Scan) (hclosed : s.closings = []) :
    s.followedBy {} = { s with env := {} } := by
  have hstats : s.stats + ({} : Stats) = s.stats := add_zero s.stats
  simp only [followedBy, List.append_nil, hstats, hclosed]

theorem appends_push (e : Edit) : Appends fun s => s.push e := by
  intro s later
  simp only [push, followedBy, List.append_assoc]

theorem appends_report (severity : Severity) (offset : Nat) (message : String) :
    Appends fun s => s.report setting severity offset message := by
  intro s later
  simp only [report, followedBy, List.append_assoc]

/-- Counting something more. -/
theorem appends_stats {f : Stats → Stats} (hf : ∀ a b, f (a + b) = a + f b) :
    Appends fun s => { s with stats := f s.stats } := by
  intro s later
  simp only [followedBy, hf]

theorem appends_count (operation : Operation) : Appends fun s => s.count operation := by
  cases operation with
  | read => exact appends_stats (f := fun a => { a with reads := a.reads + 1 }) fun _ _ => rfl
  | assign | compound op | step op fixity =>
    exact appends_stats (f := fun a => { a with writes := a.writes + 1 }) fun _ _ => rfl

theorem appends_close (depth stop : Nat) : Appends fun s => s.close depth stop := by
  intro s later
  have hsame : (s.followedBy later).closings = later.closings := rfl
  simp only [close, hsame]
  cases later.closings.lookup depth with
  | none => rfl
  | some text =>
    have hpush := appends_push (.insertAfter stop text) s later
    simp only [hpush]
    rfl

theorem appends_openBlock (b : Boundary) : Appends fun s => s.openBlock b := by
  intro s later
  have hsame : (s.followedBy later).closings = later.closings := rfl
  simp only [openBlock, hsame]
  split
  · have hpush := appends_push (.insertBefore b.span.start ("\x7b\n" ++ b.indent)) s later
    simp only [hpush]
    rfl
  · rfl

theorem appends_hoist (b : Boundary) (side : Side) (text : String) :
    Appends fun s => s.hoist b side text := by
  have hcount := appends_stats (f := fun a => { a with hoisted := a.hoisted + 1 }) fun _ _ => rfl
  cases side with
  | before => exact hcount.comp ((appends_push _).comp (appends_openBlock b))
  | after => exact hcount.comp ((appends_push _).comp (appends_openBlock b))

theorem appends_reportUnresolved (span : Span) (field : String) (objectClass : Option String) :
    Appends fun s => s.reportUnresolved setting span field objectClass := by
  have hcount := appends_stats (f := fun a => { a with unresolved := a.unresolved + 1 })
    fun _ _ => rfl
  unfold reportUnresolved
  split
  · exact hcount.comp (appends_report setting _ _ _)
  · exact Appends.id

theorem appends_reportEscape (offset : Nat) (target : Target) (how : String) :
    Appends fun s => s.reportEscape setting offset target how :=
  (appends_stats (f := fun a => { a with escapes := a.escapes + 1 }) fun _ _ => rfl).comp
    (appends_report setting _ _ _)

theorem appends_reportRefusal (offset : Nat) (target : Target) (operation : Operation)
    (reason : Refusal) :
    Appends fun s => s.reportRefusal setting offset target operation reason :=
  (appends_stats (f := fun a => { a with unsupported := a.unsupported + 1 }) fun _ _ => rfl).comp
    (appends_report setting _ _ _)

theorem appends_noteDuplicate (offset : Nat) (u : Usage) (operation : Operation) :
    Appends fun s => s.noteDuplicate setting offset u operation := by
  unfold noteDuplicate
  split
  · exact appends_report setting _ _ _
  · exact Appends.id

theorem appends_apply (site : CodeNode) (ancestors : List CodeNode) (operation : Operation)
    (b : Option Boundary) (plan : Plan) :
    Appends fun s => s.apply site ancestors operation b plan := by
  have replaced : ∀ span, Appends fun s =>
      (s.push (.replace span plan.replacement)).count operation :=
    fun span => (appends_count operation).comp (appends_push _)
  unfold apply
  cases plan.helper with
  | none => exact replaced _
  | some helper =>
    cases b with
    | none => exact replaced _
    | some b => exact (appends_hoist b helper.1 helper.2).comp (replaced _)

/-- A part is rendered to the same text whatever was queued before it: the visit starts with
an empty queue, and what it reports and counts is only added. -/
theorem render_followedBy {visit : Scan → Scan} (h : Appends visit) (span : Span)
    (s later : Scan) :
    (s.followedBy later).render setting span visit =
      (s.followedBy (later.render setting span visit).1, (later.render setting span visit).2) := by
  have hvisit : visit { s.followedBy later with queue := [] } =
      ({ s with queue := [] } : Scan).followedBy (visit { later with queue := [] }) :=
    h { s with queue := [] } { later with queue := [] }
  have hqueue : ∀ r : Scan, (({ s with queue := [] } : Scan).followedBy r).queue = r.queue :=
    fun _ => rfl
  simp only [render, hvisit, hqueue]
  generalize visit { later with queue := [] } = visited
  cases EditQueue.apply (visited.queue.partition span).1 (Text.slice setting.file.source span)
    span.start with
  | ok rendered => simp only [followedBy, List.append_assoc]
  | error e => simp only [report, followedBy, List.append_assoc]

theorem renderRight_followedBy {right : Option RightSide}
    (h : Appends fun s => s.visitRight right) (s later : Scan) :
    (s.followedBy later).renderRight setting right =
      (s.followedBy (later.renderRight setting right).1,
        (later.renderRight setting right).2) := by
  cases right with
  | none => rfl
  | some right =>
    have hvisit : Appends right.visit := h
    simp only [renderRight, render_followedBy setting hvisit]

theorem appends_rewriteSite (site : CodeNode) (ancestors : List CodeNode) (u : Usage)
    (operation : Operation) {visitBase : Scan → Scan} {right : Option RightSide}
    (hbase : Appends visitBase) (hright : Appends fun s => s.visitRight right) :
    Appends fun s => s.rewriteSite setting site ancestors u operation visitBase right := by
  unfold rewriteSite
  simp only
  split
  · exact hright.comp (hbase.comp (appends_reportRefusal setting _ _ _ _))
  · intro s later
    have hnote := appends_noteDuplicate setting site.span.start u operation s later
    simp only at hnote
    simp only [hnote, render_followedBy setting hbase, renderRight_followedBy setting hright]
    exact appends_apply site ancestors operation _ _ _ _

end Scan

/-- Whatever a search does adds to what was there before. -/
theorem appends_execAll (setting : Setting) (as : List Action) :
    Appends (execAll setting as) := by
  refine Action.inductAll (P := fun as => Appends (execAll setting as)) ?_ ?_ ?_ ?_ ?_ ?_ as
  · exact Appends.id
  · intro a as ha has
    exact has.comp ha
  · exact Scan.appends_reportUnresolved setting
  · exact Scan.appends_reportEscape setting
  · intro x base right inRight hbase hright
    refine Scan.appends_rewriteSite setting x.node x.ancestors x.usage x.operation hbase ?_
    cases right with
    | none => exact Appends.id
    | some c => exact hright
  · exact Scan.appends_close

/-- No block is left open by the actions of a whole body. -/
theorem closings_body (setting : Setting) (body : SurveyedCode) :
    (execAll setting (acts setting [] body) {}).closings = [] := by
  obtain ⟨new, hadds⟩ := ((isFramed setting body).acts []).adds setting {}
  have hnone : OpenAround [] ({} : Scan) := fun c hc => absurd hc List.not_mem_nil
  refine List.eq_nil_iff_forall_not_mem.mpr fun c hc => ?_
  exact absurd (hadds.openAround hnone c hc) (Nat.not_lt_zero _)

section Scan

variable (setting : Setting)

/-- Where no block is open, visiting a function adds what a fresh search of it comes to, and
leaves no block open. -/
theorem scanFunction_followedBy {f : Function}
    (hfull : ∀ b, f.body = some b → Everywhere Code.Full b) {s : Scan}
    (hclosed : s.closings = []) :
    ∃ env, scanFunction setting s f = { s.followedBy (scan setting [f]) with env } ∧
      (scan setting [f]).closings = [] := by
  cases hbody : f.body with
  | none =>
    have hskip : ∀ r, scanFunction setting r f = r := fun r => by simp only [scanFunction, hbody]
    have hfresh : scan setting [f] = {} := hskip {}
    refine ⟨s.env, ?_, by rw [hfresh]⟩
    rw [hskip, hfresh, Scan.followedBy_fresh s hclosed]
  | some body =>
    have hvisit := (visitPerforms setting body (hfull body hbody)).1
      (Env.enter setting.symbols f) []
    generalize hacts : acts setting []
      (survey setting.symbols (Env.enter setting.symbols f) body).1 = as at hvisit
    generalize (survey setting.symbols (Env.enter setting.symbols f) body).2 = after at hvisit
    have hscan : ∀ r, scanFunction setting r f =
        { execAll setting as { r with env := {} } with env := after } := by
      intro r
      rw [scanFunction, hbody]
      exact hvisit { r with env := {} }
    have hfresh : scan setting [f] = { execAll setting as {} with env := after } := hscan {}
    refine ⟨after, ?_, ?_⟩
    · rw [hscan, hfresh, ← Scan.followedBy_fresh s hclosed, appends_execAll setting as s {}]
      rfl
    · rw [hfresh, ← hacts]
      exact closings_body setting _

/-- A search that goes on with more functions, where no block is open. -/
theorem foldl_scanFunction {fs : List Function}
    (hfull : ∀ f ∈ fs, ∀ b, f.body = some b → Everywhere Code.Full b) {s : Scan}
    (hclosed : s.closings = []) :
    let after := fs.foldl (scanFunction setting) s
    after.queue = s.queue ++ fs.flatMap (fun f => (scan setting [f]).queue) ∧
      after.diagnostics = s.diagnostics ++ fs.flatMap (fun f => (scan setting [f]).diagnostics) ∧
      after.stats = s.stats + (fs.map fun f => (scan setting [f]).stats).sum ∧
      after.closings = [] := by
  induction fs generalizing s with
  | nil => simpa using hclosed
  | cons f fs ih =>
    obtain ⟨hf, hfs⟩ := List.forall_mem_cons.mp hfull
    obtain ⟨env, hstep, hfresh⟩ := scanFunction_followedBy setting hf hclosed
    have hrest := ih hfs (s := scanFunction setting s f) (by rw [hstep]; exact hfresh)
    have hqueue : (scanFunction setting s f).queue = s.queue ++ (scan setting [f]).queue := by
      rw [hstep]
      rfl
    have hdiagnostics : (scanFunction setting s f).diagnostics =
        s.diagnostics ++ (scan setting [f]).diagnostics := by
      rw [hstep]
      rfl
    have hstats : (scanFunction setting s f).stats = s.stats + (scan setting [f]).stats := by
      rw [hstep]
      rfl
    simpa only [hqueue, hdiagnostics, hstats, List.foldl_cons, List.flatMap_cons, List.map_cons,
      List.sum_cons, List.append_assoc, add_assoc] using hrest

end Scan

/-- A search of functions of a file, in whatever order, queues and reports what fresh
searches of each of them queue and report, one after the other, and its counters are the sums
of theirs. Another order of the functions gives the same edits and the same reports in
another order, and the same counters. -/
theorem scan_bodies_independent (setting : Setting)
    (hwell : ∀ f ∈ setting.file.functions, ∀ b, f.body = some b → Everywhere Code.Full b)
    (fs : List Function) (hfs : fs.Subperm setting.file.functions) :
    (scan setting fs).queue = fs.flatMap (fun f => (scan setting [f]).queue) ∧
      (scan setting fs).diagnostics = fs.flatMap (fun f => (scan setting [f]).diagnostics) ∧
      (scan setting fs).stats = (fs.map fun f => (scan setting [f]).stats).sum ∧
      (scan setting fs).closings = [] ∧
      ∀ gs : List Function, gs.Perm fs →
        (scan setting gs).queue.Perm (scan setting fs).queue ∧
          (scan setting gs).diagnostics.Perm (scan setting fs).diagnostics ∧
          (scan setting gs).stats = (scan setting fs).stats := by
  have hbodies : ∀ gs : List Function, (∀ f ∈ gs, f ∈ setting.file.functions) →
      (scan setting gs).queue = gs.flatMap (fun f => (scan setting [f]).queue) ∧
        (scan setting gs).diagnostics = gs.flatMap (fun f => (scan setting [f]).diagnostics) ∧
        (scan setting gs).stats = (gs.map fun f => (scan setting [f]).stats).sum ∧
        (scan setting gs).closings = [] := by
    intro gs hgs
    have hfold := foldl_scanFunction setting
      (fun f hf => hwell f (hgs f hf)) (s := {}) rfl
    have hzero : ∀ a : Stats, ({} : Stats) + a = a := fun a => zero_add a
    simpa only [scan, List.nil_append, hzero] using hfold
  obtain ⟨hqueue, hdiagnostics, hstats, hclosings⟩ := hbodies fs fun f hf => hfs.subset hf
  refine ⟨hqueue, hdiagnostics, hstats, hclosings, fun gs hperm => ?_⟩
  obtain ⟨hqueue', hdiagnostics', hstats', -⟩ :=
    hbodies gs fun f hf => hfs.subset (hperm.subset hf)
  rw [hqueue, hqueue', hdiagnostics, hdiagnostics', hstats, hstats']
  exact ⟨hperm.flatMap_right _, hperm.flatMap_right _, (hperm.map _).sum_eq⟩

section Example

open ParseTree

/-- The statement `if(1)b=a.x=2;` at the given offset. -/
def openWriteTree (start : Nat) : ParseTree :=
  named "if_statement" start (start + 13)
    [filling "condition" "condition_clause" (start + 2) (start + 5)
       [filling "value" "number_literal" (start + 3) (start + 4) []],
     filling "consequence" "expression_statement" (start + 5) (start + 13)
       [named "assignment_expression" (start + 5) (start + 12)
          [filling "left" "identifier" (start + 5) (start + 6) [],
           mark (some "operator") "=" (start + 6) (start + 7),
           filling "right" "assignment_expression" (start + 7) (start + 12)
             [accessTree "left" (start + 7),
              mark (some "operator") "=" (start + 10) (start + 11),
              filling "right" "number_literal" (start + 11) (start + 12) []]]]]

def pairTree : ParseTree :=
  named "translation_unit" 0 69
    ((unitTree 42 [openWriteTree 29]).children ++
      [named "function_definition" 43 69
         [filling "type" "primitive_type" 43 47 [],
          filling "declarator" "function_declarator" 48 54
            [filling "declarator" "identifier" 48 49 [],
             filling "parameters" "parameter_list" 49 54
               [named "parameter_declaration" 50 53
                  [filling "type" "type_identifier" 50 51 [],
                   filling "declarator" "identifier" 52 53 []]]],
          filling "body" "compound_statement" 54 69 [openWriteTree 55]]])

def pairFile : SourceFile :=
  .ofParsed "pair.cpp" (unitText "if(1)b=a.x=2;\x7dvoid g(F a)\x7bif(1)b=a.x=2;")
    ⟨pairTree, false⟩

def pairSetting : Setting :=
  .ofUnit ["F::x"] ⟨pairFile, []⟩

/-- Both functions put a helper statement and a block around it into a branch without one.
Searched in either order, they queue the four edits of each. -/
theorem scan_pair_independent :
    (∀ f ∈ pairSetting.file.functions, ∀ b, f.body = some b → Everywhere Code.Full b) ∧
      pairFile.functions.reverse.Subperm pairSetting.file.functions ∧
      (scan pairSetting pairFile.functions.reverse).queue =
        pairFile.functions.reverse.flatMap (fun f => (scan pairSetting [f]).queue) ∧
      (scan pairSetting pairFile.functions.reverse).queue.map (·.offset) =
        [62, 60, 60, 68, 36, 34, 34, 42] ∧
      (scan pairSetting pairFile.functions).stats =
        (scan pairSetting pairFile.functions.reverse).stats := by
  have hwell : ∀ f ∈ pairSetting.file.functions, ∀ b, f.body = some b →
      Everywhere Code.Full b := fun f hf b hb => full_body hf hb
  have hfs : pairFile.functions.reverse.Subperm pairSetting.file.functions :=
    (List.reverse_perm pairFile.functions).subperm
  obtain ⟨hqueue, -, -, -, horders⟩ :=
    scan_bodies_independent pairSetting hwell pairFile.functions.reverse hfs
  refine ⟨hwell, hfs, hqueue, ?_, (horders pairFile.functions ?_).2.2⟩
  · rw [hqueue]
    decide +kernel
  · exact (List.reverse_perm pairFile.functions).symm

end Example

end Encapsulate.Accessors
