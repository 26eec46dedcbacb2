import Encapsulate.Edit
import Encapsulate.Proofs.Boundaries
import Encapsulate.Proofs.Layout
import Mathlib.Data.List.Sort

/-!
Queues that can be applied. A queue is applied without an error when its edits fit the
text, its replacements replace something and stand apart, and no insertion falls
strictly inside a replaced range.
-/

namespace Encapsulate

namespace Edit

def WellShaped (e : Edit) : Prop :=
  match e.kind with
  | .replace => e.span.start < e.span.stop
  | .insertBefore | .insertAfter => e.span.stop = e.span.start

def Compatible (a b : Edit) : Prop :=
  (a.kind = .replace → b.kind = .replace → Span.Apart a.span b.span) ∧
    (a.kind = .replace → b.kind ≠ .replace → ¬ a.span.strictlyContains b.offset = true) ∧
    (a.kind ≠ .replace → b.kind = .replace → ¬ b.span.strictlyContains a.offset = true)

theorem Compatible.symm {a b : Edit} (h : Compatible a b) : Compatible b a :=
  ⟨fun hb ha => (h.1 ha hb).symm, fun hb ha => h.2.2 ha hb, fun hb ha => h.2.1 ha hb⟩

theorem notAfter_iff {a b : Edit} : notAfter a b = true ↔
    a.offset < b.offset ∨ (a.offset = b.offset ∧ a.kind.rank ≤ b.kind.rank) := by
  simp [notAfter]

theorem notAfter_trans (a b c : Edit) (hab : notAfter a b = true) (hbc : notAfter b c = true) :
    notAfter a c = true := by
  rw [notAfter_iff] at *
  omega

theorem notAfter_total (a b : Edit) : (notAfter a b || notAfter b a) = true := by
  rw [Bool.or_eq_true, notAfter_iff, notAfter_iff]
  omega

/-- What is applied after a replacement starts where the replaced range ends or later. -/
theorem stop_le_of_notAfter {a b : Edit} (ha : a.kind = .replace) (hb : b.WellShaped)
    (hcompat : Compatible a b) (horder : notAfter a b = true) : a.span.stop ≤ b.offset := by
  rw [notAfter_iff] at horder
  by_cases hkind : b.kind = .replace
  · have hapart := hcompat.1 ha hkind
    simp only [WellShaped, hkind] at hb
    simp only [Edit.offset] at horder ⊢
    unfold Span.Apart at hapart
    omega
  · have hinside := hcompat.2.1 ha hkind
    have hrank : ¬ a.kind.rank ≤ b.kind.rank := by
      rw [ha]
      revert hkind
      cases b.kind <;> simp [EditKind.rank]
    simp only [Span.strictlyContains_iff, Edit.offset] at hinside horder ⊢
    omega

end Edit

namespace EditQueue

/-- Edits that can be applied together to a text from the offset `base` on. -/
structure Applicable (source : List Char) (base : Nat) (queue : EditQueue) : Prop where
  fits : ∀ e ∈ queue, EditQueue.fits source base e = true
  shaped : ∀ e ∈ queue, e.WellShaped
  compatible : queue.Pairwise Edit.Compatible

theorem partition_perm (queue : EditQueue) (span : Span) :
    ((queue.partition span).1 ++ (queue.partition span).2).Perm queue := by
  rw [EditQueue.partition, List.partition_eq_filter_filter]
  exact List.filter_append_perm _ _

theorem ordered_perm (queue : EditQueue) : queue.ordered.Perm queue :=
  List.mergeSort_perm queue Edit.notAfter

theorem ordered_pairwise (queue : EditQueue) :
    queue.ordered.Pairwise fun a b => Edit.notAfter a b = true :=
  List.pairwise_mergeSort Edit.notAfter_trans Edit.notAfter_total queue

/-- Ordered edits are applied one after the other; no edit starts before the last
replaced range has ended. -/
theorem spliceFrom_isOk {source : List Char} {base : Nat} {es : List Edit}
    (hfits : ∀ e ∈ es, EditQueue.fits source base e = true) (hshaped : ∀ e ∈ es, e.WellShaped)
    (hcompat : es.Pairwise Edit.Compatible)
    (horder : es.Pairwise fun a b => Edit.notAfter a b = true) (cursor : Nat) (rest : List Char)
    (last : Option Span) (hlast : ∀ e ∈ es, collides last e = false) :
    ∃ text, spliceFrom source base cursor rest last es = .ok text := by
  induction es generalizing cursor rest last with
  | nil => exact ⟨rest, rfl⟩
  | cons e es ih =>
    obtain ⟨hcompat', hcompat⟩ := List.pairwise_cons.mp hcompat
    obtain ⟨horder', horder⟩ := List.pairwise_cons.mp horder
    have later : ∀ (cursor : Nat) (rest : List Char) (last : Option Span),
        (∀ d ∈ es, collides last d = false) →
        ∃ text, spliceFrom source base cursor rest last es = .ok text :=
      ih (fun d hd => hfits d (List.mem_cons_of_mem _ hd))
        (fun d hd => hshaped d (List.mem_cons_of_mem _ hd)) hcompat horder
    have hfit := hfits e (List.mem_cons_self ..)
    have hfree := hlast e (List.mem_cons_self ..)
    have hothers : ∀ d ∈ es, collides last d = false :=
      fun d hd => hlast d (List.mem_cons_of_mem _ hd)
    simp only [spliceFrom, hfit, hfree, Bool.not_true, Bool.false_eq_true, if_false]
    cases hkind : e.kind with
    | replace =>
      have hnext : ∀ d ∈ es, collides (some e.span) d = false := by
        intro d hd
        have hstop := Edit.stop_le_of_notAfter hkind (hshaped d (List.mem_cons_of_mem _ hd))
          (hcompat' d hd) (horder' d hd)
        simpa [collides] using hstop
      obtain ⟨text, htext⟩ := later e.span.stop _ (some e.span) hnext
      exact ⟨_, by rw [htext]; rfl⟩
    | insertBefore =>
      obtain ⟨text, htext⟩ := later e.span.start _ last hothers
      exact ⟨_, by rw [htext]; rfl⟩
    | insertAfter =>
      obtain ⟨text, htext⟩ := later e.span.start _ last hothers
      exact ⟨_, by rw [htext]; rfl⟩

theorem Applicable.apply_isOk {source : List Char} {base : Nat} {queue : EditQueue}
    (h : Applicable source base queue) : ∃ text, queue.apply source base = .ok text := by
  have hperm := ordered_perm queue
  have hcompat : queue.ordered.Pairwise Edit.Compatible :=
    (hperm.pairwise_iff fun hab => hab.symm).mpr h.compatible
  exact spliceFrom_isOk (fun e he => h.fits e (hperm.mem_iff.mp he))
    (fun e he => h.shaped e (hperm.mem_iff.mp he)) hcompat (ordered_pairwise queue) base source
    none fun _ _ => rfl

end EditQueue

end Encapsulate
