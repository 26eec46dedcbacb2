import Encapsulate.Proofs.Reference

/-!
Edits inside a span can be applied first. The edits of a queue that belong to the inside
of a span are applied to the text of the span alone, and the result replaces the span in
the queue of all others. This succeeds exactly when the whole queue can be applied at
once, and it gives the same text: between the ends of the span only the inner edits act,
outside of them only the outer ones, and at its start the outer insertions come first.
-/

namespace Encapsulate

namespace Text

/-- A text is determined by its UTF-8 form. -/
theorem bytes_inj {as bs : List Char} (h : bytes as = bytes bs) : as = bs := by
  refine String.ofList_injective (String.toByteArray_inj.mp ?_)
  rw [String.toByteArray_ofList, String.toByteArray_ofList]
  exact congrArg List.toByteArray h

/-- A boundary of a part of a text is a boundary of the text. -/
theorem isBoundary_of_slice {cs : List Char} {span : Span} {n : Nat}
    (hstart : isBoundary cs span.start = true) (hstop : isBoundary cs span.stop = true)
    (hle : span.start ≤ span.stop) (hn : isBoundary (slice cs span) n = true) :
    isBoundary cs (span.start + n) = true := by
  obtain ⟨front, middle, rest, rfl, hfront, hmiddle⟩ := exists_parts hstart hstop hle
  rw [slice_eq hfront hmiddle] at hn
  obtain ⟨before, after, rfl, rfl⟩ := isBoundary_iff.mp hn
  refine isBoundary_iff.mpr ⟨front ++ before, after ++ rest, by simp, ?_⟩
  rw [width_append, hfront]

end Text

theorem Edit.WellShaped.start_le_stop {e : Edit} (h : e.WellShaped) :
    e.span.start ≤ e.span.stop := by
  unfold WellShaped at h
  split at h <;> omega

instance (e : Edit) : Decidable e.WellShaped :=
  decidable_of_iff
    ((e.kind = .replace → e.span.start < e.span.stop) ∧
      (e.kind ≠ .replace → e.span.stop = e.span.start))
    (by unfold Edit.WellShaped; cases e.kind <;> simp)

instance (a b : Span) : Decidable (Span.Apart a b) :=
  inferInstanceAs (Decidable (_ ∨ _))

namespace EditQueue

section Applicable

variable {source : List Char} {base : Nat} {queue : EditQueue}

theorem coherent_of_apply (hle : ∀ e ∈ queue, e.span.start ≤ e.span.stop) {text : List Char}
    (h : queue.apply source base = .ok text) : Coherent source base queue := by
  obtain ⟨xs, hmap, hmem, hpairwise⟩ := exists_numbered queue
  exact (unbroken_ordered_iff hmap hmem hpairwise).mp (unbroken_of_apply hle h)

theorem Coherent.compatible (h : Coherent source base queue) :
    queue.Pairwise Edit.Compatible := by
  rw [List.pairwise_iff_getElem]
  intro i j hi hj hij
  have ha := List.getElem?_eq_getElem hi
  have hb := List.getElem?_eq_getElem hj
  refine ⟨?_, ?_, ?_⟩
  · -- of two replacements the one that starts first ends first; ties go to the first queued
    intro hka hkb
    have hfirst := h.apart i j _ _ ha hb hka hkb
    have hsecond := h.apart j i _ _ hb ha hkb hka
    unfold Span.Apart
    omega
  · intro hka hkb
    have hclear := h.clear _ (List.getElem_mem hj) _ (List.getElem_mem hi) hkb hka
    simpa using hclear
  · intro hka hkb
    have hclear := h.clear _ (List.getElem_mem hi) _ (List.getElem_mem hj) hka hkb
    simpa using hclear

/-- A queue of well-shaped edits can be applied exactly when its edits fit and its
replacements stand apart from each other and from all insertions. -/
theorem exists_apply_iff (hshaped : ∀ e ∈ queue, e.WellShaped) :
    (∃ text, queue.apply source base = .ok text) ↔ Applicable source base queue := by
  constructor
  · rintro ⟨text, htext⟩
    have hcoherent := coherent_of_apply (fun e he => (hshaped e he).start_le_stop) htext
    refine ⟨?_, hshaped, hcoherent.compatible⟩
    intro e he
    simpa [EditQueue.fits, and_assoc] using hcoherent.fits e he
  · exact Applicable.apply_isOk

end Applicable

/-- A part of the text from `base` on that no replacement of the queue cuts. -/
structure Separable (source : List Char) (base : Nat) (queue : EditQueue) (span : Span) :
    Prop where
  /-- Insertions have one offset, and replacements replace something. -/
  shaped : ∀ e ∈ queue, e.WellShaped
  start_lt_stop : span.start < span.stop
  base_le : base ≤ span.start
  stop_le : span.stop ≤ base + Text.width source
  start : Text.isBoundary source (span.start - base) = true
  stop : Text.isBoundary source (span.stop - base) = true
  /-- Every replacement lies in the span or apart from it. -/
  uncut : ∀ e ∈ queue, e.kind = .replace →
    span.contains e.span = true ∨ Span.Apart e.span span

def textIn (source : List Char) (base : Nat) (span : Span) : List Char :=
  Text.slice source ⟨span.start - base, span.stop - base⟩

/-- The edits outside of a span, with a replacement of the whole span. -/
def around (queue : EditQueue) (span : Span) (text : String) : EditQueue :=
  (queue.partition span).2 ++ [.replace span text]

namespace Separable

variable {source : List Char} {base : Nat} {queue : EditQueue} {span : Span} {e : Edit}

theorem mem_inner : e ∈ (queue.partition span).1 ↔ e ∈ queue ∧ e.isInside span = true := by
  rw [EditQueue.partition, List.partition_eq_filter_filter, List.mem_filter]

theorem mem_outer : e ∈ (queue.partition span).2 ↔ e ∈ queue ∧ e.isInside span = false := by
  rw [EditQueue.partition, List.partition_eq_filter_filter, List.mem_filter]
  simp

/-- An edit that belongs to the inside stays in the span and starts in front of its end. -/
theorem inside (h : Separable source base queue span) (he : e ∈ queue)
    (hin : e.isInside span = true) :
    span.start ≤ e.span.start ∧ e.span.stop ≤ span.stop ∧ e.span.start < span.stop := by
  have hshaped := h.shaped e he
  unfold Edit.isInside at hin
  unfold Edit.WellShaped at hshaped
  cases hkind : e.kind <;> simp only [hkind, Edit.offset, Span.contains_iff,
    Span.strictlyContains_iff] at hin hshaped <;> omega

theorem apart_of_outside (h : Separable source base queue span) (he : e ∈ queue)
    (hout : e.isInside span = false) (hkind : e.kind = .replace) : Span.Apart e.span span := by
  rcases h.uncut e he hkind with hin | hapart
  · simp only [Edit.isInside, hkind] at hout
    rw [hin] at hout
    exact absurd hout (by simp)
  · exact hapart

theorem isInside_of_insertion (hkind : e.kind ≠ .replace) :
    e.isInside span = span.strictlyContains e.offset := by
  unfold Edit.isInside
  cases h : e.kind with
  | replace => exact absurd h hkind
  | insertBefore => rfl
  | insertAfter => rfl

/-- Edits on different sides of the ends of a span never meet. -/
theorem compatible (h : Separable source base queue span) {a b : Edit} (ha : a ∈ queue)
    (hb : b ∈ queue) (hin : a.isInside span = true) (hout : b.isInside span = false) :
    Edit.Compatible a b := by
  have hinside := h.inside ha hin
  refine ⟨?_, ?_, ?_⟩
  · intro hka hkb
    have hapart := h.apart_of_outside hb hout hkb
    unfold Span.Apart at *
    omega
  · intro hka hkb
    rw [isInside_of_insertion hkb] at hout
    rw [← Bool.not_eq_true, Span.strictlyContains_iff] at hout
    rw [Span.strictlyContains_iff]
    omega
  · intro hka hkb
    have hapart := h.apart_of_outside hb hout hkb
    rw [isInside_of_insertion hka, Span.strictlyContains_iff] at hin
    rw [Span.strictlyContains_iff]
    unfold Span.Apart at hapart
    omega

/-- The replacement of the span meets no edit outside of it. -/
theorem compatible_whole (h : Separable source base queue span) (he : e ∈ queue)
    (hout : e.isInside span = false) (text : String) :
    Edit.Compatible e (.replace span text) := by
  refine ⟨fun hkind _ => h.apart_of_outside he hout hkind, fun _ hne => absurd rfl hne, ?_⟩
  intro hkind _
  rw [isInside_of_insertion hkind, ← Bool.not_eq_true] at hout
  exact hout

theorem width_textIn (h : Separable source base queue span) :
    Text.width (textIn source base span) = span.stop - span.start := by
  have hlt := h.start_lt_stop
  have hbase := h.base_le
  rw [textIn, Text.width_slice h.start h.stop (by simp only; omega)]
  simp only
  omega

/-- A boundary of the text between the ends of the span is one of the text of the span. -/
theorem isBoundary_textIn (h : Separable source base queue span) {n : Nat}
    (hfirst : span.start ≤ n) (hlast : n ≤ span.stop) :
    Text.isBoundary (textIn source base span) (n - span.start) = true ↔
      Text.isBoundary source (n - base) = true := by
  have hbase := h.base_le
  have hsum : (span.start - base) + (n - span.start) = n - base := by omega
  have hdiff : n - base - (span.start - base) = n - span.start := by omega
  constructor
  · intro hn
    rw [← hsum]
    have hlt : span.start - base ≤ span.stop - base := by omega
    exact Text.isBoundary_of_slice h.start h.stop hlt hn
  · intro hn
    rw [← hdiff]
    have hge : span.start - base ≤ n - base := by omega
    have hle : n - base ≤ span.stop - base := by omega
    exact Text.isBoundary_slice h.start h.stop hn hge hle

/-- An inner edit fits the text of the span exactly when it fits the whole text. -/
theorem fits_inner (h : Separable source base queue span) (he : e ∈ queue)
    (hin : e.isInside span = true) :
    fits (textIn source base span) span.start e = true ↔ fits source base e = true := by
  obtain ⟨hfirst, hlast, -⟩ := h.inside he hin
  have hle := (h.shaped e he).start_le_stop
  have hwidth := h.width_textIn
  have hbase := h.base_le
  have hstop := h.stop_le
  have hlt := h.start_lt_stop
  simp only [fits, Bool.and_eq_true, decide_eq_true_eq,
    h.isBoundary_textIn hfirst (by omega : e.span.start ≤ span.stop),
    h.isBoundary_textIn (by omega : span.start ≤ e.span.stop) hlast, hwidth]
  refine and_congr_left fun _ => and_congr_left fun _ => ?_
  omega

theorem fits_whole (h : Separable source base queue span) (text : String) :
    fits source base (.replace span text) = true := by
  have hlt := h.start_lt_stop
  simp [fits, Edit.replace, h.base_le, h.stop_le, h.start, h.stop]

theorem shaped_inner (h : Separable source base queue span) :
    ∀ e ∈ (queue.partition span).1, e.WellShaped :=
  fun e he => h.shaped e (mem_inner.mp he).1

theorem shaped_around (h : Separable source base queue span) (text : String) :
    ∀ e ∈ queue.around span text, e.WellShaped := by
  intro e he
  rcases List.mem_append.mp he with he | he
  · exact h.shaped e (mem_outer.mp he).1
  · rw [List.mem_singleton.mp he]
    exact h.start_lt_stop

/-- The whole queue can be applied exactly when its inner edits can be applied to the text
of the span and the others, with any replacement of the span, to the whole text. -/
theorem applicable_iff (h : Separable source base queue span) (text : String) :
    Applicable source base queue ↔
      Applicable (textIn source base span) span.start (queue.partition span).1 ∧
        Applicable source base (queue.around span text) := by
  have hperm := queue.partition_perm span
  constructor
  · intro happlicable
    have hpairs := (hperm.pairwise_iff fun hab => Edit.Compatible.symm hab).mpr
      happlicable.compatible
    obtain ⟨hinner, houter, -⟩ := List.pairwise_append.mp hpairs
    refine ⟨⟨?_, h.shaped_inner, hinner⟩, ⟨?_, h.shaped_around text, ?_⟩⟩
    · intro e he
      obtain ⟨hqueue, hin⟩ := mem_inner.mp he
      exact (h.fits_inner hqueue hin).mpr (happlicable.fits e hqueue)
    · intro e he
      rcases List.mem_append.mp he with he | he
      · exact happlicable.fits e (mem_outer.mp he).1
      · rw [List.mem_singleton.mp he]
        exact h.fits_whole text
    · refine List.pairwise_append.mpr ⟨houter, List.pairwise_singleton .., ?_⟩
      intro a ha b hb
      rw [List.mem_singleton.mp hb]
      exact h.compatible_whole (mem_outer.mp ha).1 (mem_outer.mp ha).2 text
  · rintro ⟨hinner, haround⟩
    refine ⟨?_, h.shaped, ?_⟩
    · intro e he
      cases hin : e.isInside span with
      | true => exact (h.fits_inner he hin).mp (hinner.fits e (mem_inner.mpr ⟨he, hin⟩))
      | false =>
        exact haround.fits e (List.mem_append_left _ (mem_outer.mpr ⟨he, hin⟩))
    · refine (hperm.pairwise_iff fun hab => Edit.Compatible.symm hab).mp ?_
      refine List.pairwise_append.mpr
        ⟨hinner.compatible, (List.pairwise_append.mp haround.compatible).1, ?_⟩
      intro a ha b hb
      obtain ⟨ha, hin⟩ := mem_inner.mp ha
      obtain ⟨hb, hout⟩ := mem_outer.mp hb
      exact h.compatible ha hb hin hout

end Separable

section Offsets

variable {queue : EditQueue}

/-- Texts come from the edits that are kept, where only these have a text at the offset. -/
theorem textsOf_filter {p : Edit → Bool} {kind : EditKind} {offset : Nat}
    (h : ∀ e ∈ queue, e.kind = kind → e.offset = offset → p e = true) :
    textsOf (queue.filter p) kind offset = queue.textsOf kind offset := by
  have hsame : ((queue.filter p).filter fun e => e.kind == kind && e.offset == offset) =
      queue.filter fun e => e.kind == kind && e.offset == offset := by
    rw [List.filter_filter]
    refine List.filter_congr ?_
    intro e he
    by_cases hat : (e.kind == kind && e.offset == offset) = true
    · have hat' := hat
      simp only [Bool.and_eq_true, beq_iff_eq] at hat'
      rw [hat, h e he hat'.1 hat'.2, Bool.and_self]
    · rw [Bool.not_eq_true] at hat
      rw [hat, Bool.false_and]
  rw [textsOf, hsame, textsOf]

theorem textsAt_filter {p : Edit → Bool} {offset : Nat}
    (h : ∀ e ∈ queue, e.offset = offset → p e = true) :
    textsAt (queue.filter p) offset = queue.textsAt offset := by
  simp only [textsAt, textsOf_filter fun e he _ hat => h e he hat]

theorem covers_iff {offset : Nat} : queue.covers offset = true ↔
    ∃ e ∈ queue, e.kind = .replace ∧ e.span.start ≤ offset ∧ offset < e.span.stop := by
  simp [covers, List.any_eq_true, and_assoc]

theorem covers_filter {p : Edit → Bool} {offset : Nat}
    (h : ∀ e ∈ queue, e.kind = .replace → e.span.start ≤ offset → offset < e.span.stop →
      p e = true) :
    covers (queue.filter p) offset = queue.covers offset := by
  rw [Bool.eq_iff_iff, covers_iff, covers_iff]
  constructor
  · rintro ⟨e, he, hcovers⟩
    exact ⟨e, List.mem_of_mem_filter he, hcovers⟩
  · rintro ⟨e, he, hkind, hstart, hstop⟩
    exact ⟨e, List.mem_filter.mpr ⟨he, h e he hkind hstart hstop⟩, hkind, hstart, hstop⟩

/-- Two queues that do the same in front of a point give the same up to it. -/
theorem referenceFrom_front {queue' : EditQueue} {offset : Nat} (as bs : List UInt8)
    (htexts : ∀ n, offset ≤ n → n < offset + as.length → queue.textsAt n = queue'.textsAt n)
    (hcovers : ∀ n, offset ≤ n → n < offset + as.length → queue.covers n = queue'.covers n)
    (hrest : queue.referenceFrom (offset + as.length) bs =
      queue'.referenceFrom (offset + as.length) bs) :
    queue.referenceFrom offset (as ++ bs) = queue'.referenceFrom offset (as ++ bs) := by
  induction as generalizing offset with
  | nil => exact hrest
  | cons a as ih =>
    have hnext : offset + (a :: as).length = offset + 1 + as.length := by
      rw [List.length_cons]
      omega
    rw [hnext] at htexts hcovers hrest
    have hlater := ih (fun n hn hlt => htexts n (by omega) hlt)
      (fun n hn hlt => hcovers n (by omega) hlt) hrest
    rw [List.cons_append, referenceFrom, referenceFrom, htexts offset (by omega) (by omega),
      hcovers offset (by omega) (by omega), hlater]

/-- Where a queue does what `inner` does between two points and what `outer` does from the
second one on, it gives what the two give one after the other. -/
theorem referenceFrom_split {inner outer : EditQueue} {offset : Nat} (as bs : List UInt8)
    (htexts : ∀ n, offset ≤ n → n < offset + as.length → queue.textsAt n = inner.textsAt n)
    (hcovers : ∀ n, offset ≤ n → n < offset + as.length → queue.covers n = inner.covers n)
    (hend : inner.textsAt (offset + as.length) = [])
    (hrest : queue.referenceFrom (offset + as.length) bs =
      outer.referenceFrom (offset + as.length) bs) :
    queue.referenceFrom offset (as ++ bs) =
      inner.referenceFrom offset as ++ outer.referenceFrom (offset + as.length) bs := by
  induction as generalizing offset with
  | nil =>
    rw [List.length_nil, Nat.add_zero] at hend hrest
    rw [List.nil_append, referenceFrom, hend, List.nil_append]
    exact hrest
  | cons a as ih =>
    have hnext : offset + (a :: as).length = offset + 1 + as.length := by
      rw [List.length_cons]
      omega
    rw [hnext] at htexts hcovers hend hrest ⊢
    have hlater := ih (fun n hn hlt => htexts n (by omega) hlt)
      (fun n hn hlt => hcovers n (by omega) hlt) hend hrest
    rw [List.cons_append, referenceFrom, referenceFrom, htexts offset (by omega) (by omega),
      hcovers offset (by omega) (by omega), hlater]
    simp only [List.append_assoc]

/-- The same where the queue has texts of its own in front of the first byte. -/
theorem referenceFrom_split_after {inner outer : EditQueue} {offset : Nat} {front : List UInt8}
    (as bs : List UInt8) (has : 0 < as.length)
    (hhere : queue.textsAt offset = front ++ inner.textsAt offset)
    (htexts : ∀ n, offset < n → n < offset + as.length → queue.textsAt n = inner.textsAt n)
    (hcovers : ∀ n, offset ≤ n → n < offset + as.length → queue.covers n = inner.covers n)
    (hend : inner.textsAt (offset + as.length) = [])
    (hrest : queue.referenceFrom (offset + as.length) bs =
      outer.referenceFrom (offset + as.length) bs) :
    queue.referenceFrom offset (as ++ bs) =
      front ++ (inner.referenceFrom offset as ++ outer.referenceFrom (offset + as.length) bs) := by
  cases as with
  | nil => exact absurd has (by simp)
  | cons a as =>
    have hnext : offset + (a :: as).length = offset + 1 + as.length := by
      rw [List.length_cons]
      omega
    rw [hnext] at htexts hcovers hend hrest ⊢
    have hlater := referenceFrom_split as bs (fun n hn hlt => htexts n (by omega) hlt)
      (fun n hn hlt => hcovers n (by omega) hlt) hend hrest
    rw [List.cons_append, referenceFrom, referenceFrom, hhere,
      hcovers offset (by omega) (by omega), hlater]
    simp only [List.append_assoc]

end Offsets

namespace Separable

variable {source : List Char} {base : Nat} {queue : EditQueue} {span : Span}

/-- Outside of the span the inner edits do nothing. -/
theorem same_outside (h : Separable source base queue span) {n : Nat}
    (hn : n < span.start ∨ span.stop ≤ n) :
    queue.textsAt n = (queue.partition span).2.textsAt n ∧
      queue.covers n = (queue.partition span).2.covers n := by
  have hfalse : ∀ e ∈ queue, e.span.start ≤ n → (n < e.span.stop ∨ e.span.start = n) →
      (!e.isInside span) = true := by
    intro e he hstart hn'
    by_contra hin
    have hinside := h.inside he (by simpa using hin)
    omega
  rw [EditQueue.partition, List.partition_eq_filter_filter]
  constructor
  · refine (textsAt_filter fun e he hat => ?_).symm
    exact hfalse e he (Nat.le_of_eq hat) (Or.inr hat)
  · exact (covers_filter fun e he _ hstart hstop => hfalse e he hstart (Or.inl hstop)).symm

/-- Past the start of the span, and in front of its end, the outer edits do nothing. -/
theorem same_inside (h : Separable source base queue span) {n : Nat} (hfirst : span.start < n)
    (hlast : n < span.stop) :
    queue.textsAt n = (queue.partition span).1.textsAt n ∧
      (queue.partition span).2.textsAt n = [] := by
  have htrue : ∀ e ∈ queue, e.offset = n → e.isInside span = true := by
    intro e he hat
    by_contra hout
    rw [Bool.not_eq_true] at hout
    by_cases hkind : e.kind = .replace
    · have hapart := h.apart_of_outside he hout hkind
      have hle := (h.shaped e he).start_le_stop
      unfold Span.Apart at hapart
      unfold Edit.offset at hat
      omega
    · rw [isInside_of_insertion hkind, ← Bool.not_eq_true, Span.strictlyContains_iff] at hout
      omega
  constructor
  · rw [EditQueue.partition, List.partition_eq_filter_filter]
    exact (textsAt_filter htrue).symm
  · refine textsAt_eq_nil fun e he hat => ?_
    obtain ⟨hqueue, hout⟩ := mem_outer.mp he
    rw [htrue e hqueue hat] at hout
    exact absurd hout (by simp)

/-- Between the ends of the span only inner edits replace anything. -/
theorem covers_inside (h : Separable source base queue span) {n : Nat} (hfirst : span.start ≤ n)
    (hlast : n < span.stop) : queue.covers n = (queue.partition span).1.covers n := by
  rw [EditQueue.partition, List.partition_eq_filter_filter]
  refine (covers_filter fun e he hkind hstart hstop => ?_).symm
  by_contra hout
  have hapart := h.apart_of_outside he (by simpa using hout) hkind
  unfold Span.Apart at hapart
  omega

/-- At the start of the span the outer edits come first: these are the insertions there,
and the inner ones are the replacements. -/
theorem textsAt_start (h : Separable source base queue span) :
    queue.textsAt span.start =
      (queue.partition span).2.textsAt span.start ++
        (queue.partition span).1.textsAt span.start := by
  have hinsert : ∀ e ∈ queue, e.kind ≠ .replace → e.offset = span.start →
      e.isInside span = false := by
    intro e _ hkind hat
    rw [isInside_of_insertion hkind, ← Bool.not_eq_true, Span.strictlyContains_iff]
    omega
  have hreplace : ∀ e ∈ queue, e.kind = .replace → e.offset = span.start →
      e.isInside span = true := by
    intro e he hkind hat
    by_contra hout
    have hapart := h.apart_of_outside he (by simpa using hout) hkind
    have hshaped := h.shaped e he
    have hlt := h.start_lt_stop
    simp only [Edit.WellShaped, hkind] at hshaped
    unfold Span.Apart at hapart
    unfold Edit.offset at hat
    omega
  have houter : ∀ kind, kind ≠ .replace → (queue.partition span).2.textsOf kind span.start =
      queue.textsOf kind span.start := by
    intro kind hkind
    rw [EditQueue.partition, List.partition_eq_filter_filter]
    refine textsOf_filter fun e he hk hat => ?_
    simp [hinsert e he (by rwa [hk]) hat]
  have hinner : (queue.partition span).1.textsOf .replace span.start =
      queue.textsOf .replace span.start := by
    rw [EditQueue.partition, List.partition_eq_filter_filter]
    exact textsOf_filter hreplace
  have hnone : ∀ kind, kind ≠ .replace → (queue.partition span).1.textsOf kind span.start = [] := by
    intro kind hkind
    refine textsOf_eq_nil fun e he hk hat => ?_
    obtain ⟨hqueue, hin⟩ := mem_inner.mp he
    rw [hinsert e hqueue (by rwa [hk]) hat] at hin
    exact absurd hin (by simp)
  have hno : (queue.partition span).2.textsOf .replace span.start = [] := by
    refine textsOf_eq_nil fun e he hk hat => ?_
    obtain ⟨hqueue, hout⟩ := mem_outer.mp he
    rw [hreplace e hqueue hk hat] at hout
    exact absurd hout (by simp)
  simp only [textsAt, houter .insertAfter (by simp), houter .insertBefore (by simp), hinner,
    hnone .insertAfter (by simp), hnone .insertBefore (by simp), hno, List.append_nil,
    List.nil_append]

/-- No inner edit starts at the end of the span. -/
theorem textsAt_stop (h : Separable source base queue span) :
    (queue.partition span).1.textsAt span.stop = [] := by
  refine textsAt_eq_nil fun e he hat => ?_
  obtain ⟨hqueue, hin⟩ := mem_inner.mp he
  have hinside := h.inside hqueue hin
  unfold Edit.offset at hat
  omega

theorem textsAt_around (text : String) (n : Nat) :
    (queue.around span text).textsAt n =
      (queue.partition span).2.textsAt n ++ textsAt [.replace span text] n := by
  simp [textsAt, textsOf, around, Edit.replace]

theorem covers_around (text : String) (n : Nat) :
    (queue.around span text).covers n =
      ((queue.partition span).2.covers n || decide (span.start ≤ n ∧ n < span.stop)) := by
  simp [covers, around, Edit.replace]

/-- A replacement alone leaves its text and nothing of what it covers. -/
theorem referenceFrom_whole (hlt : span.start < span.stop) (text : String) {bs : List UInt8}
    (hbs : bs.length = span.stop - span.start) :
    referenceFrom [.replace span text] span.start bs = Text.bytes text.toList := by
  have halone : referenceFrom [.replace span text] span.start bs =
      Text.bytes text.toList ++ referenceFrom [] span.stop (bs.drop (span.stop - span.start)) :=
    referenceFrom_replace rfl (Nat.le_of_lt hlt) (by simp) (by simp) (Nat.le_of_eq hbs.symm)
  have hrest : bs.drop (span.stop - span.start) = [] :=
    List.drop_eq_nil_of_le (Nat.le_of_eq hbs)
  rw [halone, hrest, referenceFrom_nil, List.append_nil]

/-- The inner edits, applied to the text of the span, and then the others with the result
in the place of the span make of the text what the whole queue makes of it. -/
theorem reference_around (h : Separable source base queue span) {rendered : List Char}
    (hrendered : Text.bytes rendered =
      (queue.partition span).1.reference (textIn source base span) span.start) :
    (queue.around span (String.ofList rendered)).reference source base =
      queue.reference source base := by
  have hlt := h.start_lt_stop
  have hbase := h.base_le
  obtain ⟨front, middle, rest, hsource, hfront, hmiddle⟩ :=
    Text.exists_parts h.start h.stop (by omega)
  have htext : textIn source base span = middle := by
    rw [textIn, hsource]
    exact Text.slice_eq hfront hmiddle
  have hreach : base + (Text.bytes front).length = span.start := by
    rw [Text.length_bytes]
    omega
  have hlength : (Text.bytes middle).length = span.stop - span.start := by
    rw [Text.length_bytes]
    omega
  have hend : span.start + (Text.bytes middle).length = span.stop := by omega
  have hwhole : ∀ n, n ≠ span.start →
      textsAt [.replace span (String.ofList rendered)] n = [] := by
    intro n hn
    refine textsAt_eq_nil fun e he => ?_
    rw [List.mem_singleton.mp he]
    exact hn.symm
  have hcoversOutside : ∀ n, n < span.start ∨ span.stop ≤ n →
      (queue.around span (String.ofList rendered)).covers n = queue.covers n := by
    intro n hn
    rw [covers_around, decide_eq_false (by omega), Bool.or_false, (h.same_outside hn).2]
  have htextsOutside : ∀ n, n < span.start ∨ span.stop ≤ n →
      (queue.around span (String.ofList rendered)).textsAt n = queue.textsAt n := by
    intro n hn
    rw [textsAt_around, hwhole n (by omega), List.append_nil, (h.same_outside hn).1]
  rw [reference, reference, hsource, Text.bytes_append, Text.bytes_append]
  refine referenceFrom_front _ _ (fun n _ hn => htextsOutside n (by omega))
    (fun n _ hn => hcoversOutside n (by omega)) ?_
  rw [hreach]
  have hqueue : queue.referenceFrom span.start (Text.bytes middle ++ Text.bytes rest) =
      (queue.partition span).2.textsAt span.start ++
        ((queue.partition span).1.referenceFrom span.start (Text.bytes middle) ++
          queue.referenceFrom (span.start + (Text.bytes middle).length) (Text.bytes rest)) := by
    refine referenceFrom_split_after _ _ (by omega) h.textsAt_start ?_ ?_ ?_ rfl
    · exact fun n hn hn' => (h.same_inside hn (by omega)).1
    · exact fun n hn hn' => h.covers_inside hn (by omega)
    · rw [hend]
      exact h.textsAt_stop
  have haround : (queue.around span (String.ofList rendered)).referenceFrom span.start
        (Text.bytes middle ++ Text.bytes rest) =
      (queue.partition span).2.textsAt span.start ++
        (referenceFrom [.replace span (String.ofList rendered)] span.start (Text.bytes middle) ++
          queue.referenceFrom (span.start + (Text.bytes middle).length) (Text.bytes rest)) := by
    refine referenceFrom_split_after _ _ (by omega) (textsAt_around _ _) ?_ ?_ ?_ ?_
    · intro n hn hn'
      rw [textsAt_around, (h.same_inside hn (by omega)).2, List.nil_append]
    · intro n hn hn'
      rw [covers_around, decide_eq_true (by omega), Bool.or_true, eq_comm, covers_iff]
      exact ⟨_, List.mem_singleton_self _, rfl, hn, (by omega : n < span.stop)⟩
    · exact hwhole _ (by omega)
    · exact referenceFrom_congr (fun n hn => htextsOutside n (by omega))
        (fun n hn => hcoversOutside n (by omega)) _
  rw [haround, hqueue, referenceFrom_whole hlt _ hlength, String.toList_ofList, hrendered, htext]
  rfl

end Separable

/-- Applying a queue is the same as applying its edits inside a span to the text of the
span first and then the others, with the result in the place of the span: one succeeds
exactly when the other does, and both give the same text. -/
theorem apply_iff_apply_partition (source : List Char) (base : Nat) (queue : EditQueue)
    (span : Span) (h : Separable source base queue span) (text : List Char) :
    queue.apply source base = .ok text ↔
      ∃ rendered,
        (queue.partition span).1.apply (textIn source base span) span.start = .ok rendered ∧
          EditQueue.apply ((queue.partition span).2 ++ [.replace span (String.ofList rendered)])
            source base = .ok text := by
  have bytes : ∀ {source base text} {queue : EditQueue}, (∀ e ∈ queue, e.WellShaped) →
      queue.apply source base = .ok text → Text.bytes text = queue.reference source base :=
    fun hshaped => bytes_of_apply fun e he => (hshaped e he).start_le_stop
  constructor
  · intro htext
    have happlicable := (exists_apply_iff h.shaped).mp ⟨text, htext⟩
    obtain ⟨rendered, hrendered⟩ := ((h.applicable_iff "").mp happlicable).1.apply_isOk
    obtain ⟨text', htext'⟩ :=
      ((h.applicable_iff (String.ofList rendered)).mp happlicable).2.apply_isOk
    refine ⟨rendered, hrendered, htext'.trans ?_⟩
    refine congrArg Except.ok (Text.bytes_inj ?_)
    rw [bytes (h.shaped_around _) htext', bytes h.shaped htext,
      h.reference_around (bytes h.shaped_inner hrendered)]
  · rintro ⟨rendered, hrendered, htext⟩
    have hinner := (exists_apply_iff h.shaped_inner).mp ⟨rendered, hrendered⟩
    have haround := (exists_apply_iff (h.shaped_around (String.ofList rendered))).mp ⟨text, htext⟩
    obtain ⟨text', htext'⟩ := ((h.applicable_iff _).mpr ⟨hinner, haround⟩).apply_isOk
    refine htext'.trans (congrArg Except.ok (Text.bytes_inj ?_))
    rw [bytes h.shaped htext', bytes (h.shaped_around _) htext,
      h.reference_around (bytes h.shaped_inner hrendered)]

/-- Insertions at both ends of the span and inside it, a replacement at its start and one
that starts where it ends. -/
theorem apply_iff_apply_partition_accent :
    let queue : EditQueue := [.replace ⟨15, 16⟩ ":=", .insertAfter 13 "^", .insertBefore 11 "<",
      .replace ⟨11, 13⟩ "e", .insertAfter 15 ">"]
    Separable "xé.f=1".toList 10 queue ⟨11, 15⟩ ∧
      queue.apply "xé.f=1".toList 10 = .ok "x<e^.f>:=1".toList ∧
      ∃ rendered,
        (queue.partition ⟨11, 15⟩).1.apply (textIn "xé.f=1".toList 10 ⟨11, 15⟩) 11 =
            .ok rendered ∧
          EditQueue.apply ((queue.partition ⟨11, 15⟩).2 ++
              [.replace ⟨11, 15⟩ (String.ofList rendered)])
            "xé.f=1".toList 10 = .ok "x<e^.f>:=1".toList := by
  intro queue
  have hseparable : Separable "xé.f=1".toList 10 queue ⟨11, 15⟩ :=
    ⟨by decide, by decide, by decide, by decide, by decide, by decide, by decide⟩
  have hok : queue.apply "xé.f=1".toList 10 = .ok "x<e^.f>:=1".toList := by
    cbv
  exact ⟨hseparable, hok, (apply_iff_apply_partition _ _ _ _ hseparable _).mp hok⟩

end EditQueue

end Encapsulate
