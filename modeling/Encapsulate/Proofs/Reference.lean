import Encapsulate.Proofs.Splicing
import Mathlib

/-!
What a queue makes of a text, offset by offset. At each offset stand the texts inserted
after what ends there, the texts inserted before what starts there and the texts that
replace what starts there, each in the order in which they were queued, and then the byte
of the text unless it is replaced. Applying a queue gives this text, and it fails only at
the first edit, in the order of application, that leaves the text or meets a replaced
range that was applied before it.
-/

namespace Encapsulate

namespace EditQueue

/-- The texts of the edits of one kind at an offset, in the order in which they were
queued. -/
def textsOf (queue : EditQueue) (kind : EditKind) (offset : Nat) : List UInt8 :=
  (queue.filter fun e => e.kind == kind && e.offset == offset).flatMap fun e =>
    Text.bytes e.text.toList

def textsAt (queue : EditQueue) (offset : Nat) : List UInt8 :=
  queue.textsOf .insertAfter offset ++ queue.textsOf .insertBefore offset
    ++ queue.textsOf .replace offset

def covers (queue : EditQueue) (offset : Nat) : Bool :=
  queue.any fun e => e.kind == .replace && e.span.start ≤ offset && offset < e.span.stop

def referenceFrom (queue : EditQueue) (offset : Nat) : List UInt8 → List UInt8
  | [] => queue.textsAt offset
  | b :: bs =>
    queue.textsAt offset ++ (if queue.covers offset then [] else [b])
      ++ referenceFrom queue (offset + 1) bs

def reference (queue : EditQueue) (source : List Char) (base : Nat) : List UInt8 :=
  queue.referenceFrom base (Text.bytes source)

/-- Nothing is left out and nothing meets: every edit fits the text, of two replacements
the later in the order of application starts where the earlier has ended, and nothing is
inserted strictly inside a replaced range. -/
structure Coherent (source : List Char) (base : Nat) (queue : EditQueue) : Prop where
  fits : ∀ e ∈ queue, base ≤ e.span.start ∧ e.span.stop ≤ base + Text.width source ∧
    Text.isBoundary source (e.span.start - base) = true ∧
    Text.isBoundary source (e.span.stop - base) = true
  apart : ∀ (i j : Nat) (a b : Edit), queue[i]? = some a → queue[j]? = some b →
    a.kind = .replace → b.kind = .replace →
    a.span.start < b.span.start ∨ a.span.start = b.span.start ∧ i < j →
    a.span.stop ≤ b.span.start
  clear : ∀ e ∈ queue, ∀ r ∈ queue, e.kind ≠ .replace → r.kind = .replace →
    ¬ (r.span.start < e.offset ∧ e.offset < r.span.stop)

/-- Whether the edit `x`, with its number in the queue, is applied ahead of `y`: by
offset, then by kind, then by number. -/
def Ahead (x y : Edit × Nat) : Prop :=
  x.1.offset < y.1.offset ∨ x.1.offset = y.1.offset ∧
    (x.1.kind.rank < y.1.kind.rank ∨ x.1.kind.rank = y.1.kind.rank ∧ x.2 < y.2)

/-- Whether an edit, with its number in the queue, does not fit the text or starts before
a range has ended whose replacement is ahead of it. -/
def Breaks (source : List Char) (base : Nat) (queue : EditQueue) (x : Edit × Nat) : Prop :=
  fits source base x.1 = false ∨
    ∃ (r : Edit) (i : Nat), queue[i]? = some r ∧ r.kind = .replace ∧ Ahead (r, i) x ∧
      x.1.offset < r.span.stop

/-- The error that describes the edit `x`: that it does not fit, and otherwise that it
meets the last range whose replacement is ahead of it. -/
def Describes (source : List Char) (base : Nat) (queue : EditQueue) (x : Edit × Nat)
    (error : SpliceError) : Prop :=
  if fits source base x.1 then
    ∃ (r : Edit) (i : Nat), queue[i]? = some r ∧ r.kind = .replace ∧ Ahead (r, i) x ∧
      x.1.offset < r.span.stop ∧
      (∀ (r' : Edit) (i' : Nat), queue[i']? = some r' → r'.kind = .replace → Ahead (r', i') x →
        i' = i ∨ Ahead (r', i') (r, i)) ∧
      error = .overlap r.span x.1.span
  else
    error = .outOfBounds x.1.span base (base + Text.width source)

section Order

/-- The edits of one kind at one offset keep the order in which they were queued. -/
theorem filter_ordered (queue : EditQueue) (kind : EditKind) (offset : Nat) :
    (queue.ordered.filter fun e => e.kind == kind && e.offset == offset) =
      queue.filter fun e => e.kind == kind && e.offset == offset := by
  have hperm := (ordered_perm queue).filter fun e => e.kind == kind && e.offset == offset
  have hsub : (queue.filter fun e => e.kind == kind && e.offset == offset).Sublist
      queue.ordered := by
    refine List.sublist_mergeSort Edit.notAfter_trans Edit.notAfter_total ?_ List.filter_sublist
    refine List.Pairwise.imp_of_mem ?_ (List.pairwise_of_forall fun _ _ => trivial)
    intro a b ha hb _
    have ha' := List.of_mem_filter ha
    have hb' := List.of_mem_filter hb
    simp only [Bool.and_eq_true, beq_iff_eq] at ha' hb'
    rw [Edit.notAfter_iff, ha'.1, hb'.1, ha'.2, hb'.2]
    exact Or.inr ⟨rfl, Nat.le_refl _⟩
  have hfiltered := hsub.filter fun e => e.kind == kind && e.offset == offset
  rw [List.filter_filter] at hfiltered
  simp only [Bool.and_self] at hfiltered
  exact (hfiltered.eq_of_length hperm.length_eq.symm).symm

theorem textsAt_ordered (queue : EditQueue) : textsAt queue.ordered = textsAt queue := by
  funext offset
  simp only [textsAt, textsOf, filter_ordered]

theorem covers_ordered (queue : EditQueue) : covers queue.ordered = covers queue := by
  funext offset
  exact (ordered_perm queue).any_eq

/-- The edits with their numbers in the queue, in the order of application. -/
theorem exists_numbered (queue : EditQueue) :
    ∃ xs : List (Edit × Nat), xs.map Prod.fst = queue.ordered ∧
      (∀ x, x ∈ xs ↔ queue[x.2]? = some x.1) ∧ xs.Pairwise Ahead := by
  refine ⟨queue.zipIdx.mergeSort (List.zipIdxLE Edit.notAfter), List.mergeSort_zipIdx, ?_, ?_⟩
  · intro x
    rw [List.mem_mergeSort, List.mem_zipIdx_iff_getElem?]
  · have hsorted := List.pairwise_mergeSort (List.zipIdxLE_trans Edit.notAfter_trans)
      (List.zipIdxLE_total Edit.notAfter_total) queue.zipIdx
    have hperm := List.mergeSort_perm queue.zipIdx (List.zipIdxLE Edit.notAfter)
    have hnodup : (queue.zipIdx.mergeSort (List.zipIdxLE Edit.notAfter)).Pairwise
        fun x y => x.2 ≠ y.2 := by
      refine List.pairwise_map.mp ?_
      have hnumbers := (hperm.map Prod.snd).nodup_iff
      rw [List.zipIdx_map_snd] at hnumbers
      exact hnumbers.mpr List.nodup_range'
    refine (hsorted.and hnodup).imp ?_
    rintro x y ⟨hle, hne⟩
    unfold List.zipIdxLE at hle
    unfold Ahead
    by_cases hxy : Edit.notAfter x.1 y.1 = true
    · by_cases hyx : Edit.notAfter y.1 x.1 = true
      · simp only [hxy, hyx, if_true, decide_eq_true_eq] at hle
        rw [Edit.notAfter_iff] at hxy hyx
        omega
      · rw [Edit.notAfter_iff] at hxy hyx
        omega
    · simp [hxy] at hle

theorem Ahead.asymm {x y : Edit × Nat} (h : Ahead x y) : ¬ Ahead y x := by
  unfold Ahead at *
  omega

/-- What stands in front of an edit in the order of application is what is ahead of it. -/
theorem mem_front_iff {queue : EditQueue} {xs front back : List (Edit × Nat)} {y : Edit × Nat}
    (hmem : ∀ x, x ∈ xs ↔ queue[x.2]? = some x.1) (hpairwise : xs.Pairwise Ahead)
    (hxs : xs = front ++ y :: back) (x : Edit × Nat) :
    x ∈ front ↔ queue[x.2]? = some x.1 ∧ Ahead x y := by
  subst hxs
  obtain ⟨-, hback, hcross⟩ := List.pairwise_append.mp hpairwise
  constructor
  · intro hx
    exact ⟨(hmem x).mp (List.mem_append_left _ hx), hcross x hx y (List.mem_cons_self ..)⟩
  · rintro ⟨hx, hahead⟩
    rcases List.mem_append.mp ((hmem x).mpr hx) with hx | hx
    · exact hx
    · rcases List.mem_cons.mp hx with rfl | hx
      · exact absurd hahead hahead.asymm
      · exact absurd hahead ((List.pairwise_cons.mp hback).1 x hx).asymm

end Order

section Offsets

variable {queue es : EditQueue} {e : Edit}

theorem textsOf_cons (e : Edit) (es : EditQueue) (kind : EditKind) (offset : Nat) :
    textsOf (e :: es) kind offset =
      (if e.kind == kind && e.offset == offset then Text.bytes e.text.toList else [])
        ++ textsOf es kind offset := by
  unfold textsOf
  rw [List.filter_cons]
  split <;> rfl

theorem textsOf_eq_nil {kind : EditKind} {offset : Nat}
    (h : ∀ e ∈ queue, e.kind = kind → e.offset ≠ offset) : queue.textsOf kind offset = [] := by
  have hnone : (queue.filter fun e => e.kind == kind && e.offset == offset) = [] := by
    refine List.filter_eq_nil_iff.mpr ?_
    intro e he
    simp only [Bool.and_eq_true, beq_iff_eq, not_and]
    exact h e he
  rw [textsOf, hnone, List.flatMap_nil]

theorem textsAt_eq_nil {offset : Nat} (h : ∀ e ∈ queue, e.offset ≠ offset) :
    queue.textsAt offset = [] := by
  simp only [textsAt, textsOf_eq_nil fun e he _ => h e he, List.append_nil]

/-- Away from its own offset an edit adds no text. -/
theorem textsAt_cons_of_ne {offset : Nat} (h : e.offset ≠ offset) :
    textsAt (e :: es) offset = textsAt es offset := by
  have hne : (e.offset == offset) = false := by simpa using h
  simp only [textsAt, textsOf_cons, hne, Bool.and_false, Bool.false_eq_true, if_false,
    List.nil_append]

/-- At its own offset the text of an edit comes first where nothing is applied ahead of
it. -/
theorem textsAt_cons (h : ∀ d ∈ es, Edit.notAfter e d = true) :
    textsAt (e :: es) e.offset = Text.bytes e.text.toList ++ textsAt es e.offset := by
  -- kinds of a lower rank do not occur at this offset
  have hnone : ∀ kind : EditKind, kind.rank < e.kind.rank → textsOf es kind e.offset = [] := by
    intro kind hrank
    refine textsOf_eq_nil ?_
    intro d hd hkind hoffset
    have horder := h d hd
    rw [Edit.notAfter_iff, hkind] at horder
    omega
  simp only [textsAt, textsOf_cons, beq_self_eq_true, Bool.and_true]
  cases hkind : e.kind with
  | insertAfter => simp
  | insertBefore =>
    have hafter := hnone .insertAfter (by rw [hkind]; decide)
    simp [hafter]
  | replace =>
    have hafter := hnone .insertAfter (by rw [hkind]; decide)
    have hbefore := hnone .insertBefore (by rw [hkind]; decide)
    simp [hafter, hbefore]

theorem covers_eq_false {offset : Nat} (h : ∀ e ∈ queue, offset < e.offset) :
    queue.covers offset = false := by
  refine List.any_eq_false.mpr ?_
  intro e he
  have hlt : offset < e.span.start := h e he
  simp only [Bool.and_eq_true, decide_eq_true_eq, not_and]
  omega

theorem covers_cons_of_not {offset : Nat}
    (h : e.kind = .replace → offset < e.span.start ∨ e.span.stop ≤ offset) :
    covers (e :: es) offset = covers es offset := by
  have hnot : (e.kind == .replace && decide (e.span.start ≤ offset)
      && decide (offset < e.span.stop)) = false := by
    rw [Bool.eq_false_iff]
    simp only [ne_eq, Bool.and_eq_true, beq_iff_eq, decide_eq_true_eq, not_and]
    rintro ⟨hkind, hle⟩
    have hcases := h hkind
    omega
  rw [covers, List.any_cons, hnot, Bool.false_or]
  rfl

/-- Only what a queue does from an offset on matters from there on. -/
theorem referenceFrom_congr {queue' : EditQueue} {offset : Nat}
    (htexts : ∀ n, offset ≤ n → queue.textsAt n = queue'.textsAt n)
    (hcovers : ∀ n, offset ≤ n → queue.covers n = queue'.covers n) (bs : List UInt8) :
    queue.referenceFrom offset bs = queue'.referenceFrom offset bs := by
  induction bs generalizing offset with
  | nil => exact htexts offset (Nat.le_refl _)
  | cons b bs ih =>
    have hrest : queue.referenceFrom (offset + 1) bs = queue'.referenceFrom (offset + 1) bs :=
      ih (fun n hn => htexts n (by omega)) fun n hn => hcovers n (by omega)
    rw [referenceFrom, referenceFrom, htexts offset (Nat.le_refl _),
      hcovers offset (Nat.le_refl _), hrest]

theorem referenceFrom_nil (offset : Nat) (bs : List UInt8) :
    referenceFrom [] offset bs = bs := by
  induction bs generalizing offset with
  | nil => rfl
  | cons b bs ih => rw [referenceFrom, ih]; rfl

/-- Bytes stay as they are where no text stands and nothing is replaced. -/
theorem referenceFrom_kept {offset n : Nat} {bs : List UInt8}
    (htexts : ∀ m, offset ≤ m → m < offset + n → queue.textsAt m = [])
    (hcovers : ∀ m, offset ≤ m → m < offset + n → queue.covers m = false) (hn : n ≤ bs.length) :
    queue.referenceFrom offset bs =
      bs.take n ++ queue.referenceFrom (offset + n) (bs.drop n) := by
  induction n generalizing offset bs with
  | zero => rfl
  | succ n ih =>
    cases bs with
    | nil => simp at hn
    | cons b bs =>
      have hrest : queue.referenceFrom (offset + 1) bs =
          bs.take n ++ queue.referenceFrom (offset + 1 + n) (bs.drop n) :=
        ih (fun m hm hlt => htexts m (by omega) (by omega))
          (fun m hm hlt => hcovers m (by omega) (by omega)) (by simpa using hn)
      have hsum : offset + 1 + n = offset + (n + 1) := by omega
      rw [referenceFrom, htexts offset (by omega) (by omega),
        hcovers offset (by omega) (by omega), hrest, hsum]
      rfl

/-- In front of the first edit the bytes stay as they are. -/
theorem referenceFrom_gap {offset n : Nat} {bs : List UInt8}
    (h : ∀ e ∈ queue, offset + n ≤ e.offset) (hn : n ≤ bs.length) :
    queue.referenceFrom offset bs =
      bs.take n ++ queue.referenceFrom (offset + n) (bs.drop n) := by
  refine referenceFrom_kept ?_ ?_ hn
  · intro m _ hlt
    exact textsAt_eq_nil fun e he => by have := h e he; omega
  · intro m _ hlt
    exact covers_eq_false fun e he => by have := h e he; omega

/-- The text in front of the first edit stays as it is. -/
theorem referenceFrom_bytes_append {offset : Nat} {gap : List Char}
    (h : ∀ e ∈ queue, offset + Text.width gap ≤ e.offset) (rest : List Char) :
    queue.referenceFrom offset (Text.bytes (gap ++ rest)) =
      Text.bytes gap ++ queue.referenceFrom (offset + Text.width gap) (Text.bytes rest) := by
  have hlength : Text.width gap ≤ (Text.bytes (gap ++ rest)).length := by
    rw [Text.length_bytes, Text.width_append]
    exact Nat.le_add_right _ _
  rw [referenceFrom_gap h hlength, Text.bytes_append, ← Text.length_bytes gap, List.take_left,
    List.drop_left]

/-- Bytes that are replaced leave nothing where no text stands. -/
theorem referenceFrom_covered {offset n : Nat} {bs : List UInt8}
    (htexts : ∀ m, offset ≤ m → m < offset + n → queue.textsAt m = [])
    (hcovers : ∀ m, offset ≤ m → m < offset + n → queue.covers m = true) (hn : n ≤ bs.length) :
    queue.referenceFrom offset bs = queue.referenceFrom (offset + n) (bs.drop n) := by
  induction n generalizing offset bs with
  | zero => rfl
  | succ n ih =>
    cases bs with
    | nil => simp at hn
    | cons b bs =>
      have hrest : queue.referenceFrom (offset + 1) bs =
          queue.referenceFrom (offset + 1 + n) (bs.drop n) :=
        ih (fun m hm hlt => htexts m (by omega) (by omega))
          (fun m hm hlt => hcovers m (by omega) (by omega)) (by simpa using hn)
      have hsum : offset + 1 + n = offset + (n + 1) := by omega
      rw [referenceFrom, htexts offset (by omega) (by omega),
        hcovers offset (by omega) (by omega), hrest, hsum]
      rfl

/-- The first byte of the text is taken over, or not, after what stands in front of it. -/
theorem referenceFrom_textsAt (queue queue' : EditQueue) (offset : Nat) (front : List UInt8)
    (hhere : queue.textsAt offset = front ++ queue'.textsAt offset)
    (hlater : ∀ n, offset < n → queue.textsAt n = queue'.textsAt n)
    (hcovers : ∀ n, offset ≤ n → queue.covers n = queue'.covers n) (bs : List UInt8) :
    queue.referenceFrom offset bs = front ++ queue'.referenceFrom offset bs := by
  cases bs with
  | nil => exact hhere
  | cons b bs =>
    have hrest : queue.referenceFrom (offset + 1) bs = queue'.referenceFrom (offset + 1) bs :=
      referenceFrom_congr (fun n hn => hlater n (by omega)) (fun n hn => hcovers n (by omega)) bs
    rw [referenceFrom, referenceFrom, hhere, hcovers offset (Nat.le_refl _), hrest]
    simp only [List.append_assoc]

/-- The first edit, at the offset that is reached, inserts its text. -/
theorem referenceFrom_insert (hkind : e.kind ≠ .replace)
    (horder : ∀ d ∈ es, Edit.notAfter e d = true) (bs : List UInt8) :
    referenceFrom (e :: es) e.offset bs =
      Text.bytes e.text.toList ++ referenceFrom es e.offset bs := by
  refine referenceFrom_textsAt _ _ _ _ (textsAt_cons horder) ?_ ?_ bs
  · exact fun n hn => textsAt_cons_of_ne (by omega)
  · exact fun n _ => covers_cons_of_not fun hreplace => absurd hreplace hkind

/-- The first edit, at the offset that is reached, replaces what it covers. -/
theorem referenceFrom_replace (hkind : e.kind = .replace) (hle : e.span.start ≤ e.span.stop)
    (horder : ∀ d ∈ es, Edit.notAfter e d = true) (hclear : ∀ d ∈ es, e.span.stop ≤ d.offset)
    {bs : List UInt8} (hbs : e.span.stop - e.span.start ≤ bs.length) :
    referenceFrom (e :: es) e.offset bs =
      Text.bytes e.text.toList ++
        referenceFrom es e.span.stop (bs.drop (e.span.stop - e.span.start)) := by
  have hcongr : ∀ (n : Nat) (cs : List UInt8), e.span.stop ≤ n → e.offset < n →
      referenceFrom (e :: es) n cs = referenceFrom es n cs := by
    intro n cs hstop hstart
    exact referenceFrom_congr (fun m hm => textsAt_cons_of_ne (by omega))
      (fun m hm => covers_cons_of_not fun _ => Or.inr (by omega)) cs
  by_cases hempty : e.span.stop = e.span.start
  · -- nothing is covered, and the text is put in front
    have hstop : e.span.stop = e.offset := hempty
    rw [hempty, Nat.sub_self, List.drop_zero]
    refine referenceFrom_textsAt _ _ _ _ (textsAt_cons horder) ?_ ?_ bs
    · exact fun n hn => textsAt_cons_of_ne (by omega)
    · exact fun n hn => covers_cons_of_not fun _ => Or.inr (by omega)
  · -- the first byte is covered, and so are the others up to the end of the range
    have hstart : e.span.start = e.offset := rfl
    have hcovers : ∀ n, e.offset ≤ n → n < e.span.stop → covers (e :: es) n = true := by
      intro n hn hlt
      have hhere : (e.kind == .replace && decide (e.span.start ≤ n)
          && decide (n < e.span.stop)) = true := by
        simp [hkind, hstart, hn, hlt]
      rw [covers, List.any_cons, hhere, Bool.true_or]
    obtain ⟨m, hm⟩ : ∃ m, e.span.stop - e.span.start = m + 1 :=
      ⟨e.span.stop - e.span.start - 1, by omega⟩
    cases bs with
    | nil => simp only [List.length_nil] at hbs; omega
    | cons b bs =>
      have hnone : textsAt es e.offset = [] :=
        textsAt_eq_nil fun d hd => by have := hclear d hd; omega
      have hskip : referenceFrom (e :: es) (e.offset + 1) bs =
          referenceFrom (e :: es) (e.offset + 1 + m) (bs.drop m) := by
        refine referenceFrom_covered ?_ ?_ (by simp only [List.length_cons] at hbs; omega)
        · intro n hn hlt
          rw [textsAt_cons_of_ne (by omega)]
          exact textsAt_eq_nil fun d hd => by have := hclear d hd; omega
        · exact fun n hn hlt => hcovers n (by omega) (by omega)
      have hsum : e.offset + 1 + m = e.span.stop := by omega
      rw [referenceFrom, textsAt_cons horder, hnone, hcovers e.offset (Nat.le_refl _) (by omega),
        hskip, hsum, hcongr _ _ (Nat.le_refl _) (by omega), hm]
      simp

end Offsets

section Run

variable {source : List Char} {base : Nat} {earlier es : List Edit} {e : Edit}

def lastReplaced (earlier : List Edit) : Option Span :=
  (earlier.filter (·.kind == .replace)).getLast?.map Edit.span

theorem lastReplaced_concat (earlier : List Edit) (e : Edit) :
    lastReplaced (earlier ++ [e]) =
      if e.kind = .replace then some e.span else lastReplaced earlier := by
  by_cases hkind : e.kind = .replace <;> simp [lastReplaced, List.filter_append, hkind]

def EndsLast (earlier : List Edit) : Prop :=
  ∀ r ∈ earlier, r.kind = .replace →
    ∃ last, lastReplaced earlier = some last ∧ r.span.stop ≤ last.stop

def BreaksAfter (source : List Char) (base : Nat) (earlier : List Edit) (e : Edit) : Prop :=
  fits source base e = false ∨ ∃ r ∈ earlier, r.kind = .replace ∧ e.offset < r.span.stop

def Unbroken (source : List Char) (base : Nat) (earlier : List Edit) : List Edit → Prop
  | [] => True
  | e :: es => ¬ BreaksAfter source base earlier e ∧ Unbroken source base (earlier ++ [e]) es

def errorAfter (source : List Char) (base : Nat) (earlier : List Edit) (e : Edit) : SpliceError :=
  if fits source base e then .overlap ((lastReplaced earlier).getD e.span) e.span
  else .outOfBounds e.span base (base + Text.width source)

theorem collides_iff (h : EndsLast earlier) :
    collides (lastReplaced earlier) e = true ↔
      ∃ r ∈ earlier, r.kind = .replace ∧ e.offset < r.span.stop := by
  constructor
  · intro hcollides
    cases hlast : lastReplaced earlier with
    | none => simp [hlast, collides] at hcollides
    | some last =>
      obtain ⟨r, hr, hspan⟩ := Option.map_eq_some_iff.mp hlast
      obtain ⟨hmem, hkind⟩ := List.mem_filter.mp (List.mem_of_getLast? hr)
      refine ⟨r, hmem, by simpa using hkind, ?_⟩
      rw [hspan]
      simpa [hlast, collides] using hcollides
  · rintro ⟨r, hr, hkind, hlt⟩
    obtain ⟨last, hlast, hle⟩ := h r hr hkind
    simp only [hlast, collides, decide_eq_true_eq]
    omega

theorem not_breaksAfter_iff (h : EndsLast earlier) :
    ¬ BreaksAfter source base earlier e ↔
      fits source base e = true ∧ collides (lastReplaced earlier) e = false := by
  rw [BreaksAfter, ← collides_iff h, not_or, Bool.not_eq_false, Bool.not_eq_true]

theorem EndsLast.concat (h : EndsLast earlier) (hle : e.span.start ≤ e.span.stop)
    (hnot : ¬ BreaksAfter source base earlier e) : EndsLast (earlier ++ [e]) := by
  intro r hr hkind
  rw [lastReplaced_concat]
  rcases List.mem_append.mp hr with hr | hr
  · by_cases he : e.kind = .replace
    · refine ⟨e.span, if_pos he, ?_⟩
      by_contra hlt
      exact hnot (Or.inr ⟨r, hr, hkind, by unfold Edit.offset; omega⟩)
    · obtain ⟨last, hlast, hstop⟩ := h r hr hkind
      exact ⟨last, by rw [if_neg he, hlast], hstop⟩
  · rw [List.mem_singleton.mp hr] at hkind ⊢
    exact ⟨e.span, if_pos hkind, Nat.le_refl _⟩

theorem Unbroken.endsLast (h : Unbroken source base earlier es) (hends : EndsLast earlier)
    (hle : ∀ e ∈ es, e.span.start ≤ e.span.stop) : EndsLast (earlier ++ es) := by
  induction es generalizing earlier with
  | nil => rwa [List.append_nil]
  | cons e es ih =>
    obtain ⟨hnot, hrest⟩ := h
    have hends' := ih hrest (hends.concat (hle e (List.mem_cons_self ..)) hnot)
      fun d hd => hle d (List.mem_cons_of_mem _ hd)
    rwa [List.append_assoc] at hends'

/-- Every edit of an unbroken run fits and starts after what was replaced before the run. -/
theorem Unbroken.clear (h : Unbroken source base earlier es) {d : Edit} (hd : d ∈ es) :
    fits source base d = true ∧ ∀ r ∈ earlier, r.kind = .replace → r.span.stop ≤ d.offset := by
  induction es generalizing earlier with
  | nil => simp at hd
  | cons e es ih =>
    obtain ⟨hnot, hrest⟩ := h
    rcases List.mem_cons.mp hd with rfl | hd
    · refine ⟨by simpa [BreaksAfter] using fun hf => hnot (Or.inl hf), ?_⟩
      intro r hr hkind
      by_contra hlt
      exact hnot (Or.inr ⟨r, hr, hkind, by omega⟩)
    · obtain ⟨hfits, hclear⟩ := ih hrest hd
      exact ⟨hfits, fun r hr hkind => hclear r (List.mem_append_left _ hr) hkind⟩

/-- At an edit that fits, the text from the cursor on falls into what stands in front of the
edit, what it covers and what is left. -/
theorem exists_cut (hfit : fits source base e = true) (hle : e.span.start ≤ e.span.stop)
    {front rest : List Char} {cursor : Nat} (hsource : source = front ++ rest)
    (hfront : cursor = base + Text.width front) (hcursor : cursor ≤ e.offset) :
    ∃ gap covered after, rest = gap ++ (covered ++ after) ∧
      Text.width gap = e.span.start - cursor ∧
      Text.width covered = e.span.stop - e.span.start := by
  have hbounds : base ≤ e.span.start ∧ e.span.stop ≤ base + Text.width source ∧
      Text.isBoundary source (e.span.start - base) = true ∧
      Text.isBoundary source (e.span.stop - base) = true := by
    simpa [fits, and_assoc] using hfit
  obtain ⟨-, -, hfirst, hlast⟩ := hbounds
  obtain ⟨before, covered, after, hparts, hbefore, hcovered⟩ :=
    Text.exists_parts hfirst hlast (by omega)
  unfold Edit.offset at hcursor
  rw [hsource] at hparts
  rcases List.append_eq_append_iff.mp hparts with ⟨gap, rfl, rfl⟩ | ⟨gap, rfl, hrest⟩
  · rw [Text.width_append] at hbefore
    exact ⟨gap, covered, after, rfl, by omega, by omega⟩
  · -- the cursor stands at the edit
    rw [Text.width_append] at hfront
    have hnil : gap = [] := Text.width_eq_zero_iff.mp (by omega)
    subst hnil
    exact ⟨[], covered, after, hrest.symm, by simp only [Text.width]; omega, by omega⟩

section Step

variable {last : Option Span} {cursor : Nat} {gap covered after rest : List Char}

/-- An insertion puts its text behind the gap. -/
theorem spliceFrom_insert (hfit : fits source base e = true) (hfree : collides last e = false)
    (hkind : e.kind ≠ .replace) (hgap : Text.width gap = e.span.start - cursor) :
    spliceFrom source base cursor (gap ++ rest) last (e :: es) =
      (spliceFrom source base e.span.start rest last es).map ((gap ++ e.text.toList) ++ ·) := by
  simp only [spliceFrom, hfit, hfree, Bool.not_true, Bool.false_eq_true, if_false, ← hgap,
    Text.takeBytes_width, Text.sliceFrom_width]
  cases hcase : e.kind with
  | replace => exact absurd hcase hkind
  | insertBefore => rfl
  | insertAfter => rfl

/-- A replacement puts its text behind the gap and goes on behind what it covers. -/
theorem spliceFrom_replace (hfit : fits source base e = true) (hfree : collides last e = false)
    (hkind : e.kind = .replace) (hgap : Text.width gap = e.span.start - cursor)
    (hcovered : Text.width covered = e.span.stop - e.span.start) :
    spliceFrom source base cursor (gap ++ (covered ++ after)) last (e :: es) =
      (spliceFrom source base e.span.stop after (some e.span) es).map
        ((gap ++ e.text.toList) ++ ·) := by
  simp only [spliceFrom, hfit, hfree, Bool.not_true, Bool.false_eq_true, if_false, ← hgap,
    Text.takeBytes_width, Text.sliceFrom_width, hkind, ← hcovered]

end Step

/-- An unbroken run in the order of application gives the text that is built offset by
offset. -/
theorem spliceFrom_ok (hunbroken : Unbroken source base earlier es) (hends : EndsLast earlier)
    (hle : ∀ e ∈ es, e.span.start ≤ e.span.stop)
    (horder : es.Pairwise fun a b => Edit.notAfter a b = true) {front rest : List Char}
    {cursor : Nat} (hsource : source = front ++ rest) (hfront : cursor = base + Text.width front)
    (hcursor : ∀ e ∈ es, cursor ≤ e.offset) :
    ∃ text, spliceFrom source base cursor rest (lastReplaced earlier) es = .ok text ∧
      Text.bytes text = referenceFrom es cursor (Text.bytes rest) := by
  induction es generalizing earlier front rest cursor with
  | nil => exact ⟨rest, rfl, (referenceFrom_nil cursor _).symm⟩
  | cons e es ih =>
    obtain ⟨hnot, hrest⟩ := hunbroken
    obtain ⟨hfit, hfree⟩ := (not_breaksAfter_iff hends).mp hnot
    obtain ⟨hspan, hlater⟩ := List.forall_mem_cons.mp hle
    obtain ⟨hfirst, hordered⟩ := List.pairwise_cons.mp horder
    have hends' := hends.concat hspan hnot
    have hlast := lastReplaced_concat earlier e
    have hstart : cursor ≤ e.offset := hcursor e List.mem_cons_self
    obtain ⟨gap, covered, after, rfl, hgap, hcovered⟩ :=
      exists_cut hfit hspan hsource hfront hstart
    have hreach : cursor + Text.width gap = e.offset := by
      unfold Edit.offset at hstart ⊢
      omega
    have hahead : ∀ d ∈ es, e.offset ≤ d.offset := by
      intro d hd
      have horder' := Edit.notAfter_iff.mp (hfirst d hd)
      omega
    have hsource' : source = (front ++ gap) ++ (covered ++ after) := by
      rw [hsource, List.append_assoc]
    rw [referenceFrom_bytes_append (by
      rw [hreach]
      exact List.forall_mem_cons.mpr ⟨Nat.le_refl _, hahead⟩), hreach]
    by_cases hkind : e.kind = .replace
    · rw [if_pos hkind] at hlast
      have hclear : ∀ d ∈ es, e.span.stop ≤ d.offset :=
        fun d hd => (hrest.clear hd).2 e (by simp) hkind
      have hbehind : e.span.stop = base + Text.width (front ++ gap ++ covered) := by
        simp only [Text.width_append]
        unfold Edit.offset at hreach
        omega
      obtain ⟨text, htext, hbytes⟩ := ih hrest hends' hlater hordered
        (by rw [hsource', List.append_assoc (front ++ gap)]) hbehind hclear
      rw [hlast] at htext
      refine ⟨_, by rw [spliceFrom_replace hfit hfree hkind hgap hcovered, htext]; rfl, ?_⟩
      rw [Text.bytes_append, Text.bytes_append, hbytes, Text.bytes_append covered,
        referenceFrom_replace hkind hspan hfirst hclear (by
          rw [List.length_append, Text.length_bytes, hcovered]
          exact Nat.le_add_right _ _), ← hcovered, ← Text.length_bytes, List.drop_left,
        List.append_assoc]
    · rw [if_neg hkind] at hlast
      have hbehind : e.span.start = base + Text.width (front ++ gap) := by
        rw [Text.width_append]
        unfold Edit.offset at hreach
        omega
      obtain ⟨text, htext, hbytes⟩ := ih hrest hends' hlater hordered hsource' hbehind hahead
      rw [hlast] at htext
      refine ⟨_, by rw [spliceFrom_insert hfit hfree hkind hgap, htext]; rfl, ?_⟩
      rw [Text.bytes_append, Text.bytes_append, hbytes, referenceFrom_insert hkind hfirst,
        List.append_assoc]
      rfl

/-- A run fails at the first edit that breaks. -/
theorem spliceFrom_error {front back : List Edit} (hunbroken : Unbroken source base earlier front)
    (hends : EndsLast earlier) (hle : ∀ e ∈ front, e.span.start ≤ e.span.stop)
    (hbreaks : BreaksAfter source base (earlier ++ front) e) (cursor : Nat) (rest : List Char) :
    spliceFrom source base cursor rest (lastReplaced earlier) (front ++ e :: back) =
      .error (errorAfter source base (earlier ++ front) e) := by
  induction front generalizing earlier cursor rest with
  | nil =>
    rw [List.append_nil] at hbreaks ⊢
    rw [List.nil_append, spliceFrom, errorAfter]
    cases hfit : fits source base e with
    | false => simp
    | true =>
      have hcollides : collides (lastReplaced earlier) e = true := by
        rcases hbreaks with hout | hmeets
        · rw [hfit] at hout
          exact absurd hout (by simp)
        · exact (collides_iff hends).mpr hmeets
      simp [hcollides]
  | cons d front ih =>
    obtain ⟨hnot, hrest⟩ := hunbroken
    obtain ⟨hfit, hfree⟩ := (not_breaksAfter_iff hends).mp hnot
    have hends' := hends.concat (hle d (List.mem_cons_self ..)) hnot
    have hlastReplaced := lastReplaced_concat earlier d
    have hsplit : earlier ++ d :: front = earlier ++ [d] ++ front := by simp
    rw [hsplit] at hbreaks ⊢
    have hlater := ih hrest hends' (fun x hx => hle x (List.mem_cons_of_mem _ hx)) hbreaks
    rw [List.cons_append]
    simp only [spliceFrom, hfit, hfree, Bool.not_true, Bool.false_eq_true, if_false]
    cases hkind : d.kind with
    | replace =>
      rw [if_pos hkind] at hlastReplaced
      rw [hlastReplaced] at hlater
      simp only [hlater]
      rfl
    | insertBefore =>
      rw [if_neg (by simp [hkind])] at hlastReplaced
      rw [hlastReplaced] at hlater
      simp only [hlater]
      rfl
    | insertAfter =>
      rw [if_neg (by simp [hkind])] at hlastReplaced
      rw [hlastReplaced] at hlater
      simp only [hlater]
      rfl

theorem unbroken_append {front back : List Edit} :
    Unbroken source base earlier (front ++ back) ↔
      Unbroken source base earlier front ∧ Unbroken source base (earlier ++ front) back := by
  induction front generalizing earlier with
  | nil => simp [Unbroken]
  | cons d front ih =>
    have hsplit : earlier ++ d :: front = earlier ++ [d] ++ front := by simp
    rw [List.cons_append, Unbroken, Unbroken, ih, hsplit, and_assoc]

/-- A run that is not unbroken has a first edit that breaks. -/
theorem exists_first_break (h : ¬ Unbroken source base earlier es) :
    ∃ front e back, es = front ++ e :: back ∧ Unbroken source base earlier front ∧
      BreaksAfter source base (earlier ++ front) e := by
  induction es generalizing earlier with
  | nil => exact absurd trivial h
  | cons d es ih =>
    by_cases hbreaks : BreaksAfter source base earlier d
    · exact ⟨[], d, es, rfl, trivial, by rwa [List.append_nil]⟩
    · obtain ⟨front, e, back, rfl, hfront, he⟩ := ih fun hrest => h ⟨hbreaks, hrest⟩
      refine ⟨d :: front, e, back, rfl, ⟨hbreaks, hfront⟩, ?_⟩
      simpa using he

end Run

section Whole

variable {source : List Char} {base : Nat} {queue : EditQueue} {xs front back : List (Edit × Nat)}
  {y : Edit × Nat}

theorem unbroken_iff {es : List Edit} :
    Unbroken source base [] es ↔
      ∀ front e back, es = front ++ e :: back → ¬ BreaksAfter source base front e := by
  constructor
  · rintro h front e back rfl
    have hback := (unbroken_append.mp h).2
    rw [List.nil_append] at hback
    exact hback.1
  · intro h
    by_contra hbroken
    obtain ⟨front, e, back, hes, -, hbreaks⟩ := exists_first_break hbroken
    rw [List.nil_append] at hbreaks
    exact h front e back hes hbreaks

theorem breaksAfter_iff (hmem : ∀ x, x ∈ xs ↔ queue[x.2]? = some x.1)
    (hpairwise : xs.Pairwise Ahead) (hxs : xs = front ++ y :: back) :
    BreaksAfter source base (front.map Prod.fst) y.1 ↔ Breaks source base queue y := by
  have hfront := mem_front_iff hmem hpairwise hxs
  refine or_congr Iff.rfl ?_
  constructor
  · rintro ⟨r, hr, hkind, hlt⟩
    obtain ⟨⟨r, i⟩, hx, rfl⟩ := List.mem_map.mp hr
    obtain ⟨hqueue, hahead⟩ := (hfront (r, i)).mp hx
    exact ⟨r, i, hqueue, hkind, hahead, hlt⟩
  · rintro ⟨r, i, hqueue, hkind, hahead, hlt⟩
    exact ⟨r, List.mem_map.mpr ⟨(r, i), (hfront (r, i)).mpr ⟨hqueue, hahead⟩, rfl⟩, hkind, hlt⟩

/-- The edits ahead of one that breaks are applied, so the last range they replace is the
one that the error names. -/
theorem describes_errorAfter (hmem : ∀ x, x ∈ xs ↔ queue[x.2]? = some x.1)
    (hpairwise : xs.Pairwise Ahead) (hxs : xs = front ++ y :: back)
    (hends : EndsLast (front.map Prod.fst)) (hbreaks : Breaks source base queue y) :
    Describes source base queue y (errorAfter source base (front.map Prod.fst) y.1) := by
  unfold Describes errorAfter
  cases hfit : fits source base y.1 with
  | false => rfl
  | true =>
    have hmeets : ∃ r ∈ front.map Prod.fst, r.kind = .replace ∧ y.1.offset < r.span.stop := by
      rcases (breaksAfter_iff hmem hpairwise hxs).mpr hbreaks with hout | hmeets
      · rw [hfit] at hout
        exact absurd hout (by simp)
      · exact hmeets
    obtain ⟨r₀, hr₀, hkind₀, hlt₀⟩ := hmeets
    obtain ⟨last, hlast, hstop⟩ := hends r₀ hr₀ hkind₀
    -- the last replacement in front, with its number
    have hsplit : ∃ init x, front.filter (fun x => x.1.kind == .replace) = init ++ [x] ∧
        x.1.span = last := by
      rw [lastReplaced, List.filter_map, List.getLast?_map, Option.map_map] at hlast
      obtain ⟨x, hx, hspan⟩ := Option.map_eq_some_iff.mp hlast
      obtain ⟨init, hinit⟩ := List.getLast?_eq_some_iff.mp hx
      exact ⟨init, x, hinit, hspan⟩
    obtain ⟨init, x, hinit, rfl⟩ := hsplit
    have hfront := mem_front_iff hmem hpairwise hxs
    have hx : x ∈ front.filter (fun x => x.1.kind == .replace) := by rw [hinit]; simp
    obtain ⟨hxfront, hxkind⟩ := List.mem_filter.mp hx
    obtain ⟨hxqueue, hxahead⟩ := (hfront x).mp hxfront
    rw [if_pos rfl, if_pos rfl, hlast]
    refine ⟨x.1, x.2, hxqueue, by simpa using hxkind, hxahead, by omega, ?_, rfl⟩
    intro r i hqueue hkind hahead
    have hr : (r, i) ∈ front.filter (fun x => x.1.kind == .replace) :=
      List.mem_filter.mpr ⟨(hfront (r, i)).mpr ⟨hqueue, hahead⟩, by simpa using hkind⟩
    rw [hinit] at hr
    have horder : (init ++ [x]).Pairwise Ahead := by
      rw [← hinit]
      rw [hxs] at hpairwise
      exact (List.pairwise_append.mp hpairwise).1.filter _
    rcases List.mem_append.mp hr with hr | hr
    · exact Or.inr ((List.pairwise_append.mp horder).2.2 _ hr x (by simp))
    · exact Or.inl (congrArg Prod.snd (List.mem_singleton.mp hr))

theorem coherent_iff (source : List Char) (base : Nat) (queue : EditQueue) :
    Coherent source base queue ↔
      ∀ x : Edit × Nat, queue[x.2]? = some x.1 → ¬ Breaks source base queue x := by
  constructor
  · intro h x hx hbreaks
    rcases hbreaks with hout | ⟨r, i, hr, hkind, hahead, hlt⟩
    · have hfits := h.fits x.1 (List.mem_of_getElem? hx)
      simp [fits, hfits] at hout
    · unfold Ahead at hahead
      by_cases hx' : x.1.kind = .replace
      · have hapart := h.apart i x.2 r x.1 hr hx hkind hx'
        simp only [Edit.offset, hkind, hx'] at hahead hlt
        omega
      · have hclear := h.clear x.1 (List.mem_of_getElem? hx) r (List.mem_of_getElem? hr) hx' hkind
        have hrank : x.1.kind.rank < r.kind.rank := by
          rw [hkind]
          revert hx'
          cases x.1.kind <;> simp [EditKind.rank]
        simp only [Edit.offset] at hahead hlt hclear
        omega
  · intro h
    refine ⟨?_, ?_, ?_⟩
    · intro e he
      obtain ⟨i, hi⟩ := List.mem_iff_getElem?.mp he
      have hfits : fits source base e = true := by
        by_contra hout
        exact h (e, i) hi (Or.inl (by simpa using hout))
      simpa [fits, and_assoc] using hfits
    · intro i j a b ha hb hakind hbkind horder
      by_contra hlt
      refine h (b, j) hb (Or.inr ⟨a, i, ha, hakind, ?_, by simp only [Edit.offset]; omega⟩)
      rcases horder with hbefore | ⟨hstart, hij⟩
      · exact Or.inl hbefore
      · exact Or.inr ⟨hstart, Or.inr ⟨by rw [hakind, hbkind], hij⟩⟩
    · intro e he r hr hkind hrkind hinside
      obtain ⟨j, hj⟩ := List.mem_iff_getElem?.mp he
      obtain ⟨i, hi⟩ := List.mem_iff_getElem?.mp hr
      exact h (e, j) hj (Or.inr ⟨r, i, hi, hrkind, Or.inl hinside.1, hinside.2⟩)

theorem unbroken_ordered_iff (hmap : xs.map Prod.fst = queue.ordered)
    (hmem : ∀ x, x ∈ xs ↔ queue[x.2]? = some x.1) (hpairwise : xs.Pairwise Ahead) :
    Unbroken source base [] queue.ordered ↔ Coherent source base queue := by
  rw [coherent_iff, unbroken_iff, ← hmap]
  constructor
  · intro h x hx
    obtain ⟨front, back, hxs⟩ := List.append_of_mem ((hmem x).mpr hx)
    rw [← breaksAfter_iff hmem hpairwise hxs]
    exact h _ x.1 (back.map Prod.fst) (by rw [hxs, List.map_append, List.map_cons])
  · intro h front e back hsplit
    obtain ⟨front, rest, hxs, rfl, hrest⟩ := List.map_eq_append_iff.mp hsplit
    obtain ⟨y, back, rfl, rfl, -⟩ := List.map_eq_cons_iff.mp hrest
    rw [breaksAfter_iff hmem hpairwise hxs]
    exact h y ((hmem y).mp (by rw [hxs]; simp))

theorem apply_of_unbroken (hle : ∀ e ∈ queue, e.span.start ≤ e.span.stop)
    (h : Unbroken source base [] queue.ordered) :
    ∃ text, queue.apply source base = .ok text ∧
      Text.bytes text = queue.reference source base := by
  have hmem := fun e => (ordered_perm queue).mem_iff (a := e)
  have hcursor : ∀ e ∈ queue.ordered, base ≤ e.offset := by
    intro e he
    have hfits := (h.clear he).1
    simp only [fits, Bool.and_eq_true, decide_eq_true_eq] at hfits
    exact hfits.1.1.1
  obtain ⟨text, htext, hbytes⟩ := spliceFrom_ok h (by simp [EndsLast])
    (fun e he => hle e ((hmem e).mp he)) (ordered_pairwise queue) (List.nil_append source).symm
    rfl hcursor
  refine ⟨text, htext, hbytes.trans ?_⟩
  exact referenceFrom_congr (fun n _ => by rw [textsAt_ordered])
    (fun n _ => by rw [covers_ordered]) _

/-- Applying a queue fails at the first edit that breaks. -/
theorem apply_of_broken (hle : ∀ e ∈ queue, e.span.start ≤ e.span.stop) {front back : List Edit}
    {e : Edit} (hsplit : queue.ordered = front ++ e :: back)
    (hfront : Unbroken source base [] front) (hbreaks : BreaksAfter source base front e) :
    EndsLast front ∧ queue.apply source base = .error (errorAfter source base front e) := by
  have hle' : ∀ d ∈ front, d.span.start ≤ d.span.stop := by
    intro d hd
    refine hle d ((ordered_perm queue).mem_iff.mp ?_)
    rw [hsplit]
    exact List.mem_append_left _ hd
  refine ⟨hfront.endsLast (by simp [EndsLast]) hle', ?_⟩
  rw [EditQueue.apply, hsplit]
  exact spliceFrom_error hfront (by simp [EndsLast]) hle' hbreaks base source

theorem unbroken_of_apply (hle : ∀ e ∈ queue, e.span.start ≤ e.span.stop) {text : List Char}
    (h : queue.apply source base = .ok text) : Unbroken source base [] queue.ordered := by
  by_contra hbroken
  obtain ⟨front, e, back, hsplit, hfront, hbreaks⟩ := exists_first_break hbroken
  rw [(apply_of_broken hle hsplit hfront hbreaks).2] at h
  exact absurd h (by simp)

/-- Where a queue can be applied, it gives the text that is built offset by offset. -/
theorem bytes_of_apply (hle : ∀ e ∈ queue, e.span.start ≤ e.span.stop) {text : List Char}
    (h : queue.apply source base = .ok text) : Text.bytes text = queue.reference source base := by
  obtain ⟨text', htext, hbytes⟩ := apply_of_unbroken hle (unbroken_of_apply hle h)
  rw [htext] at h
  rw [← Except.ok.inj h]
  exact hbytes

/-- Applying a queue succeeds exactly on coherent edits and then gives the text that is
built offset by offset. Otherwise the error describes the first edit, in the order of
application, that does not fit or meets a range replaced before it. -/
theorem apply_meets_reference (queue : EditQueue) (source : List Char) (base : Nat)
    (hle : ∀ e ∈ queue, e.span.start ≤ e.span.stop) :
    ((∃ text, queue.apply source base = .ok text) ↔ Coherent source base queue) ∧
      (∀ text, queue.apply source base = .ok text →
        Text.bytes text = queue.reference source base) ∧
      ∀ error, queue.apply source base = .error error →
        ∃ (e : Edit) (j : Nat), queue[j]? = some e ∧ Breaks source base queue (e, j) ∧
          (∀ (d : Edit) (i : Nat), queue[i]? = some d → Ahead (d, i) (e, j) →
            ¬ Breaks source base queue (d, i)) ∧
          Describes source base queue (e, j) error := by
  obtain ⟨xs, hmap, hmem, hpairwise⟩ := exists_numbered queue
  have hcoherent : Unbroken source base [] queue.ordered ↔ Coherent source base queue :=
    unbroken_ordered_iff hmap hmem hpairwise
  by_cases hunbroken : Unbroken source base [] queue.ordered
  · obtain ⟨text, htext, hbytes⟩ := apply_of_unbroken hle hunbroken
    rw [htext]
    refine ⟨⟨fun _ => hcoherent.mp hunbroken, fun _ => ⟨text, rfl⟩⟩, ?_, ?_⟩
    · rintro text' ⟨⟩
      exact hbytes
    · rintro error ⟨⟩
  · obtain ⟨front, e, back, hsplit, hfront, hbreaks⟩ := exists_first_break hunbroken
    obtain ⟨hends, herror⟩ := apply_of_broken hle hsplit hfront hbreaks
    rw [herror]
    refine ⟨⟨?_, fun h => absurd (hcoherent.mpr h) hunbroken⟩, ?_, ?_⟩
    · rintro ⟨text, ⟨⟩⟩
    · rintro text ⟨⟩
    · rintro error ⟨⟩
      rw [← hmap] at hsplit
      obtain ⟨front, rest, hxs, rfl, hrest⟩ := List.map_eq_append_iff.mp hsplit
      obtain ⟨⟨e, j⟩, back, rfl, rfl, -⟩ := List.map_eq_cons_iff.mp hrest
      have hbroken := (breaksAfter_iff hmem hpairwise hxs).mp hbreaks
      refine ⟨e, j, (hmem (e, j)).mp (by rw [hxs]; simp), hbroken, ?_,
        describes_errorAfter hmem hpairwise hxs hends hbroken⟩
      -- what is ahead stands in front, where nothing breaks
      intro d i hd hahead
      obtain ⟨before, after, rfl⟩ :=
        List.append_of_mem ((mem_front_iff hmem hpairwise hxs (d, i)).mpr ⟨hd, hahead⟩)
      rw [List.append_assoc, List.cons_append] at hxs
      rw [← breaksAfter_iff hmem hpairwise hxs]
      rw [List.map_append, List.map_cons] at hfront
      exact unbroken_iff.mp hfront _ d _ rfl

/-- Insertions on both sides of a two-byte character, and at its start an empty replacement
queued ahead of the one that replaces it. -/
theorem apply_meets_reference_accent :
    let queue : EditQueue := [.insertBefore 13 ">", .replace ⟨11, 11⟩ "=", .replace ⟨11, 13⟩ "é",
      .insertAfter 11 "<"]
    Coherent "aéb".toList 10 queue ∧
      ∃ text, queue.apply "aéb".toList 10 = .ok text ∧
        Text.bytes text = queue.reference "aéb".toList 10 ∧ text = "a<=é>b".toList := by
  intro queue
  have hle : ∀ e ∈ queue, e.span.start ≤ e.span.stop := by decide
  have hok : queue.apply "aéb".toList 10 = .ok "a<=é>b".toList := by
    cbv
  obtain ⟨hcoherent, hbytes, -⟩ := apply_meets_reference queue "aéb".toList 10 hle
  exact ⟨hcoherent.mp ⟨_, hok⟩, _, hok, hbytes _ hok, rfl⟩

end Whole

end EditQueue

end Encapsulate
