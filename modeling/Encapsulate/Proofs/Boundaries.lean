import Encapsulate.Text.Blank
import Encapsulate.Text.Line
import Mathlib.Data.List.TakeWhile

/-!
Boundaries of a text. An offset is a boundary when some initial part of the text is as
wide. Two boundaries cut out a part, parts that follow each other join, and boundaries of
a text that lie in one of its parts are boundaries of the part. Lines start at boundaries.
The UTF-8 form of a text has as many bytes as the text is wide.
-/

namespace Encapsulate

namespace Text

def bytes (cs : List Char) : List UInt8 :=
  cs.flatMap String.utf8EncodeChar

theorem length_bytes (cs : List Char) : (bytes cs).length = width cs := by
  induction cs with
  | nil => rfl
  | cons c cs ih =>
    rw [bytes, List.flatMap_cons, List.length_append, String.length_utf8EncodeChar, width, ← ih]
    rfl

theorem bytes_append (as bs : List Char) : bytes (as ++ bs) = bytes as ++ bytes bs :=
  List.flatMap_append

theorem dropBytes_eq_some_iff {n : Nat} {cs rest : List Char} :
    dropBytes n cs = some rest ↔ ∃ front, cs = front ++ rest ∧ width front = n := by
  constructor
  · intro h
    induction cs generalizing n with
    | nil =>
      cases n with
      | zero => exact ⟨[], by simpa [dropBytes] using h, rfl⟩
      | succ n => simp [dropBytes] at h
    | cons c cs ih =>
      cases n with
      | zero =>
        rw [dropBytes_zero] at h
        exact ⟨[], by simp [Option.some.inj h], rfl⟩
      | succ n =>
        rw [dropBytes] at h
        split at h
        · obtain ⟨front, hcs, hwidth⟩ := ih h
          refine ⟨c :: front, by rw [hcs, List.cons_append], ?_⟩
          rw [width, hwidth]
          omega
        · simp at h
  · rintro ⟨front, rfl, rfl⟩
    induction front with
    | nil => simp [width]
    | cons c front ih =>
      have hpos := c.utf8Size_pos
      obtain ⟨n, hn⟩ : ∃ n, width (c :: front) = n + 1 := ⟨width (c :: front) - 1, by
        rw [width]
        omega⟩
      rw [hn, List.cons_append, dropBytes, ← hn, width, if_pos (Nat.le_add_right _ _),
        Nat.add_sub_cancel_left, ih]

theorem isBoundary_iff {cs : List Char} {n : Nat} :
    isBoundary cs n = true ↔ ∃ front rest, cs = front ++ rest ∧ width front = n := by
  rw [isBoundary, Option.isSome_iff_exists]
  constructor
  · rintro ⟨rest, h⟩
    obtain ⟨front, hcs, hwidth⟩ := dropBytes_eq_some_iff.1 h
    exact ⟨front, rest, hcs, hwidth⟩
  · rintro ⟨front, rest, hcs, hwidth⟩
    exact ⟨rest, dropBytes_eq_some_iff.2 ⟨front, hcs, hwidth⟩⟩

theorem isBoundary_width_le {cs : List Char} {n : Nat} (h : isBoundary cs n = true) :
    n ≤ width cs := by
  obtain ⟨front, rest, rfl, rfl⟩ := isBoundary_iff.1 h
  rw [width_append]
  exact Nat.le_add_right _ _

theorem isBoundary_zero (cs : List Char) : isBoundary cs 0 = true := by
  simp [isBoundary]

theorem width_eq_zero_iff {cs : List Char} : width cs = 0 ↔ cs = [] := by
  cases cs with
  | nil => simp [width]
  | cons c cs =>
    have hpos := c.utf8Size_pos
    simp only [width, reduceCtorEq, iff_false]
    omega

/-- Initial parts of one text that are equally wide are equal. -/
theorem append_inj_of_width {as bs cs ds : List Char} (h : as ++ bs = cs ++ ds)
    (hwidth : width as = width cs) : as = cs ∧ bs = ds := by
  rcases List.append_eq_append_iff.1 h with ⟨gap, hgap, hrest⟩ | ⟨gap, hgap, hrest⟩
  · have hsum := congrArg width hgap
    rw [width_append] at hsum
    have hnil : gap = [] := width_eq_zero_iff.1 (by omega)
    subst hnil
    exact ⟨by simpa using hgap.symm, by simpa using hrest⟩
  · have hsum := congrArg width hgap
    rw [width_append] at hsum
    have hnil : gap = [] := width_eq_zero_iff.1 (by omega)
    subst hnil
    exact ⟨by simpa using hgap, by simpa using hrest.symm⟩

theorem takeBytes_width (front rest : List Char) :
    takeBytes (width front) (front ++ rest) = front := by
  induction front with
  | nil =>
    cases rest with
    | nil => rfl
    | cons c rest =>
      have hpos := c.utf8Size_pos
      rw [List.nil_append, width, takeBytes, if_neg (by omega)]
  | cons c front ih =>
    rw [List.cons_append, width, takeBytes, if_pos (Nat.le_add_right _ _),
      Nat.add_sub_cancel_left, ih]

theorem sliceFrom_width (front rest : List Char) :
    sliceFrom (front ++ rest) (width front) = rest := by
  rw [sliceFrom, dropBytes_eq_some_iff.2 ⟨front, rfl, rfl⟩, Option.getD_some]

/-- Two boundaries cut a text into three parts. -/
theorem exists_parts {cs : List Char} {a b : Nat} (ha : isBoundary cs a = true)
    (hb : isBoundary cs b = true) (hab : a ≤ b) :
    ∃ front middle rest, cs = front ++ (middle ++ rest) ∧ width front = a ∧
      width middle = b - a := by
  obtain ⟨front, rest, hcs, hwidth⟩ := isBoundary_iff.1 ha
  obtain ⟨front', rest', hcs', hwidth'⟩ := isBoundary_iff.1 hb
  rw [hcs] at hcs'
  rcases List.append_eq_append_iff.1 hcs' with ⟨middle, hfront, hrest⟩ | ⟨middle, hfront, hrest⟩
  · refine ⟨front, middle, rest', by rw [hcs, hrest], hwidth, ?_⟩
    have hsum := congrArg width hfront
    rw [width_append] at hsum
    omega
  · -- the second boundary is not in front of the first, so the two agree
    have hsum := congrArg width hfront
    rw [width_append] at hsum
    have hmiddle : middle = [] := width_eq_zero_iff.1 (by omega)
    subst hmiddle
    exact ⟨front, [], rest, by simpa using hcs, hwidth, by simp [width]; omega⟩

/-- The text between two boundaries. -/
theorem slice_eq {front middle rest : List Char} {span : Span} (hstart : width front = span.start)
    (hstop : width middle = span.stop - span.start) :
    slice (front ++ (middle ++ rest)) span = middle := by
  have hdrop : dropBytes span.start (front ++ (middle ++ rest)) = some (middle ++ rest) :=
    dropBytes_eq_some_iff.2 ⟨front, rfl, hstart⟩
  rw [slice, sliceFrom, hdrop, Option.getD_some, ← hstop, takeBytes_width]

theorem width_slice {cs : List Char} {span : Span} (hstart : isBoundary cs span.start = true)
    (hstop : isBoundary cs span.stop = true) (hle : span.start ≤ span.stop) :
    width (slice cs span) = span.stop - span.start := by
  obtain ⟨front, middle, rest, rfl, hfront, hmiddle⟩ := exists_parts hstart hstop hle
  rw [slice_eq hfront hmiddle, hmiddle]

/-- The texts of two spans of which one starts where the other ends. -/
theorem slice_append {cs : List Char} {a b c : Nat} (ha : isBoundary cs a = true)
    (hb : isBoundary cs b = true) (hc : isBoundary cs c = true) (hab : a ≤ b) (hbc : b ≤ c) :
    slice cs ⟨a, c⟩ = slice cs ⟨a, b⟩ ++ slice cs ⟨b, c⟩ := by
  obtain ⟨front, middle, rest, rfl, hfront, hmiddle⟩ := exists_parts ha hb hab
  obtain ⟨front', middle', rest', hcs, hfront', hmiddle'⟩ := exists_parts hb hc hbc
  have hwidth : width (front ++ middle) = b := by
    rw [width_append]
    omega
  have hsame : front ++ middle = front' ∧ rest = middle' ++ rest' := by
    rw [← List.append_assoc] at hcs
    exact append_inj_of_width hcs (by rw [hwidth, hfront'])
  obtain ⟨rfl, rfl⟩ := hsame
  have hall : slice (front ++ ((middle ++ middle') ++ rest')) ⟨a, c⟩ = middle ++ middle' := by
    refine slice_eq hfront ?_
    rw [width_append, hmiddle, hmiddle']
    show b - a + (c - b) = c - a
    omega
  have hleft : slice (front ++ (middle ++ (middle' ++ rest'))) ⟨a, b⟩ = middle :=
    slice_eq hfront hmiddle
  have hright : slice ((front ++ middle) ++ (middle' ++ rest')) ⟨b, c⟩ = middle' :=
    slice_eq hfront' hmiddle'
  simp only [List.append_assoc] at hall hright
  rw [hall, hleft, hright]

/-- A boundary inside a part of a text is a boundary of the part. -/
theorem isBoundary_slice {cs : List Char} {span : Span} {n : Nat}
    (hstart : isBoundary cs span.start = true) (hstop : isBoundary cs span.stop = true)
    (hn : isBoundary cs n = true) (hle : span.start ≤ n) (hge : n ≤ span.stop) :
    isBoundary (slice cs span) (n - span.start) = true := by
  have hwidth : width (slice cs ⟨span.start, n⟩) = n - span.start := width_slice hstart hn hle
  exact isBoundary_iff.2 ⟨_, _, slice_append hstart hn hstop hle hge, hwidth⟩

theorem isBoundary_cons {c : Char} {cs : List Char} {n : Nat} :
    isBoundary (c :: cs) (c.utf8Size + n) = true ↔ isBoundary cs n = true := by
  have hpos := c.utf8Size_pos
  obtain ⟨k, hk⟩ : ∃ k, c.utf8Size + n = k + 1 := ⟨c.utf8Size + n - 1, by omega⟩
  rw [isBoundary, hk, dropBytes, ← hk, if_pos (Nat.le_add_right _ _), Nat.add_sub_cancel_left]
  rfl

/-- A boundary past the start of a text is past its first character. -/
theorem exists_isBoundary_of_cons {c : Char} {cs : List Char} {n : Nat}
    (h : isBoundary (c :: cs) n = true) (hn : 0 < n) :
    ∃ m, n = c.utf8Size + m ∧ isBoundary cs m = true := by
  obtain ⟨front, rest, hcs, hwidth⟩ := isBoundary_iff.1 h
  cases front with
  | nil =>
    rw [width] at hwidth
    omega
  | cons d front =>
    obtain ⟨rfl, rfl⟩ := List.cons.inj hcs
    exact ⟨width front, hwidth.symm, isBoundary_iff.2 ⟨front, rest, rfl, rfl⟩⟩

/-- The start of a line is the start of the text or a boundary that is passed on the way
to the offset. -/
theorem lineStartFrom_cases {cs : List Char} {n : Nat} (here line : Nat)
    (hn : isBoundary cs n = true) :
    lineStartFrom (here + n) here line cs = line ∨
      ∃ m ≤ n, lineStartFrom (here + n) here line cs = here + m ∧ isBoundary cs m = true := by
  induction cs generalizing n here line with
  | nil => exact Or.inl rfl
  | cons c cs ih =>
    rw [lineStartFrom]
    by_cases hzero : here + n ≤ here
    · rw [if_pos hzero]
      exact Or.inl rfl
    · obtain ⟨k, rfl, hk⟩ := exists_isBoundary_of_cons hn (by omega)
      rw [if_neg hzero, ← Nat.add_assoc]
      split
      · rename_i hnewline
        have hsize : c.utf8Size = 1 := by rw [hnewline]; rfl
        rw [hsize]
        refine Or.inr ?_
        rcases ih (here + 1) (here + 1) hk with hsame | ⟨m, hm, heq, hbound⟩
        · refine ⟨1, by omega, hsame, ?_⟩
          have hfirst : isBoundary (c :: cs) (c.utf8Size + 0) = true :=
            isBoundary_cons.mpr (isBoundary_zero cs)
          rwa [hsize] at hfirst
        · refine ⟨1 + m, by omega, by rw [heq]; omega, ?_⟩
          have hnext := isBoundary_cons (c := c).mpr hbound
          rwa [hsize] at hnext
      · rcases ih (here + c.utf8Size) line hk with hsame | ⟨m, hm, heq, hbound⟩
        · exact Or.inl hsame
        · exact Or.inr ⟨c.utf8Size + m, by omega, by rw [heq]; omega, isBoundary_cons.mpr hbound⟩

theorem lineStart_boundary {cs : List Char} {offset : Nat} (h : isBoundary cs offset = true) :
    lineStart cs offset ≤ offset ∧ isBoundary cs (lineStart cs offset) = true := by
  have hcases := lineStartFrom_cases 0 0 h
  rw [Nat.zero_add] at hcases
  unfold lineStart
  rcases hcases with hzero | ⟨m, hm, heq, hbound⟩
  · rw [hzero]
    exact ⟨Nat.zero_le _, isBoundary_zero cs⟩
  · rw [heq, Nat.zero_add]
    exact ⟨hm, hbound⟩

/-- A text that is empty once trimmed is blank. -/
theorem isBlank_of_trim {cs : List Char} (h : (trim cs).isEmpty = true) {c : Char} (hc : c ∈ cs) :
    isBlank c = true := by
  rw [List.isEmpty_iff, trim, trimEnd, dropEndWhile, List.reverse_eq_nil_iff,
    List.dropWhile_eq_nil_iff] at h
  have hempty : trimStart cs = [] := by
    cases hstart : trimStart cs with
    | nil => rfl
    | cons d ds =>
      have hhead := List.head?_dropWhile_not isBlank cs
      rw [← trimStart, hstart, List.head?_cons] at hhead
      have hblank := h d (by simp [hstart])
      rw [hhead] at hblank
      exact absurd hblank (by simp)
  rw [trimStart, List.dropWhile_eq_nil_iff] at hempty
  exact hempty c hc

/-- Where one span ends inside another, its last character is one of the other's. -/
theorem exists_last {cs : List Char} {a b : Span} (hastart : isBoundary cs a.start = true)
    (hastop : isBoundary cs a.stop = true) (hbstart : isBoundary cs b.start = true)
    (hbstop : isBoundary cs b.stop = true) (hfirst : a.start ≤ b.start)
    (hmiddle : b.start < a.stop) (hlast : a.stop ≤ b.stop) :
    ∃ c ∈ slice cs b, (slice cs a).getLast? = some c := by
  have ha : slice cs a = slice cs ⟨a.start, b.start⟩ ++ slice cs ⟨b.start, a.stop⟩ :=
    slice_append hastart hbstart hastop hfirst (Nat.le_of_lt hmiddle)
  have hb : slice cs b = slice cs ⟨b.start, a.stop⟩ ++ slice cs ⟨a.stop, b.stop⟩ :=
    slice_append hbstart hastop hbstop (Nat.le_of_lt hmiddle) hlast
  have hwidth : width (slice cs ⟨b.start, a.stop⟩) = a.stop - b.start :=
    width_slice hbstart hastop (Nat.le_of_lt hmiddle)
  have hne : slice cs ⟨b.start, a.stop⟩ ≠ [] := by
    intro hnil
    rw [hnil, width] at hwidth
    omega
  refine ⟨(slice cs ⟨b.start, a.stop⟩).getLast hne, ?_, ?_⟩
  · rw [hb]
    exact List.mem_append_left _ (List.getLast_mem hne)
  · rw [ha, List.getLast?_append, List.getLast?_eq_some_getLast hne, Option.some_or]

end Text

end Encapsulate
