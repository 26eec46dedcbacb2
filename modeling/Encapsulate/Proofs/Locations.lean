import Encapsulate.Proofs.Boundaries
import Encapsulate.Text.LineTable

/-!
Locations against the bytes of a text. The table of line starts is made from characters and
their widths, and an offset is looked up in it by halving; what line and column mean is said on
the bytes alone: the newline bytes in front of the offset are counted, and the column is measured
from behind the last of them. A newline byte is never part of the form of another character, so
the entries of the table are exactly the places behind the newline bytes, in order, with the
front of the text before them. That gives the location of every offset, inside a character and
past the end too, and with it the way back: a line number belongs to one line start, and offsets
and locations are ordered alike.
-/

namespace Encapsulate.Text

def newline : UInt8 := 10

def newlinesBefore (bs : List UInt8) (offset : Nat) : Nat :=
  (bs.take offset).count newline

/-- The byte at `i` is a newline, and `n` of them stand in front of it. -/
structure IsNewline (bs : List UInt8) (n i : Nat) : Prop where
  byte : bs[i]? = some newline
  count : newlinesBefore bs i = n

/-- The front of a text, or the place behind a newline byte. -/
def OpensLine (bs : List UInt8) (start : Nat) : Prop :=
  start = 0 ∨ ∃ i, start = i + 1 ∧ bs[i]? = some newline

/-- The line with `n` newline bytes in front of it starts at `start`. -/
structure StartsLine (bs : List UInt8) (n start : Nat) : Prop where
  opens : OpensLine bs start
  count : newlinesBefore bs start = n

/-- The line that holds `offset` starts at `start`: behind the last newline byte in front of the
offset, or at the front of the text if there is none. -/
structure IsLineStart (bs : List UInt8) (offset start : Nat) : Prop where
  opens : OpensLine bs start
  le : start ≤ offset
  last : ∀ i, start ≤ i → i < offset → bs[i]? ≠ some newline

def Location.Before (l m : Location) : Prop :=
  l.line < m.line ∨ l.line = m.line ∧ l.column < m.column

/-! ## Newline bytes -/

theorem mod_of_newline_eq {n : Nat} (h : newline = UInt8.ofNat n) : n % 256 = 10 := by
  have hnat := congrArg UInt8.toNat h
  rw [UInt8.toNat_ofNat'] at hnat
  exact hnat.symm

/-- A newline byte is a newline: the bytes of the longer forms are all at least 128. -/
theorem eq_of_newline_mem {c : Char} (h : newline ∈ String.utf8EncodeChar c) : c = '\n' := by
  have hlong {v : Nat} (hv : newline = UInt8.ofNat v) (hrange : 128 ≤ v ∧ v < 256) : False := by
    have hmod := mod_of_newline_eq hv
    omega
  have hcode : c.val.toNat = 10 := by
    simp only [String.utf8EncodeChar] at h
    split at h
    · have hmod := mod_of_newline_eq (List.mem_singleton.mp h)
      omega
    split at h
    · simp only [List.mem_cons, List.not_mem_nil, or_false] at h
      rcases h with h | h <;> exact (hlong h (by omega)).elim
    split at h
    · simp only [List.mem_cons, List.not_mem_nil, or_false] at h
      rcases h with h | h | h <;> exact (hlong h (by omega)).elim
    · simp only [List.mem_cons, List.not_mem_nil, or_false] at h
      rcases h with h | h | h | h <;> exact (hlong h (by omega)).elim
  exact Char.toNat_inj.mp hcode

theorem newlinesBefore_zero (bs : List UInt8) : newlinesBefore bs 0 = 0 := rfl

theorem newlinesBefore_mono (bs : List UInt8) {a b : Nat} (h : a ≤ b) :
    newlinesBefore bs a ≤ newlinesBefore bs b :=
  (List.take_sublist_take_left h).count_le newline

theorem newlinesBefore_le (bs : List UInt8) (offset : Nat) : newlinesBefore bs offset ≤ offset :=
  Nat.le_trans List.count_le_length (List.length_take_le offset bs)

section Counting

variable {bs : List UInt8}

theorem newlinesBefore_behind {i : Nat} (h : bs[i]? = some newline) :
    newlinesBefore bs (i + 1) = newlinesBefore bs i + 1 := by
  simp only [newlinesBefore, List.take_add_one, h, Option.toList_some, List.count_append,
    List.count_singleton_self]

theorem newlinesBefore_step {i : Nat} (h : bs[i]? ≠ some newline) :
    newlinesBefore bs (i + 1) = newlinesBefore bs i := by
  simp only [newlinesBefore, List.take_add_one, List.count_append]
  cases hbyte : bs[i]? with
  | none => rfl
  | some b =>
    have hne : b ≠ newline := fun heq => h (heq ▸ hbyte)
    simp only [Option.toList_some, List.count_cons_of_ne hne, List.count_nil, Nat.add_zero]

/-- The count changes at newline bytes only. -/
theorem newlinesBefore_eq {a b : Nat} (hab : a ≤ b)
    (h : ∀ i, a ≤ i → i < b → bs[i]? ≠ some newline) :
    newlinesBefore bs b = newlinesBefore bs a := by
  induction hab with
  | refl => rfl
  | @step b hab ih =>
    rw [newlinesBefore_step (h b hab (Nat.lt_succ_self b))]
    apply ih
    intro i hai hib
    exact h i hai (by omega)

/-- A line start behind another one has more newline bytes in front of it. -/
theorem OpensLine.newlinesBefore_lt {s u : Nat} (h : OpensLine bs u) (hlt : s < u) :
    newlinesBefore bs s < newlinesBefore bs u := by
  rcases h with hzero | ⟨i, hi, hbyte⟩
  · omega
  · have hmono := newlinesBefore_mono bs (show s ≤ i by omega)
    have hbehind := newlinesBefore_behind hbyte
    rw [hi]
    omega

theorem StartsLine.unique {n s u : Nat} (hs : StartsLine bs n s) (hu : StartsLine bs n u) :
    s = u := by
  have hscount := hs.count
  have hucount := hu.count
  rcases Nat.lt_trichotomy s u with hlt | heq | hgt
  · have hless := hu.opens.newlinesBefore_lt hlt
    omega
  · exact heq
  · have hless := hs.opens.newlinesBefore_lt hgt
    omega

end Counting

/-! ## The table of line starts -/

namespace IsNewline

variable {bs : List UInt8} {n i : Nat}

theorem cons_zero_iff : IsNewline (newline :: bs) 0 i ↔ i = 0 := by
  constructor
  · intro h
    have hcount := h.count
    apply Nat.eq_zero_of_not_pos
    intro hpos
    have hmono := newlinesBefore_mono (newline :: bs) (show 0 + 1 ≤ i from hpos)
    have hfirst : newlinesBefore (newline :: bs) (0 + 1) = 0 + 1 := newlinesBefore_behind rfl
    omega
  · intro h
    subst h
    exact ⟨rfl, rfl⟩

theorem cons_succ_iff :
    IsNewline (newline :: bs) (n + 1) i ↔ ∃ j, i = j + 1 ∧ IsNewline bs n j := by
  have hcount (j : Nat) :
      newlinesBefore (newline :: bs) (j + 1) = newlinesBefore bs j + 1 := by
    simp only [newlinesBefore, List.take_succ_cons, List.count_cons_self]
  constructor
  · intro h
    cases i with
    | zero => exact absurd h.count (Nat.succ_ne_zero n).symm
    | succ j => exact ⟨j, rfl, h.byte, Nat.succ.inj ((hcount j).symm.trans h.count)⟩
  · intro h
    obtain ⟨j, rfl, hj⟩ := h
    exact ⟨hj.byte, (hcount j).trans (congrArg Nat.succ hj.count)⟩

/-- Other bytes in front of a text move its newlines and leave their order. -/
theorem append_iff {front : List UInt8} (hfront : newline ∉ front) :
    IsNewline (front ++ bs) n i ↔ ∃ j, i = front.length + j ∧ IsNewline bs n j := by
  have hbyte (j : Nat) : (front ++ bs)[front.length + j]? = bs[j]? := by
    rw [List.getElem?_append_right (by omega), Nat.add_sub_cancel_left]
  have hcount (j : Nat) :
      newlinesBefore (front ++ bs) (front.length + j) = newlinesBefore bs j := by
    simp only [newlinesBefore, List.take_length_add_append, List.count_append,
      List.count_eq_zero_of_not_mem hfront, Nat.zero_add]
  constructor
  · intro h
    have hle : front.length ≤ i := by
      apply Nat.le_of_not_lt
      intro hlt
      have hmem := h.byte
      rw [List.getElem?_append_left hlt] at hmem
      exact hfront (List.mem_of_getElem? hmem)
    obtain ⟨j, rfl⟩ := Nat.exists_eq_add_of_le hle
    exact ⟨j, rfl, (hbyte j).symm.trans h.byte, (hcount j).symm.trans h.count⟩
  · intro h
    obtain ⟨j, rfl, hj⟩ := h
    exact ⟨(hbyte j).trans hj.byte, (hcount j).trans hj.count⟩

end IsNewline

theorem getElem?_startsFrom_iff {cs : List Char} {here n start : Nat} :
    (startsFrom here cs)[n]? = some start ↔
      ∃ i, start = here + i + 1 ∧ IsNewline (bytes cs) n i := by
  induction cs generalizing here n with
  | nil =>
    constructor
    · intro h
      cases h
    · intro h
      obtain ⟨i, -, hi⟩ := h
      cases hi.byte
  | cons c cs ih =>
    have hbytes : bytes (c :: cs) = String.utf8EncodeChar c ++ bytes cs := List.flatMap_cons
    by_cases hc : c = '\n'
    · subst hc
      have hnewline : bytes ('\n' :: cs) = newline :: bytes cs := hbytes
      rw [startsFrom, if_pos rfl, hnewline]
      cases n with
      | zero =>
        simp only [List.getElem?_cons_zero, Option.some.injEq, IsNewline.cons_zero_iff]
        constructor
        · intro h
          exact ⟨0, h.symm, rfl⟩
        · intro h
          obtain ⟨i, hstart, rfl⟩ := h
          exact hstart.symm
      | succ n =>
        simp only [List.getElem?_cons_succ, ih, IsNewline.cons_succ_iff]
        constructor
        · intro h
          obtain ⟨j, hstart, hj⟩ := h
          exact ⟨j + 1, by omega, j, rfl, hj⟩
        · intro h
          obtain ⟨i, hstart, j, hi, hj⟩ := h
          exact ⟨j, by omega, hj⟩
    · have hother : newline ∉ String.utf8EncodeChar c := fun h => hc (eq_of_newline_mem h)
      simp only [startsFrom, if_neg hc, ih, hbytes, IsNewline.append_iff hother,
        String.length_utf8EncodeChar]
      constructor
      · intro h
        obtain ⟨j, hstart, hj⟩ := h
        exact ⟨c.utf8Size + j, by omega, j, rfl, hj⟩
      · intro h
        obtain ⟨i, hstart, j, hi, hj⟩ := h
        exact ⟨j, by omega, hj⟩

/-- The table lists the line starts in the order of their lines. -/
theorem getElem?_starts_iff {cs : List Char} {n start : Nat} :
    (LineTable.ofText cs).starts[n]? = some start ↔ StartsLine (bytes cs) n start := by
  have hstarts : (LineTable.ofText cs).starts[n]? = (0 :: startsFrom 0 cs)[n]? :=
    List.getElem?_toArray
  rw [hstarts]
  cases n with
  | zero =>
    have hfront : StartsLine (bytes cs) 0 0 := ⟨Or.inl rfl, rfl⟩
    simp only [List.getElem?_cons_zero, Option.some.injEq]
    constructor
    · intro h
      exact h ▸ hfront
    · intro h
      exact hfront.unique h
  | succ n =>
    simp only [List.getElem?_cons_succ, getElem?_startsFrom_iff, Nat.zero_add]
    constructor
    · intro h
      obtain ⟨i, rfl, hi⟩ := h
      refine ⟨Or.inr ⟨i, rfl, hi.byte⟩, ?_⟩
      rw [newlinesBefore_behind hi.byte, hi.count]
    · intro h
      have hcount := h.count
      rcases h.opens with hzero | ⟨i, hi, hbyte⟩
      · rw [hzero, newlinesBefore_zero] at hcount
        omega
      · have hbehind := newlinesBefore_behind hbyte
        rw [hi] at hcount
        exact ⟨i, hi, hbyte, by omega⟩

/-! ## Locations -/

/-- The entry that the search stops at is the start of the line of the offset. -/
theorem isLineStart_of_isLast {cs : List Char} {offset line start : Nat}
    (h : (LineTable.ofText cs).IsLast offset line start) :
    IsLineStart (bytes cs) offset start := by
  have hstart := getElem?_starts_iff.mp h.entry
  refine ⟨hstart.opens, h.le, ?_⟩
  intro i hle hlt hbyte
  -- behind this newline byte a later line would start, and not past the offset either
  have hlater : StartsLine (bytes cs) (newlinesBefore (bytes cs) (i + 1)) (i + 1) :=
    ⟨Or.inr ⟨i, rfl, hbyte⟩, rfl⟩
  have hlast := h.last (getElem?_starts_iff.mpr hlater) hlt
  have hless := hlater.opens.newlinesBefore_lt (show start < i + 1 by omega)
  have hcount := hstart.count
  omega

/-- The location of an offset in terms of the bytes of the text. -/
theorem exists_location (cs : List Char) (offset : Nat) :
    ∃ start, IsLineStart (bytes cs) offset start ∧
      StartsLine (bytes cs) (newlinesBefore (bytes cs) offset) start ∧
      location cs offset = ⟨newlinesBefore (bytes cs) offset + 1, offset - start + 1⟩ := by
  obtain ⟨line, start, hlast, -⟩ := (LineTable.ofText cs).exists_isLast offset
  have hstart := isLineStart_of_isLast hlast
  have hline := getElem?_starts_iff.mp hlast.entry
  have hcount : newlinesBefore (bytes cs) offset = line :=
    (newlinesBefore_eq hstart.le hstart.last).trans hline.count
  have hlocate := (LineTable.ofText cs).locate?_eq hlast
  rw [locate?_ofText] at hlocate
  rw [hcount]
  exact ⟨start, hstart, hline, Option.some.inj hlocate⟩

theorem location_before {cs : List Char} {a b : Nat} (h : a < b) :
    (location cs a).Before (location cs b) := by
  obtain ⟨start, hstart, hline, ha⟩ := exists_location cs a
  obtain ⟨start', hstart', hline', hb⟩ := exists_location cs b
  have hmono := newlinesBefore_mono (bytes cs) (Nat.le_of_lt h)
  rw [ha, hb]
  by_cases heq : newlinesBefore (bytes cs) a = newlinesBefore (bytes cs) b
  · rw [heq] at hline
    have hsame := hline.unique hline'
    have hle := hstart.le
    refine Or.inr ⟨congrArg Nat.succ heq, ?_⟩
    show a - start + 1 < b - start' + 1
    omega
  · refine Or.inl ?_
    show newlinesBefore (bytes cs) a + 1 < newlinesBefore (bytes cs) b + 1
    omega

theorem Location.Before.not_before {l m : Location} (h : l.Before m) : ¬ m.Before l := by
  intro hback
  simp only [Location.Before] at h hback
  omega

theorem location_before_iff {cs : List Char} {a b : Nat} :
    (location cs a).Before (location cs b) ↔ a < b := by
  constructor
  · intro h
    rcases Nat.lt_trichotomy a b with hlt | heq | hgt
    · exact hlt
    · subst heq
      exact absurd h h.not_before
    · exact absurd h (location_before hgt).not_before
  · exact location_before

/-- Every offset has a location. The line counts the newline bytes in front of the offset, and the
column the bytes from behind the last of them, both from one. The line number has one line start,
which the column leads back from to the offset, and locations are ordered as their offsets are.
Neither number exceeds the offset by more than one. -/
theorem location_exact (cs : List Char) (offset : Nat) :
    ∃ start, IsLineStart (bytes cs) offset start ∧
      (LineTable.ofText cs).locate? offset = some (location cs offset) ∧
      (location cs offset).line = 1 + newlinesBefore (bytes cs) offset ∧
      (location cs offset).column = 1 + (offset - start) ∧
      ((location cs offset).line ≤ offset + 1 ∧ (location cs offset).column ≤ offset + 1) ∧
      (∀ s, StartsLine (bytes cs) ((location cs offset).line - 1) s ↔ s = start) ∧
      start + ((location cs offset).column - 1) = offset ∧
      ∀ other, offset < other ↔ (location cs offset).Before (location cs other) := by
  obtain ⟨start, hstart, hline, hlocation⟩ := exists_location cs offset
  have hbound := newlinesBefore_le (bytes cs) offset
  have hle := hstart.le
  have honly (s : Nat) :
      StartsLine (bytes cs) (newlinesBefore (bytes cs) offset) s ↔ s = start :=
    ⟨fun hs => hs.unique hline, fun hs => hs ▸ hline⟩
  refine ⟨start, hstart, locate?_ofText cs offset, ?_, ?_, ?_, ?_, ?_, ?_⟩
  · rw [hlocation]
    exact Nat.add_comm _ _
  · rw [hlocation]
    exact Nat.add_comm _ _
  · rw [hlocation]
    exact ⟨Nat.succ_le_succ hbound, Nat.succ_le_succ (Nat.sub_le offset start)⟩
  · rw [hlocation]
    exact honly
  · rw [hlocation]
    show start + (offset - start + 1 - 1) = offset
    omega
  · intro other
    exact location_before_iff.symm

example : location "é\n\nx".toList 9 = ⟨3, 6⟩ := by cbv

end Encapsulate.Text
