import Encapsulate.Text.Offset

/-!
Line and column of an offset. The offsets at which the lines of a text start are listed in
increasing order, and the line of an offset is found by halving the list: either a line starts
at the offset, or the offset would have to be put in behind the start of its line. Offsets past
the end belong to the last line.

Every subtraction on the way is checked, and `isSome_locate?` shows that none is refused: the
last entry that is not past the offset is found, since the first entry is zero.
-/

namespace Encapsulate.Text

/-- Line and column, both counted from one; the column counts bytes. -/
structure Location where
  line : Nat
  column : Nat
deriving DecidableEq, Repr

def startsFrom (here : Nat) : List Char → List Nat
  | [] => []
  | c :: cs =>
    if c = '\n' then (here + 1) :: startsFrom (here + 1) cs
    else startsFrom (here + c.utf8Size) cs

theorem lt_of_mem_startsFrom {cs : List Char} {here start : Nat}
    (h : start ∈ startsFrom here cs) : here < start := by
  induction cs generalizing here with
  | nil => cases h
  | cons c cs ih =>
    simp only [startsFrom] at h
    split at h
    · cases h with
      | head => omega
      | tail _ hrest =>
        have hlt := ih hrest
        omega
    · have hlt := ih h
      omega

theorem increasing_startsFrom (cs : List Char) (here : Nat) :
    (startsFrom here cs).Pairwise (· < ·) := by
  induction cs generalizing here with
  | nil => exact .nil
  | cons c cs ih =>
    simp only [startsFrom]
    split
    · exact .cons (fun _ hstart => lt_of_mem_startsFrom hstart) (ih (here + 1))
    · exact ih (here + c.utf8Size)

/-- The offsets at which the lines of a text start. -/
structure LineTable where
  starts : Array Nat
  first : starts[0]? = some 0
  increasing : starts.toList.Pairwise (· < ·)

namespace LineTable

def ofText (cs : List Char) : LineTable where
  starts := (0 :: startsFrom 0 cs).toArray
  first := rfl
  increasing := .cons (fun _ hstart => lt_of_mem_startsFrom hstart) (increasing_startsFrom cs 0)

/-- Where a table holds an offset, or where the offset would have to be put in. -/
inductive Place where
  | found (line : Nat)
  | absent (next : Nat)
deriving DecidableEq, Repr

/-- Halves the `size` entries from `base` on until one is left. The upper half is kept unless it
begins past the offset. -/
def narrow (starts : Array Nat) (offset base size : Nat) (h : base + size ≤ starts.size) : Nat :=
  if hsize : size ≤ 1 then base
  else if offset < starts[base + size / 2] then
    narrow starts offset base (size - size / 2) (by omega)
  else
    narrow starts offset (base + size / 2) (size - size / 2) (by omega)
termination_by size

def search (t : LineTable) (offset : Nat) : Place :=
  let line := narrow t.starts offset 0 t.starts.size (Nat.le_of_eq (Nat.zero_add _))
  if h : line < t.starts.size then
    if t.starts[line] = offset then .found line
    else if t.starts[line] < offset then .absent (line + 1)
    else .absent line
  else .absent 0

/-- The line of an offset, counted from zero: the one that starts there, or else the one in
front of the place where the offset would be put in. -/
def line? (t : LineTable) (offset : Nat) : Option Nat :=
  match t.search offset with
  | .found line => some line
  | .absent 0 => none
  | .absent (line + 1) => some line

/-- Refuses an offset in front of the first line and one in front of its own line. -/
def locate? (t : LineTable) (offset : Nat) : Option Location := do
  let line ← t.line? offset
  let start ← t.starts[line]?
  if start ≤ offset then some ⟨line + 1, offset - start + 1⟩ else none

/-- The last entry that is not past the offset. -/
structure IsLast (t : LineTable) (offset line start : Nat) : Prop where
  entry : t.starts[line]? = some start
  le : start ≤ offset
  last : ∀ {k s : Nat}, t.starts[k]? = some s → s ≤ offset → k ≤ line

theorem le_of_le (t : LineTable) {k l s u : Nat} (hk : t.starts[k]? = some s)
    (hl : t.starts[l]? = some u) (hkl : k ≤ l) : s ≤ u := by
  obtain ⟨hksize, rfl⟩ := Array.getElem?_eq_some_iff.mp hk
  obtain ⟨hlsize, rfl⟩ := Array.getElem?_eq_some_iff.mp hl
  by_cases heq : k = l
  · subst heq
    exact Nat.le_refl _
  · exact Nat.le_of_lt
      (List.pairwise_iff_getElem.mp t.increasing k l hksize hlsize (by omega))

/-- What halving keeps: the entry at the base is not past the offset, and the entries behind the
part that is left are. -/
theorem isLast_narrow (t : LineTable) {offset base size : Nat} (h : base + size ≤ t.starts.size)
    (hsize : 0 < size) (hbase : ∀ s, t.starts[base]? = some s → s ≤ offset)
    (hbehind : ∀ k s, t.starts[k]? = some s → s ≤ offset → k < base + size) :
    ∃ start, t.IsLast offset (narrow t.starts offset base size h) start := by
  fun_induction narrow t.starts offset base size h with
  | case1 base size h hone =>
    have hentry := Array.getElem?_eq_getElem (show base < t.starts.size by omega)
    refine ⟨t.starts[base], hentry, hbase _ hentry, ?_⟩
    intro k s hk hs
    have hlast := hbehind k s hk hs
    omega
  | case2 base size h hmany hpast ih =>
    apply ih (by omega) hbase
    intro k s hk hs
    have hmiddle := Array.getElem?_eq_getElem (show base + size / 2 < t.starts.size by omega)
    have hlt : k < base + size / 2 := by
      apply Nat.lt_of_not_le
      intro hle
      have hmono := t.le_of_le hmiddle hk hle
      omega
    omega
  | case3 base size h hmany hnot ih =>
    have hmiddle := Array.getElem?_eq_getElem (show base + size / 2 < t.starts.size by omega)
    apply ih (by omega)
    · intro s hs
      rw [hmiddle] at hs
      cases hs
      omega
    · intro k s hk hs
      have hlast := hbehind k s hk hs
      omega

/-- The search ends at the last entry that is not past the offset: on it when a line starts at
the offset, and just behind it otherwise. -/
theorem exists_isLast (t : LineTable) (offset : Nat) :
    ∃ line start, t.IsLast offset line start ∧
      t.search offset = if start = offset then .found line else .absent (line + 1) := by
  have hfirst : ∀ s, t.starts[0]? = some s → s ≤ offset := by
    intro s hs
    rw [t.first] at hs
    cases hs
    exact Nat.zero_le offset
  have hsize : 0 < t.starts.size := (Array.getElem?_eq_some_iff.mp t.first).1
  have hbehind : ∀ k s, t.starts[k]? = some s → s ≤ offset → k < 0 + t.starts.size := by
    intro k s hk _
    have hlt := (Array.getElem?_eq_some_iff.mp hk).1
    omega
  obtain ⟨start, hlast⟩ := t.isLast_narrow (by omega) hsize hfirst hbehind
  obtain ⟨hline, hstart⟩ := Array.getElem?_eq_some_iff.mp hlast.entry
  refine ⟨_, start, hlast, ?_⟩
  simp only [search, dif_pos hline, hstart]
  by_cases heq : start = offset
  · simp only [if_pos heq]
  · have hle := hlast.le
    simp only [if_neg heq, if_pos (show start < offset by omega)]

theorem line?_eq (t : LineTable) {offset line start : Nat} (h : t.IsLast offset line start) :
    t.line? offset = some line := by
  obtain ⟨line', start', hlast, hsearch⟩ := t.exists_isLast offset
  have heq : line' = line :=
    Nat.le_antisymm (h.last hlast.entry hlast.le) (hlast.last h.entry h.le)
  subst heq
  simp only [line?, hsearch]
  by_cases hstart : start' = offset
  · simp only [if_pos hstart]
  · simp only [if_neg hstart]

theorem locate?_eq (t : LineTable) {offset line start : Nat} (h : t.IsLast offset line start) :
    t.locate? offset = some ⟨line + 1, offset - start + 1⟩ := by
  simp only [locate?, t.line?_eq h, h.entry, Option.bind_eq_bind, Option.bind_some, if_pos h.le]

theorem isSome_locate? (t : LineTable) (offset : Nat) : (t.locate? offset).isSome = true := by
  obtain ⟨line, start, hlast, -⟩ := t.exists_isLast offset
  rw [t.locate?_eq hlast]
  rfl

end LineTable

def location (cs : List Char) (offset : Nat) : Location :=
  ((LineTable.ofText cs).locate? offset).get ((LineTable.ofText cs).isSome_locate? offset)

theorem locate?_ofText (cs : List Char) (offset : Nat) :
    (LineTable.ofText cs).locate? offset = some (location cs offset) :=
  (Option.some_get _).symm

end Encapsulate.Text
