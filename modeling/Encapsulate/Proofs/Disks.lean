import Encapsulate.Disk.Basic
import Mathlib.Data.List.Basic

/-!
Reading and writing through paths. A path names a place on a disk when its last segment
is a proper name and the segments in front of it lead to a directory, whether or not
something is there. Reading and writing a file are looking up and setting the entry at
the place that the path names, and the place stays the same as long as no directory is
lost.
-/

namespace Encapsulate

theorem except_bind_eq_ok {ε α β : Type} {x : Except ε α} {f : α → Except ε β} {b : β} :
    x.bind f = .ok b ↔ ∃ a, x = .ok a ∧ f a = .ok b := by
  cases x <;> simp [Except.bind]

namespace Path

theorem segmentsOf_cons_slash (cs : List Char) : segmentsOf ('/' :: cs) = "" :: segmentsOf cs := by
  simp [segmentsOf, splitSlashes]

theorem segmentsOf_cons {c : Char} (hc : c ≠ '/') (cs : List Char) :
    ∃ s later, segmentsOf cs = String.ofList s :: later ∧
      segmentsOf (c :: cs) = String.ofList (c :: s) :: later :=
  ⟨(splitSlashes cs).1, (splitSlashes cs).2, rfl, by simp [segmentsOf, splitSlashes, hc]⟩

/-- A slash ends a segment. -/
theorem segmentsOf_append_slash (as bs : List Char) :
    segmentsOf (as ++ '/' :: bs) = segmentsOf as ++ segmentsOf bs := by
  induction as with
  | nil => simp [segmentsOf, splitSlashes]
  | cons c as ih =>
    by_cases hc : c = '/'
    · rw [hc, List.cons_append, segmentsOf_cons_slash, segmentsOf_cons_slash, ih]
      rfl
    · obtain ⟨s, later, hs, hcons⟩ := segmentsOf_cons hc as
      obtain ⟨s', later', hs', hcons'⟩ := segmentsOf_cons hc (as ++ '/' :: bs)
      rw [hs', hs] at ih
      obtain ⟨hhead, htail⟩ := List.cons.inj ih
      rw [List.cons_append, hcons', hcons, String.ofList_injective hhead, htail]
      rfl

theorem segmentsOf_eq_singleton {cs : List Char} (h : '/' ∉ cs) :
    segmentsOf cs = [String.ofList cs] := by
  induction cs with
  | nil => rfl
  | cons c cs ih =>
    rw [List.mem_cons, not_or] at h
    obtain ⟨s, later, hs, hcons⟩ := segmentsOf_cons (Ne.symm h.1) cs
    rw [ih h.2] at hs
    obtain ⟨hhead, htail⟩ := List.cons.inj hs
    rw [hcons, ← htail, ← String.ofList_injective hhead]

/-- What stands behind the last slash, if there is one. -/
theorem exists_last_slash (cs : List Char) :
    '/' ∉ cs ∨ ∃ as bs, cs = as ++ '/' :: bs ∧ '/' ∉ bs := by
  induction cs with
  | nil => exact Or.inl (by simp)
  | cons c cs ih =>
    rcases ih with hcs | ⟨as, bs, rfl, hbs⟩
    · by_cases hc : c = '/'
      · exact Or.inr ⟨[], cs, by rw [hc]; rfl, hcs⟩
      · exact Or.inl (by simp [hcs, Ne.symm hc])
    · exact Or.inr ⟨c :: as, bs, rfl, hbs⟩

/-- Without a slash, a text is added to the last segment. -/
theorem exists_segmentsOf_append (cs text : List Char) (htext : '/' ∉ text) :
    ∃ init last, segmentsOf cs = init ++ [String.ofList last] ∧
      segmentsOf (cs ++ text) = init ++ [String.ofList (last ++ text)] := by
  rcases exists_last_slash cs with hcs | ⟨as, bs, rfl, hbs⟩
  · exact ⟨[], cs, segmentsOf_eq_singleton hcs, segmentsOf_eq_singleton (by simp [hcs, htext])⟩
  · refine ⟨segmentsOf as, bs, ?_, ?_⟩
    · rw [segmentsOf_append_slash, segmentsOf_eq_singleton hbs]
    · have hlast : '/' ∉ bs ++ text := by simp [hbs, htext]
      rw [List.append_assoc, List.cons_append, segmentsOf_append_slash,
        segmentsOf_eq_singleton hlast]

theorem exists_last_segment (path : String) :
    ∃ name, (segments path).getLast? = some name := by
  rw [segments, segmentsOf, List.getLast?_cons]
  exact ⟨_, rfl⟩

theorem segments_eq {path name : String} (h : (segments path).getLast? = some name) :
    segments path = (segments path).dropLast ++ [name] :=
  (List.dropLast_append_getLast? name h).symm

end Path

namespace Disk

/-! Entries -/

theorem get?_given {loc : Location} (h : Location.isGiven loc = true) (disk : Disk) :
    disk.get? loc = some .directory := by
  simp [get?, h]

theorem isGiven_eq_false {disk : Disk} {loc : Location} (h : disk.get? loc ≠ some .directory) :
    Location.isGiven loc = false := by
  rw [← Bool.not_eq_true]
  exact fun hgiven => h (get?_given hgiven disk)

theorem get?_put_self {loc : Location} (h : Location.isGiven loc = false) (disk : Disk)
    (entry : Entry) : (disk.put loc entry).get? loc = some entry := by
  simp [get?, put, h]

theorem get?_put_of_ne {l loc : Location} (h : l ≠ loc) (disk : Disk) (entry : Entry) :
    (disk.put loc entry).get? l = disk.get? l := by
  have hne : (l == loc) = false := by simpa using h
  have hfilter : ∀ entries : List (Location × Entry),
      (entries.filter (·.1 != loc)).lookup l = entries.lookup l := by
    intro entries
    induction entries with
    | nil => rfl
    | cons e entries ih =>
      obtain ⟨k, e⟩ := e
      by_cases hk : k = loc
      · simp [hk, ih, hne, List.lookup_cons]
      · simp [hk, ih, List.lookup_cons]
  simp [get?, put, hfilter, hne, List.lookup_cons]

def KeepsDirectories (a b : Disk) : Prop :=
  ∀ loc, a.get? loc = some .directory → b.get? loc = some .directory

def SameDirectories (a b : Disk) : Prop :=
  ∀ loc, a.get? loc = some .directory ↔ b.get? loc = some .directory

theorem SameDirectories.trans {a b c : Disk} (hab : SameDirectories a b)
    (hbc : SameDirectories b c) : SameDirectories a c :=
  fun loc => (hab loc).trans (hbc loc)

/-- Setting the entry of a file loses no directory and makes none. -/
theorem sameDirectories_put {disk : Disk} {loc : Location}
    (h : disk.get? loc ≠ some .directory) (content : ByteArray) :
    SameDirectories disk (disk.put loc (.file content)) := by
  intro l
  by_cases hl : l = loc
  · subst hl
    simp [get?_put_self (isGiven_eq_false h), h]
  · rw [get?_put_of_ne hl]

/-! Places -/

/-- A segment that is the name of an entry. -/
structure IsName (s : String) : Prop where
  not_void : Path.isVoid s = false
  not_up : s ≠ ".."
  short : isTooLongName s = false

/-- Where one segment leads from a directory. -/
inductive Leads (disk : Disk) (loc : Location) (s : String) : Location → Prop
  | stay (hs : Path.isVoid s = true) : Leads disk loc s loc
  | up (hs : s = "..") : Leads disk loc s (Location.up loc)
  | down (hs : IsName s) (hnext : (disk.get? (loc ++ [s])).isSome = true) :
      Leads disk loc s (loc ++ [s])

theorem walk_cons_eq_ok_iff {disk : Disk} {loc dir : Location} {s : String}
    {rest : List String} :
    disk.walk loc (s :: rest) = .ok dir ↔ disk.get? loc = some .directory ∧
      ∃ next, Leads disk loc s next ∧ disk.walk next rest = .ok dir := by
  rw [walk]
  constructor
  · intro h
    split at h
    · rename_i hloc
      refine ⟨hloc, ?_⟩
      split at h
      · rename_i hs
        exact ⟨loc, .stay hs, h⟩
      · rename_i hvoid
        split at h
        · rename_i hs
          exact ⟨_, .up (by simpa using hs), h⟩
        · rename_i hup
          split at h
          · exact absurd h (by simp)
          · rename_i hshort
            split at h
            · rename_i hnext
              refine ⟨_, .down ⟨by simpa using hvoid, by simpa using hup, by simpa using hshort⟩
                hnext, h⟩
            · exact absurd h (by simp)
    · exact absurd h (by simp)
    · exact absurd h (by simp)
  · rintro ⟨hloc, next, hnext, hrest⟩
    rw [hloc]
    cases hnext with
    | stay hs => simp [hs, hrest]
    | up hs =>
      subst hs
      simpa [Path.isVoid] using hrest
    | down hs hnext => simp [hs.not_void, hs.not_up, hs.short, hnext, hrest]

theorem walk_append_eq_ok_iff {disk : Disk} {loc dir : Location} {as bs : List String} :
    disk.walk loc (as ++ bs) = .ok dir ↔
      ∃ l, disk.walk loc as = .ok l ∧ disk.walk l bs = .ok dir := by
  induction as generalizing loc with
  | nil => simp [walk]
  | cons s as ih =>
    simp only [List.cons_append, walk_cons_eq_ok_iff, ih]
    constructor
    · rintro ⟨hloc, next, hnext, l, has, hbs⟩
      exact ⟨l, ⟨hloc, next, hnext, has⟩, hbs⟩
    · rintro ⟨l, ⟨hloc, next, hnext, has⟩, hbs⟩
      exact ⟨hloc, next, hnext, l, has, hbs⟩

/-- A way that ends in a directory starts in one. -/
theorem directory_of_walk {disk : Disk} {loc dir : Location} {segments : List String}
    (h : disk.walk loc segments = .ok dir) (hdir : disk.get? dir = some .directory) :
    disk.get? loc = some .directory := by
  cases segments with
  | nil =>
    rw [walk, Except.ok.injEq] at h
    rw [h, hdir]
  | cons s rest => exact (walk_cons_eq_ok_iff.1 h).1

theorem walk_of_keepsDirectories {a b : Disk} (hkeep : KeepsDirectories a b)
    {loc dir : Location} {segments : List String} (h : a.walk loc segments = .ok dir)
    (hdir : a.get? dir = some .directory) : b.walk loc segments = .ok dir := by
  induction segments generalizing loc with
  | nil => exact h
  | cons s rest ih =>
    obtain ⟨hloc, next, hnext, hrest⟩ := walk_cons_eq_ok_iff.1 h
    refine walk_cons_eq_ok_iff.2 ⟨hkeep loc hloc, next, ?_, ih hrest⟩
    cases hnext with
    | stay hs => exact .stay hs
    | up hs => exact .up hs
    | down hs _ => exact .down hs (by rw [hkeep _ (directory_of_walk hrest hdir)]; rfl)

def Rooted (disk : Disk) (loc : Location) : Prop :=
  ∀ outer inner, loc = outer ++ inner → inner ≠ [] → disk.get? outer = some .directory

theorem rooted_base (disk : Disk) (path : String) : Rooted disk (Location.base path) := by
  intro outer inner h hinner
  have houter : outer = [] := by
    unfold Location.base at h
    split at h
    · rcases List.append_eq_singleton_iff.1 h.symm with ⟨h, -⟩ | ⟨-, h⟩
      · exact h
      · exact absurd h hinner
    · exact (List.append_eq_nil_iff.1 h.symm).1
  exact get?_given (by simp [houter, Location.isGiven]) disk

theorem Rooted.up {disk : Disk} {loc : Location} (h : Rooted disk loc) :
    Rooted disk (Location.up loc) ∧
      (disk.get? loc = some .directory → disk.get? (Location.up loc) = some .directory) := by
  unfold Location.up
  split
  · exact ⟨h, id⟩
  · split
    · rename_i hall
      have hgiven : ∀ l : Location, l.all (· == "..") = true →
          disk.get? l = some .directory :=
        fun l hl => get?_given (by simp [Location.isGiven, hl]) disk
      refine ⟨?_, fun _ => hgiven _ (by simpa using hall)⟩
      intro outer inner heq _
      refine hgiven outer ?_
      have hboth : (outer ++ inner).all (· == "..") = true := by
        rw [← heq]
        simpa using hall
      rw [List.all_append, Bool.and_eq_true] at hboth
      exact hboth.1
    · rename_i hall
      have hne : loc ≠ [] := fun hnil => hall (by simp [hnil])
      have hsplit := List.dropLast_concat_getLast hne
      refine ⟨?_, fun _ => h _ _ hsplit.symm (by simp)⟩
      intro outer inner heq hinner
      refine h outer (inner ++ [loc.getLast hne]) ?_ (by simp)
      rw [← List.append_assoc, ← heq, hsplit]

theorem Rooted.down {disk : Disk} {loc : Location} (h : Rooted disk loc)
    (hloc : disk.get? loc = some .directory) (s : String) : Rooted disk (loc ++ [s]) := by
  intro outer inner heq hinner
  rcases List.append_eq_append_iff.1 heq with ⟨as, houter, has⟩ | ⟨as, houter, has⟩
  · rcases List.append_eq_singleton_iff.1 has.symm with ⟨rfl, -⟩ | ⟨-, hnil⟩
    · rw [houter, List.append_nil, hloc]
    · exact absurd hnil hinner
  · cases as with
    | nil =>
      rw [List.append_nil] at houter
      rw [← houter, hloc]
    | cons a as => exact h outer (a :: as) houter (by simp)

theorem rooted_of_walk {disk : Disk} {loc dir : Location} {segments : List String}
    (hloc : Rooted disk loc) (h : disk.walk loc segments = .ok dir) : Rooted disk dir := by
  induction segments generalizing loc with
  | nil =>
    rw [walk, Except.ok.injEq] at h
    rwa [← h]
  | cons s rest ih =>
    obtain ⟨hdir, next, hnext, hrest⟩ := walk_cons_eq_ok_iff.1 h
    cases hnext with
    | stay hs => exact ih hloc hrest
    | up hs => exact ih hloc.up.1 hrest
    | down hs _ => exact ih (hloc.down hdir s) hrest

/-- The place a path names: a proper name in the directory to which the segments in front
of it lead. -/
def place? (disk : Disk) (path : String) : Option Location :=
  match checkPath path, disk.slot (Location.base path) (Path.segments path) with
  | .ok _, .ok (dir, name) =>
    if Path.isVoid name || name == ".." || isTooLongName name then none else some (dir ++ [name])
  | _, _ => none

/-- A path that names the entry `name` of the directory `dir`. -/
structure Names (disk : Disk) (path : String) (dir : Location) (name : String) : Prop where
  check : checkPath path = .ok ()
  way : disk.walk (Location.base path) (Path.segments path).dropLast = .ok dir
  directory : disk.get? dir = some .directory
  last : (Path.segments path).getLast? = some name
  proper : IsName name

theorem slot_eq_ok_iff {disk : Disk} {path : String} {dir : Location} {name : String} :
    disk.slot (Location.base path) (Path.segments path) = .ok (dir, name) ↔
      disk.walk (Location.base path) (Path.segments path).dropLast = .ok dir ∧
        disk.get? dir = some .directory ∧ (Path.segments path).getLast? = some name := by
  obtain ⟨last, hlast⟩ := Path.exists_last_segment path
  rw [slot, except_bind_eq_ok]
  constructor
  · rintro ⟨l, hway, hl⟩
    split at hl
    · rename_i hdir
      simp only [hlast, Option.getD_some, Except.ok.injEq, Prod.mk.injEq] at hl
      obtain ⟨rfl, rfl⟩ := hl
      exact ⟨hway, hdir, hlast⟩
    · exact absurd hl (by simp)
    · exact absurd hl (by simp)
  · rintro ⟨hway, hdir, hname⟩
    exact ⟨dir, hway, by simp [hdir, hname]⟩

theorem place?_eq_some_iff {disk : Disk} {path : String} {loc : Location} :
    disk.place? path = some loc ↔ ∃ dir name, Names disk path dir name ∧ loc = dir ++ [name] := by
  constructor
  · intro h
    unfold place? at h
    split at h
    · rename_i dir name hcheck hslot
      obtain ⟨hway, hdir, hlast⟩ := slot_eq_ok_iff.1 hslot
      split at h
      · exact absurd h (by simp)
      · rename_i hname
        simp only [Bool.or_eq_true, not_or, Bool.not_eq_true, beq_eq_false_iff_ne] at hname
        exact ⟨dir, name, ⟨hcheck, hway, hdir, hlast, hname.1.1, hname.1.2, hname.2⟩,
          (Option.some.inj h).symm⟩
    · exact absurd h (by simp)
  · rintro ⟨dir, name, h, rfl⟩
    have hslot := slot_eq_ok_iff.2 ⟨h.way, h.directory, h.last⟩
    simp [place?, h.check, hslot, h.proper.not_void, h.proper.not_up, h.proper.short]

/-- Writing sets the entry at the place the path names, unless a directory is there. -/
theorem write_eq_ok_iff {disk disk' : Disk} {path : String} {content : ByteArray} :
    disk.write path content = .ok disk' ↔ ∃ loc, disk.place? path = some loc ∧
      disk.get? loc ≠ some .directory ∧ disk' = disk.put loc (.file content) := by
  rw [write, except_bind_eq_ok]
  simp only [except_bind_eq_ok, Prod.exists]
  constructor
  · rintro ⟨⟨⟩, hcheck, dir, name, hslot, h⟩
    obtain ⟨hway, hdir, hlast⟩ := slot_eq_ok_iff.1 hslot
    split at h
    · exact absurd h (by simp)
    · rename_i hvoid
      simp only [Bool.or_eq_true, not_or, Bool.not_eq_true, beq_eq_false_iff_ne] at hvoid
      split at h
      · exact absurd h (by simp)
      · rename_i hshort
        have hnames : Names disk path dir name :=
          ⟨hcheck, hway, hdir, hlast, hvoid.1, hvoid.2, by simpa using hshort⟩
        split at h
        · exact absurd h (by simp)
        · rename_i hfree
          exact ⟨_, place?_eq_some_iff.2 ⟨dir, name, hnames, rfl⟩, hfree,
            (Except.ok.inj h).symm⟩
  · rintro ⟨loc, hplace, hfree, rfl⟩
    obtain ⟨dir, name, h, rfl⟩ := place?_eq_some_iff.1 hplace
    refine ⟨(), h.check, dir, name, slot_eq_ok_iff.2 ⟨h.way, h.directory, h.last⟩, ?_⟩
    simp only [h.proper.not_void, h.proper.not_up, h.proper.short, Bool.false_or, beq_iff_eq,
      if_false, Bool.false_eq_true]

/-- What a path leads to is a directory, or the entry that the path names. -/
theorem resolve_cases {disk : Disk} {path : String} {loc : Location}
    (h : disk.resolve path = .ok loc) :
    disk.get? loc = some .directory ∨ disk.place? path = some loc := by
  obtain ⟨⟨⟩, hcheck, hwalk⟩ := except_bind_eq_ok.mp h
  obtain ⟨name, hlast⟩ := Path.exists_last_segment path
  rw [Path.segments_eq hlast] at hwalk
  obtain ⟨dir, hway, hwalk⟩ := walk_append_eq_ok_iff.1 hwalk
  obtain ⟨hdir, next, hnext, hend⟩ := walk_cons_eq_ok_iff.1 hwalk
  rw [walk, Except.ok.injEq] at hend
  subst hend
  cases hnext with
  | stay _ => exact Or.inl hdir
  | up _ => exact Or.inl ((rooted_of_walk (rooted_base disk path) hway).up.2 hdir)
  | down hname _ =>
    exact Or.inr (place?_eq_some_iff.2 ⟨dir, name, ⟨hcheck, hway, hdir, hlast, hname⟩, rfl⟩)

theorem resolve_of_place? {disk : Disk} {path : String} {loc : Location}
    (h : disk.place? path = some loc) (hloc : (disk.get? loc).isSome = true) :
    disk.resolve path = .ok loc := by
  obtain ⟨dir, name, hnames, rfl⟩ := place?_eq_some_iff.1 h
  refine except_bind_eq_ok.mpr ⟨(), hnames.check, ?_⟩
  rw [Path.segments_eq hnames.last]
  exact walk_append_eq_ok_iff.2 ⟨dir, hnames.way, walk_cons_eq_ok_iff.2
    ⟨hnames.directory, _, .down hnames.proper hloc, rfl⟩⟩

/-- Reading looks up the entry at the place the path names. -/
theorem readBytes_eq_ok_iff {disk : Disk} {path : String} {content : ByteArray} :
    disk.readBytes path = .ok content ↔ ∃ loc, disk.place? path = some loc ∧
      disk.get? loc = some (.file content) := by
  constructor
  · intro h
    obtain ⟨entry, hfind, hentry⟩ := except_bind_eq_ok.mp h
    obtain ⟨loc, hresolve, hget⟩ := except_bind_eq_ok.mp hfind
    cases entry with
    | directory => exact absurd hentry (by simp)
    | file bytes =>
      rw [Except.ok.inj hentry] at hget
      cases hloc : disk.get? loc with
      | none => simp [hloc] at hget
      | some entry =>
        rw [hloc, Except.ok.injEq] at hget
        subst hget
        rcases resolve_cases hresolve with hdir | hplace
        · exact absurd (hloc.symm.trans hdir) (by simp)
        · exact ⟨loc, hplace, hloc⟩
  · rintro ⟨loc, hplace, hloc⟩
    have hresolve := resolve_of_place? hplace (by simp [hloc])
    simp [readBytes, find, hresolve, hloc, Except.bind]

theorem readText_eq_ok_iff {disk : Disk} {path text : String} :
    disk.readText path = .ok text ↔ disk.readBytes path = .ok text.toUTF8 := by
  rw [readText, except_bind_eq_ok]
  constructor
  · rintro ⟨content, hread, htext⟩
    rw [hread, Except.ok.injEq]
    unfold String.fromUTF8? at htext
    split at htext
    · rename_i heq
      split at heq
      · rw [← Except.ok.inj htext, ← Option.some.inj heq]
        rfl
      · exact absurd heq (by simp)
    · exact absurd htext (by simp)
  · intro hread
    refine ⟨_, hread, ?_⟩
    have hvalid : text.toUTF8.IsValidUTF8 := text.isValidUTF8
    simp only [String.fromUTF8?, hvalid, dite_true]
    rfl

theorem place?_of_keepsDirectories {a b : Disk} (hkeep : KeepsDirectories a b) {path : String}
    {loc : Location} (h : a.place? path = some loc) : b.place? path = some loc := by
  obtain ⟨dir, name, hnames, rfl⟩ := place?_eq_some_iff.1 h
  exact place?_eq_some_iff.2 ⟨dir, name, ⟨hnames.check,
    walk_of_keepsDirectories hkeep hnames.way hnames.directory,
    hkeep dir hnames.directory, hnames.last, hnames.proper⟩, rfl⟩

/-- Disks with the same directories have the same places. -/
theorem place?_congr {a b : Disk} (h : SameDirectories a b) (path : String) :
    a.place? path = b.place? path :=
  Option.ext fun _ => ⟨place?_of_keepsDirectories fun loc => (h loc).mp,
    place?_of_keepsDirectories fun loc => (h loc).mpr⟩

end Disk

end Encapsulate
