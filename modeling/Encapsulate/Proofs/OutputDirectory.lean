import Encapsulate.Proofs.Runs

/-!
Writing into a directory. New texts go into one directory, each under the last component of
the path its file was read from, so files of the same name go to the same place and the last
of them stays. Directories are made on the way and nothing else is lost.
-/

namespace Encapsulate

open Cpp

namespace Path

theorem not_slash_of_mem_segmentsOf {cs : List Char} {s : String} (h : s ∈ segmentsOf cs) :
    '/' ∉ s.toList := by
  induction cs generalizing s with
  | nil =>
    rw [segmentsOf_eq_singleton (by simp), List.mem_singleton] at h
    simp [h]
  | cons c cs ih =>
    by_cases hc : c = '/'
    · rw [hc, segmentsOf_cons_slash] at h
      rcases List.mem_cons.mp h with rfl | h
      · simp
      · exact ih h
    · obtain ⟨first, later, hcs, hcons⟩ := segmentsOf_cons hc cs
      rw [hcons] at h
      rw [hcs] at ih
      rcases List.mem_cons.mp h with rfl | h
      · have hfirst := ih List.mem_cons_self
        simpa [Ne.symm hc] using hfirst
      · exact ih (List.mem_cons_of_mem _ h)

theorem not_slash_of_mem_split {path s : String} (h : s ∈ (split path).2) : '/' ∉ s.toList := by
  unfold split at h
  split at h <;> simp only at h
  · exact not_slash_of_mem_segmentsOf h
  · exact absurd h (by simp)
  · exact not_slash_of_mem_segmentsOf h
  · exact not_slash_of_mem_segmentsOf h

theorem not_slash_of_fileName? {path name : String} (h : fileName? path = some name) :
    '/' ∉ name.toList := by
  have hlast : (trimSegments (split path).2).getLast? = some name := by
    unfold fileName? at h
    split at h
    · exact absurd h (by simp)
    · exact h
  have hmem : name ∈ (split path).2.reverse.dropWhile isVoid :=
    List.mem_reverse.mp (List.mem_of_getLast? hlast)
  exact not_slash_of_mem_split
    (List.mem_reverse.mp ((List.dropWhile_sublist isVoid).subset hmem))

/-- A path below a directory ends in the name it was made with. -/
theorem getLast?_segments_join (dir : String) {name : String} (hname : '/' ∉ name.toList) :
    (segments (join dir name)).getLast? = some name := by
  have hsingle : segmentsOf name.toList = [name] := by
    rw [segmentsOf_eq_singleton hname, String.ofList_toList]
  have hslash : ∀ as : List Char, (segmentsOf (as ++ '/' :: name.toList)).getLast? = some name := by
    intro as
    rw [segmentsOf_append_slash, hsingle, List.getLast?_concat]
  have habsolute : isAbsolute name = false := by
    rw [isAbsolute, beq_eq_false_iff_ne]
    exact fun h => hname (List.mem_of_mem_head? h)
  rw [join, habsolute, if_neg (by simp), segments]
  split
  · rename_i hdir
    rw [String.toList_append]
    rcases Bool.or_eq_true_iff.mp hdir with hempty | hend
    · rw [String.isEmpty_iff.mp hempty]
      simp [hsingle]
    · obtain ⟨as, has⟩ := List.getLast?_eq_some_iff.mp (beq_iff_eq.mp hend)
      rw [has, List.append_assoc]
      exact hslash as
  · rw [String.toList_append, String.toList_append, List.append_assoc]
    exact hslash dir.toList

end Path

namespace Disk

def Extends (a b : Disk) : Prop :=
  ∀ loc entry, a.get? loc = some entry → b.get? loc = some entry

theorem Extends.trans {a b c : Disk} (hab : Extends a b) (hbc : Extends b c) : Extends a c :=
  fun loc entry h => hbc loc entry (hab loc entry h)

theorem extends_put {disk : Disk} {loc : Location} (h : disk.get? loc = none) (entry : Entry) :
    Extends disk (disk.put loc entry) := by
  intro l old hl
  have hne : l ≠ loc := fun heq => by simp [heq, h] at hl
  rwa [get?_put_of_ne hne]

theorem extends_makeDirectory {disk disk' : Disk} {path : String}
    (h : disk.makeDirectory path = .ok disk') : Extends disk disk' := by
  obtain ⟨-, -, h⟩ := except_bind_eq_ok.mp h
  obtain ⟨⟨dir, name⟩, -, h⟩ := except_bind_eq_ok.mp h
  simp only at h
  split at h
  · exact absurd h (by simp)
  · split at h
    · exact absurd h (by simp)
    · split at h
      · exact absurd h (by simp)
      · rename_i hfree
        rw [← Except.ok.inj h]
        exact extends_put (by simpa using hfree) .directory

/-- Nothing is lost where directories are made, whether or not all of them can be made. -/
theorem extends_makeDirectoriesFrom (disk : Disk) (paths : List String) :
    Extends disk (disk.makeDirectoriesFrom paths).1 := by
  induction paths with
  | nil => exact fun _ _ h => h
  | cons path outer ih =>
    rw [makeDirectoriesFrom]
    split
    · exact fun _ _ h => h
    · split
      · rename_i made hmade
        exact extends_makeDirectory hmade
      · split
        · rename_i made e houter
          rwa [houter] at ih
        · rename_i made houter
          rw [houter] at ih
          split
          · rename_i last hlast
            exact ih.trans (extends_makeDirectory hlast)
          · exact ih
      · exact fun _ _ h => h

theorem getLast?_of_place? {disk : Disk} {path : String} {loc : Location}
    (h : disk.place? path = some loc) : loc.getLast? = (Path.segments path).getLast? := by
  obtain ⟨dir, name, hnames, rfl⟩ := place?_eq_some_iff.mp h
  rw [List.getLast?_concat, hnames.last]

/-- What writing a file below a directory does: the path names a place, the text is there, and
everything else is kept. -/
structure Delivered (before : Disk) (path text : String) (loc : Location) (after : Disk) :
    Prop where
  place : after.place? path = some loc
  written : after.get? loc = some (.file text.toUTF8)
  elsewhere : ∀ l entry, l ≠ loc → before.get? l = some entry → after.get? l = some entry
  directories : KeepsDirectories before after

theorem delivered_of_write {before made after : Disk} {path text : String}
    (hmade : Extends before made) (hwrite : made.write path text.toUTF8 = .ok after) :
    ∃ loc, Delivered before path text loc after := by
  obtain ⟨loc, hplace, hfree, rfl⟩ := write_eq_ok_iff.mp hwrite
  have hsame := sameDirectories_put hfree text.toUTF8
  refine ⟨loc, ?_, get?_put_self (isGiven_eq_false hfree) _ _, ?_, ?_⟩
  · rw [← place?_congr hsame, hplace]
  · intro l entry hl h
    rw [get?_put_of_ne hl]
    exact hmade l entry h
  · exact fun l h => (hsame l).mp (hmade l _ h)

end Disk

theorem Job.delivered_of_writeBelow {world : World} {dir path text : String}
    (h : (writeBelow world dir path text).2 = .ok ()) :
    ∃ name loc, Path.fileName? path = some name ∧
      world.disk.Delivered (Path.join dir name) text loc
        (writeBelow world dir path text).1.disk := by
  have hmade := Disk.extends_makeDirectoriesFrom world.disk (Path.ancestors dir)
  unfold writeBelow at h ⊢
  rcases hname : Path.fileName? path with _ | name
  · simp [hname] at h
  · rcases hdirs : world.disk.makeDirectories dir with ⟨made, e | ⟨⟩⟩
    · simp [hname, hdirs] at h
    · rw [← Disk.makeDirectories, hdirs] at hmade
      simp only [hname, hdirs] at h ⊢
      cases hwrite : made.write (Path.join dir name) text.toUTF8 with
      | error e =>
        rw [hwrite] at h
        exact absurd h (by simp)
      | ok written =>
        obtain ⟨loc, hdelivered⟩ := Disk.delivered_of_write hmade hwrite
        exact ⟨name, loc, rfl, hdelivered⟩

namespace Visit

/-- A visit whose new text is written below a directory. -/
structure WritesBelow (parse : Parser) (dir : String) (v : Visit) : Prop where
  output : v.job.output = .directory dir
  writes : v.job.isDryRun = false
  succeeds : v.Succeeds parse

def Provides (parse : Parser) (name : String) (v : Visit) : Bool :=
  (v.newText? parse).isSome && Path.fileName? v.path == some name

theorem provides_eq_true_iff {parse : Parser} {name : String} {v : Visit} :
    v.Provides parse name = true ↔
      (∃ text, v.newText? parse = some text) ∧ Path.fileName? v.path = some name := by
  simp [Provides, Option.isSome_iff_exists]

variable {parse : Parser} {dir name : String} {v : Visit}

theorem WritesBelow.delivered (hv : v.WritesBelow parse dir) {text : String}
    (htext : v.newText? parse = some text) :
    ∃ name loc, Path.fileName? v.path = some name ∧
      v.world.disk.Delivered (Path.join dir name) text loc (v.result parse).1.disk := by
  obtain ⟨hresult, hdeliver⟩ := result_deliver htext hv.writes
  have hok := hdeliver hv.succeeds
  have heq : v.job.deliver v.world v.path text = Job.writeBelow v.world dir v.path text := by
    rw [Job.deliver, hv.output]
  rw [heq] at hresult hok
  rw [hresult]
  exact Job.delivered_of_writeBelow hok

/-- A text below the directory stays while files of other names are written. -/
theorem WritesBelow.keeps (hv : v.WritesBelow parse dir) {text : String} {loc : Location}
    (hname : '/' ∉ name.toList) (hother : ¬v.Provides parse name = true)
    (h : v.world.disk.place? (Path.join dir name) = some loc ∧
      v.world.disk.get? loc = some (.file text.toUTF8)) :
    (v.result parse).1.disk.place? (Path.join dir name) = some loc ∧
      (v.result parse).1.disk.get? loc = some (.file text.toUTF8) := by
  cases htext : v.newText? parse with
  | none => rwa [result_world (Or.inl htext)]
  | some text' =>
    obtain ⟨name', loc', hname', hdelivered⟩ := hv.delivered htext
    refine ⟨Disk.place?_of_keepsDirectories hdelivered.directories h.1,
      hdelivered.elsewhere loc _ ?_ h.2⟩
    -- equal places would have equal last names
    rintro rfl
    have hlast := (Disk.getLast?_of_place? h.1).symm.trans (Disk.getLast?_of_place? hdelivered.place)
    rw [Path.getLast?_segments_join dir hname,
      Path.getLast?_segments_join dir (Path.not_slash_of_fileName? hname'), Option.some.injEq] at hlast
    exact hother (provides_eq_true_iff.mpr ⟨⟨text', htext⟩, hlast ▸ hname'⟩)

/-- After a run, the directory holds the text of the last file of a name, since behind it only
files of other names are written. -/
theorem readText_join_of_last {vs earlier : List Visit} {last : Visit} {start stop : World}
    (hvs : ∀ v ∈ vs, v.WritesBelow parse dir) (hchain : Chain parse start vs stop)
    (hlast : vs.filter (Provides parse name) = earlier ++ [last]) :
    ∃ text, last.newText? parse = some text ∧
      stop.disk.readText (Path.join dir name) = .ok text := by
  obtain ⟨before, after, rfl, hprovides, hafter⟩ := exists_split_of_filter hlast
  obtain ⟨⟨text, htext⟩, hname⟩ := provides_eq_true_iff.mp hprovides
  obtain ⟨name', loc, hname', hdelivered⟩ := (hvs last (by simp)).delivered htext
  obtain rfl : name' = name := Option.some.inj (hname'.symm.trans hname)
  refine ⟨text, htext, Disk.readText_eq_ok_iff.mpr (Disk.readBytes_eq_ok_iff.mpr ⟨loc, ?_⟩)⟩
  refine hchain.split.2.keeps
    (P := fun w => w.disk.place? (Path.join dir name') = some loc ∧
      w.disk.get? loc = some (.file text.toUTF8)) ?_ ⟨hdelivered.place, hdelivered.written⟩
  intro x hx
  exact (hvs x (by simp [hx])).keeps (Path.not_slash_of_fileName? hname)
    (List.filter_eq_nil_iff.mp hafter x hx)

end Visit

namespace Job

theorem runFiles_of_dryRun {job : Job} (h : job.isDryRun = true) (parse : Parser) (world : World)
    (paths : List String) : (job.runFiles parse world paths).1 = world := by
  refine (job.chain_visits parse world paths).keeps (P := (· = world)) ?_ rfl
  intro v hv hworld
  rw [← hworld]
  exact Visit.result_world (Or.inr (job_of_mem_visits hv ▸ h))

/-- A job that writes into a directory without an error leaves there, under the name of each
file that got a new text, the text of the last file of that name. So a text is there after the
run exactly when the last file of the same name got the same text. -/
theorem directory_holds_last_of_name (job : Job) (parse : Parser) (world : World)
    (paths : List String) {dir : String} (houtput : job.output = .directory dir)
    (herrors : (job.runFiles parse world paths).2.errors = []) :
    (job.visits parse world paths).map (·.path) = paths ∧
    (job.isDryRun = true → (job.runFiles parse world paths).1 = world) ∧
    (job.isDryRun = false → ∀ v ∈ job.visits parse world paths, ∀ text,
      v.newText? parse = some text → ∃ name last, Path.fileName? v.path = some name ∧
        ((job.visits parse world paths).filter (Visit.Provides parse name)).getLast? = some last ∧
        ∀ written,
          (job.runFiles parse world paths).1.disk.readText (Path.join dir name) = .ok written ↔
            last.newText? parse = some written) := by
  refine ⟨map_path_visits job parse world paths, fun h => runFiles_of_dryRun h parse world paths, ?_⟩
  intro hwrites v hv text htext
  have hbelow : ∀ u ∈ job.visits parse world paths, u.WritesBelow parse dir := by
    intro u hu
    rw [← job_of_mem_visits hu] at houtput hwrites
    exact ⟨houtput, hwrites, succeeds_of_mem_visits herrors u hu⟩
  obtain ⟨name, -, hname, -⟩ := (hbelow v hv).delivered htext
  have hmem : v ∈ (job.visits parse world paths).filter (Visit.Provides parse name) :=
    List.mem_filter.mpr ⟨hv, Visit.provides_eq_true_iff.mpr ⟨⟨text, htext⟩, hname⟩⟩
  obtain ⟨earlier, last, hlast⟩ := (List.eq_nil_or_concat' _).resolve_left (List.ne_nil_of_mem hmem)
  refine ⟨name, last, hname, by rw [hlast, List.getLast?_concat], ?_⟩
  obtain ⟨lastText, hlastText, hread⟩ :=
    Visit.readText_join_of_last hbelow (job.chain_visits parse world paths) hlast
  intro written
  rw [hread, hlastText, Except.ok.injEq, Option.some.injEq]

end Job

/-! Two files of the same name -/

namespace Sample

def recordText (field : String) : String :=
  "struct P \x7b int " ++ field ++ "; int y; \x7d;\n"

def recordTextY (field : String) : String :=
  "struct P \x7b int " ++ field ++ "; int y; const int &getY() const \x7b return y; \x7d "
    ++ "int &getY() \x7b return y; \x7d void setY(const int &_y) \x7b y = _y; \x7d \x7d;\n"

/-- Such a record has the same tree whatever letter its first field is. -/
def recordParser : Parser :=
  fun _ => ⟨pairTree, false⟩

def twinWorld : World where
  disk :=
    { entries := [(["a"], .directory), (["b"], .directory),
        (["a", "p.cpp"], .file (recordText "x").toUTF8),
        (["b", "p.cpp"], .file (recordText "z").toUTF8)] }

def outJob : Job :=
  { transforms := [.accessors { fields := ["P::y"] }], output := .directory "out" }

end Sample

namespace Job

open Sample

theorem runFiles_twins :
    (outJob.runFiles recordParser twinWorld ["a/p.cpp", "b/p.cpp"]).2.errors = [] ∧
      (outJob.visits recordParser twinWorld ["a/p.cpp"]).map (·.newText? recordParser) =
        [some (recordTextY "x")] := by
  decide +kernel

/-- The run reports no error, and the text of the first file is not in the directory. -/
theorem first_twin_is_lost :
    (outJob.runFiles recordParser twinWorld ["a/p.cpp", "b/p.cpp"]).2.errors = [] ∧
      (outJob.visits recordParser twinWorld ["a/p.cpp"]).map (·.newText? recordParser) =
        [some (recordTextY "x")] ∧
      Path.fileName? "a/p.cpp" = some "p.cpp" ∧
      (outJob.runFiles recordParser twinWorld ["a/p.cpp", "b/p.cpp"]).1.disk.readText
        (Path.join "out" "p.cpp") = .ok (recordTextY "z") ∧
      recordTextY "x" ≠ recordTextY "z" :=
  ⟨runFiles_twins.1, runFiles_twins.2, by decide +kernel, by decide +kernel, by decide +kernel⟩

theorem directory_holds_last_twin :
    (outJob.runFiles recordParser twinWorld ["a/p.cpp", "b/p.cpp"]).2.errors = [] ∧
      ∃ last, ((outJob.visits recordParser twinWorld ["a/p.cpp", "b/p.cpp"]).filter
          (Visit.Provides recordParser "p.cpp")).getLast? = some last ∧
        ∀ written, (outJob.runFiles recordParser twinWorld
            ["a/p.cpp", "b/p.cpp"]).1.disk.readText (Path.join "out" "p.cpp") = .ok written ↔
          last.newText? recordParser = some written := by
  obtain ⟨herrors, hvisits⟩ := runFiles_twins
  obtain ⟨name, last, hname, hlast, hread⟩ :=
    (directory_holds_last_of_name outJob recordParser twinWorld ["a/p.cpp", "b/p.cpp"] rfl
      herrors).2.2 rfl ⟨outJob, "a/p.cpp", twinWorld⟩ (by simp [visits]) (recordTextY "x")
      (by simpa [visits] using hvisits)
  obtain rfl : name = "p.cpp" := Option.some.inj (hname.symm.trans (by decide))
  exact ⟨herrors, last, hlast, hread⟩

end Job

end Encapsulate
