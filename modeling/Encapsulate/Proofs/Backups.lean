import Encapsulate.Proofs.Runs

/-!
Backups. A file that is changed in place is copied to its name with `.orig` first, each
time it is changed, so the copy holds what the last change found. This is what the file
held before the run when the run changed it once; otherwise it is the text that the
change before the last one left.
-/

namespace Encapsulate

open Cpp

namespace Disk

theorem isAbsolute_append {path : String} (h : checkPath path = .ok ()) (text : String) :
    Path.isAbsolute (path ++ text) = Path.isAbsolute path := by
  have hne : path.toList ≠ [] := by
    intro hnil
    rw [String.toList_eq_nil_iff] at hnil
    subst hnil
    exact absurd h (by decide)
  rw [Path.isAbsolute, Path.isAbsolute, String.toList_append, List.head?_append_of_ne_nil _ hne]

/-- The backup of a file is its neighbour. -/
theorem place?_backup {disk : Disk} {path : String} {loc backup : Location}
    (hloc : disk.place? path = some loc) (hbackup : disk.place? (path ++ ".orig") = some backup) :
    ∃ dir name, loc = dir ++ [name] ∧ backup = dir ++ [name ++ ".orig"] := by
  obtain ⟨dir, name, hnames, rfl⟩ := place?_eq_some_iff.mp hloc
  obtain ⟨dir', name', hnames', rfl⟩ := place?_eq_some_iff.mp hbackup
  obtain ⟨init, last, hsegments, hsegments'⟩ :=
    Path.exists_segmentsOf_append path.toList ".orig".toList (by decide)
  rw [← String.toList_append] at hsegments'
  have hlast := hnames.last
  have hlast' := hnames'.last
  have hway := hnames.way
  have hway' := hnames'.way
  rw [Location.base, isAbsolute_append hnames.check] at hway'
  rw [Path.segments, hsegments, List.getLast?_concat] at hlast
  rw [Path.segments, hsegments', List.getLast?_concat] at hlast'
  rw [Path.segments, hsegments, List.dropLast_concat] at hway
  rw [Path.segments, hsegments', List.dropLast_concat] at hway'
  have hdir : dir = dir' := Except.ok.inj (hway.symm.trans hway')
  refine ⟨dir, name, rfl, ?_⟩
  rw [← hdir, ← Option.some.inj hlast, ← Option.some.inj hlast', String.ofList_append,
    String.ofList_toList]

theorem backup_ne {disk : Disk} {path : String} {loc backup : Location}
    (hloc : disk.place? path = some loc) (hbackup : disk.place? (path ++ ".orig") = some backup) :
    backup ≠ loc := by
  obtain ⟨dir, name, rfl, rfl⟩ := place?_backup hloc hbackup
  intro h
  have hname : name ++ ".orig" = name ++ "" := by
    simpa using List.append_cancel_left h
  exact absurd ((String.append_right_inj name).mp hname) (by decide)

/-- Backups are at one place exactly when the files are. -/
theorem backup_eq_iff {disk : Disk} {path path' : String} {loc loc' backup backup' : Location}
    (hloc : disk.place? path = some loc) (hbackup : disk.place? (path ++ ".orig") = some backup)
    (hloc' : disk.place? path' = some loc')
    (hbackup' : disk.place? (path' ++ ".orig") = some backup') :
    backup = backup' ↔ loc = loc' := by
  obtain ⟨dir, name, rfl, rfl⟩ := place?_backup hloc hbackup
  obtain ⟨dir', name', rfl, rfl⟩ := place?_backup hloc' hbackup'
  simp [List.append_eq_append_iff_of_size_eq_right, String.append_left_inj]

/-- What changing a file in place does: the file at `loc` is copied to `backup` and then gets
a new text. -/
structure Replaced (before : Disk) (loc backup : Location) (text : String) (after : Disk) :
    Prop where
  copied : ∃ content, before.get? loc = some (.file content) ∧
    after.get? backup = some (.file content)
  written : after.get? loc = some (.file text.toUTF8)
  elsewhere : ∀ l, l ≠ loc → l ≠ backup → after.get? l = before.get? l
  directories : SameDirectories before after

theorem replaced_put {disk : Disk} {loc backup : Location} {content : ByteArray}
    (hloc : disk.get? loc = some (.file content)) (hbackup : disk.get? backup ≠ some .directory)
    (hne : backup ≠ loc) (text : String) :
    Replaced disk loc backup text
      ((disk.put backup (.file content)).put loc (.file text.toUTF8)) := by
  have hfile : disk.get? loc ≠ some .directory := by simp [hloc]
  refine ⟨⟨content, hloc, ?_⟩, get?_put_self (isGiven_eq_false hfile) _ _, ?_, ?_⟩
  · rw [get?_put_of_ne hne, get?_put_self (isGiven_eq_false hbackup)]
  · intro l hl hl'
    rw [get?_put_of_ne hl, get?_put_of_ne hl']
  · refine (sameDirectories_put hbackup content).trans (sameDirectories_put ?_ _)
    rwa [get?_put_of_ne (Ne.symm hne)]

end Disk

theorem Job.replaced_of_writeInPlace {job : Job} {world : World} {path text : String}
    (hkeeps : job.keepsBackup = true) (h : (job.writeInPlace world path text).2 = .ok ()) :
    ∃ loc backup, world.disk.place? path = some loc ∧
      world.disk.place? (path ++ ".orig") = some backup ∧
      world.disk.Replaced loc backup text (job.writeInPlace world path text).1.disk := by
  simp only [writeInPlace, hkeeps, if_true] at h ⊢
  cases hcopy : world.disk.copy path (path ++ ".orig") with
  | error e => simp [hcopy] at h
  | ok copied =>
    simp only [hcopy] at h ⊢
    cases hwrite : copied.write path text.toUTF8 with
    | error e =>
      rw [hwrite] at h
      exact absurd h (by simp)
    | ok written =>
      obtain ⟨content, hread, hcopied⟩ := except_bind_eq_ok.mp hcopy
      obtain ⟨loc, hloc, hcontent⟩ := Disk.readBytes_eq_ok_iff.mp hread
      obtain ⟨backup, hbackup, hfree, rfl⟩ := Disk.write_eq_ok_iff.mp hcopied
      obtain ⟨loc', hloc', -, rfl⟩ := Disk.write_eq_ok_iff.mp hwrite
      -- the copy does not change what the path of the file leads to
      rw [← Disk.place?_congr (Disk.sameDirectories_put hfree content), hloc,
        Option.some.injEq] at hloc'
      subst hloc'
      exact ⟨loc, backup, hloc, hbackup,
        Disk.replaced_put hcontent hfree (Disk.backup_ne hloc hbackup) text⟩

namespace Visit

/-- A visit that changes its file in place, after a copy. -/
structure BacksUp (parse : Parser) (v : Visit) : Prop where
  output : v.job.output = .inPlace
  keepsBackup : v.job.keepsBackup = true
  writes : v.job.isDryRun = false
  succeeds : v.Succeeds parse

namespace BacksUp

variable {parse : Parser} {v : Visit} {disk : Disk}

theorem replaced (hv : v.BacksUp parse) {text : String} (htext : v.newText? parse = some text) :
    ∃ loc backup, v.world.disk.place? v.path = some loc ∧
      v.world.disk.place? (v.path ++ ".orig") = some backup ∧
      v.world.disk.Replaced loc backup text (v.result parse).1.disk := by
  obtain ⟨hresult, hdeliver⟩ := result_deliver htext hv.writes
  have hok := hdeliver hv.succeeds
  have heq : v.job.deliver v.world v.path text = v.job.writeInPlace v.world v.path text := by
    rw [Job.deliver, hv.output]
  rw [heq] at hresult hok
  rw [hresult]
  exact Job.replaced_of_writeInPlace hv.keepsBackup hok

theorem sameDirectories (hv : v.BacksUp parse) (hdisk : disk.SameDirectories v.world.disk) :
    disk.SameDirectories (v.result parse).1.disk := by
  cases htext : v.newText? parse with
  | none => rwa [result_world (Or.inl htext)]
  | some text =>
    obtain ⟨loc, backup, -, -, h⟩ := hv.replaced htext
    exact hdisk.trans h.directories

/-- The step with its places as the directories of the run give them. -/
theorem replaced_of_sameDirectories (hv : v.BacksUp parse)
    (hdisk : disk.SameDirectories v.world.disk) {text : String}
    (htext : v.newText? parse = some text) :
    ∃ loc backup, disk.place? v.path = some loc ∧ disk.place? (v.path ++ ".orig") = some backup ∧
      v.world.disk.Replaced loc backup text (v.result parse).1.disk := by
  obtain ⟨loc, backup, hloc, hbackup, h⟩ := hv.replaced htext
  rw [← Disk.place?_congr hdisk] at hloc hbackup
  exact ⟨loc, backup, hloc, hbackup, h⟩

end BacksUp

def Rewrites (parse : Parser) (disk : Disk) (path : String) (v : Visit) : Bool :=
  (v.newText? parse).isSome && disk.place? v.path == disk.place? path

theorem rewrites_eq_true_iff {parse : Parser} {disk : Disk} {path : String} {v : Visit} :
    v.Rewrites parse disk path = true ↔
      (∃ text, v.newText? parse = some text) ∧ disk.place? v.path = disk.place? path := by
  simp [Rewrites, Option.isSome_iff_exists]

theorem mem_filter_rewrites {parse : Parser} {v : Visit} {vs : List Visit} (hv : v ∈ vs)
    {text : String} (htext : v.newText? parse = some text) (disk : Disk) :
    v ∈ vs.filter (Rewrites parse disk v.path) :=
  List.mem_filter.mpr ⟨hv, rewrites_eq_true_iff.mpr ⟨⟨text, htext⟩, rfl⟩⟩

end Visit

/-- A run that changes files in place after a copy, none of which is the copy of another. -/
structure BackedUp (parse : Parser) (disk : Disk) (vs : List Visit) (stop : World) : Prop where
  chain : Visit.Chain parse { disk } vs stop
  backsUp : ∀ v ∈ vs, v.BacksUp parse
  apart : ∀ v ∈ vs, ∀ u ∈ vs, disk.place? v.path ≠ disk.place? (u.path ++ ".orig")

namespace BackedUp

open Disk

variable {parse : Parser} {disk : Disk} {vs before after : List Visit} {start stop : World}
  {t u v : Visit} {loc backup : Location}

theorem sameDirectories (hvs : ∀ v ∈ vs, v.BacksUp parse)
    (hchain : Visit.Chain parse start vs stop) (hstart : disk.SameDirectories start.disk) :
    disk.SameDirectories stop.disk :=
  hchain.keeps (P := fun world => disk.SameDirectories world.disk)
    (fun v hv => (hvs v hv).sameDirectories) hstart

/-- Only the places of the files that are changed and of their copies get another entry. -/
theorem get?_eq (hvs : ∀ v ∈ vs, v.BacksUp parse) (hchain : Visit.Chain parse start vs stop)
    (hstart : disk.SameDirectories start.disk)
    (hfree : ∀ v ∈ vs, ∀ text, v.newText? parse = some text →
      disk.place? v.path ≠ some loc ∧ disk.place? (v.path ++ ".orig") ≠ some loc) :
    stop.disk.get? loc = start.disk.get? loc := by
  refine (hchain.keeps (P := fun world => disk.SameDirectories world.disk ∧
    world.disk.get? loc = start.disk.get? loc) ?_ ⟨hstart, rfl⟩).2
  rintro v hv ⟨hdisk, hget⟩
  refine ⟨(hvs v hv).sameDirectories hdisk, ?_⟩
  cases htext : v.newText? parse with
  | none => rw [Visit.result_world (Or.inl htext), hget]
  | some text =>
    obtain ⟨l, l', hl, hl', hreplaced⟩ := (hvs v hv).replaced_of_sameDirectories hdisk htext
    obtain ⟨hne, hne'⟩ := hfree v hv text htext
    rw [hreplaced.elsewhere loc (fun h => hne (h ▸ hl)) (fun h => hne' (h ▸ hl')), hget]

/-- A file stays as it is while no visit changes it, since it is the copy of no file. -/
theorem get?_file (h : BackedUp parse disk vs stop) (hv : v ∈ vs) {us : List Visit}
    {first last : World} (hus : ∀ x ∈ us, x ∈ vs) (hchain : Visit.Chain parse first us last)
    (hfirst : disk.SameDirectories first.disk) (hloc : disk.place? v.path = some loc)
    (hquiet : ∀ x ∈ us, ¬x.Rewrites parse disk v.path = true) :
    last.disk.get? loc = first.disk.get? loc := by
  refine get?_eq (fun x hx => h.backsUp x (hus x hx)) hchain hfirst ?_
  intro x hx text htext
  constructor
  · intro hplace
    exact hquiet x hx (Visit.rewrites_eq_true_iff.mpr ⟨⟨text, htext⟩, hplace.trans hloc.symm⟩)
  · intro hplace
    exact h.apart v hv x (hus x hx) (hloc.trans hplace.symm)

theorem at_visit (h : BackedUp parse disk (before ++ u :: after) stop) :
    Visit.Chain parse { disk } before u.world ∧ Visit.Chain parse (u.result parse).1 after stop ∧
      disk.SameDirectories u.world.disk ∧ u.BacksUp parse := by
  obtain ⟨hbefore, hafter⟩ := h.chain.split
  exact ⟨hbefore, hafter, sameDirectories (fun x hx => h.backsUp x (by simp [hx])) hbefore
    fun _ => Iff.rfl, h.backsUp u (by simp)⟩

/-- A file and its copy have places, as the visit that changes the file finds. -/
theorem places (h : BackedUp parse disk vs stop) (hv : v ∈ vs) {text : String}
    (htext : v.newText? parse = some text) :
    ∃ loc backup, disk.place? v.path = some loc ∧ disk.place? (v.path ++ ".orig") = some backup ∧
      v.world.disk.Replaced loc backup text (v.result parse).1.disk := by
  obtain ⟨before, after, rfl⟩ := List.append_of_mem hv
  obtain ⟨-, -, hdisk, hbacksUp⟩ := h.at_visit
  exact hbacksUp.replaced_of_sameDirectories hdisk htext

/-- The first change of a file finds what it held before the run. -/
theorem get?_first (h : BackedUp parse disk vs stop) (hv : v ∈ vs)
    (hloc : disk.place? v.path = some loc) {later : List Visit}
    (hrewrites : vs.filter (Visit.Rewrites parse disk v.path) = u :: later) :
    u.world.disk.get? loc = disk.get? loc := by
  obtain ⟨before, after, rfl, hquiet, -, -⟩ := List.filter_eq_cons_iff.mp hrewrites
  obtain ⟨hbefore, -, -, -⟩ := h.at_visit
  exact h.get?_file hv (by simp +contextual) hbefore (fun _ => Iff.rfl) hloc hquiet

/-- A file that is changed was there before the run. -/
theorem exists_original (h : BackedUp parse disk vs stop) (hv : v ∈ vs) {text : String}
    (htext : v.newText? parse = some text) (hloc : disk.place? v.path = some loc) :
    ∃ original, disk.get? loc = some (.file original) := by
  have hmem := Visit.mem_filter_rewrites hv htext disk
  obtain ⟨first, later, hrewrites⟩ := List.exists_cons_of_ne_nil (List.ne_nil_of_mem hmem)
  obtain ⟨hfirst, hrewrite⟩ : first ∈ vs ∧ first.Rewrites parse disk v.path = true :=
    List.mem_filter.mp (hrewrites ▸ List.mem_cons_self)
  obtain ⟨⟨text', htext'⟩, hplace⟩ := Visit.rewrites_eq_true_iff.mp hrewrite
  obtain ⟨l, l', hl, -, hreplaced⟩ := h.places hfirst htext'
  obtain rfl : l = loc := Option.some.inj (hl.symm.trans (hplace.trans hloc))
  obtain ⟨content, hfound, -⟩ := hreplaced.copied
  exact ⟨content, by rw [← h.get?_first hv hloc hrewrites, hfound]⟩

/-- Every other change finds the text that the change before it left. -/
theorem get?_next (h : BackedUp parse disk vs stop) (hv : v ∈ vs)
    (hloc : disk.place? v.path = some loc) {earlier later : List Visit} {text : String}
    (hrewrites : vs.filter (Visit.Rewrites parse disk v.path) = earlier ++ t :: u :: later)
    (htext : t.newText? parse = some text) :
    u.world.disk.get? loc = some (.file text.toUTF8) := by
  obtain ⟨before, tail, rfl, ht, htail⟩ := Visit.exists_split_of_filter hrewrites
  obtain ⟨between, after, rfl, hquiet, -, -⟩ := List.filter_eq_cons_iff.mp htail
  obtain ⟨l, l', hl, -, hreplaced⟩ := h.places (v := t) (by simp) htext
  obtain rfl : l = loc :=
    Option.some.inj (hl.symm.trans ((Visit.rewrites_eq_true_iff.mp ht).2.trans hloc))
  obtain ⟨-, htail, hdisk, hbacksUp⟩ := h.at_visit
  rw [← hreplaced.written]
  exact h.get?_file hv (by simp +contextual) htail.split.1 (hbacksUp.sameDirectories hdisk) hloc
    hquiet

/-- The copy holds what the last change found. -/
theorem get?_backup (h : BackedUp parse disk vs stop) (hv : v ∈ vs)
    (hloc : disk.place? v.path = some loc)
    (hbackup : disk.place? (v.path ++ ".orig") = some backup) {earlier : List Visit}
    (hrewrites : vs.filter (Visit.Rewrites parse disk v.path) = earlier ++ [u]) :
    ∃ content, u.world.disk.get? loc = some (.file content) ∧
      stop.disk.get? backup = some (.file content) := by
  obtain ⟨before, after, rfl, hu, hafter⟩ := Visit.exists_split_of_filter hrewrites
  obtain ⟨⟨text, htext⟩, hplace⟩ := Visit.rewrites_eq_true_iff.mp hu
  obtain ⟨l, l', hl, hl', hreplaced⟩ := h.places (v := u) (by simp) htext
  obtain rfl : l = loc := Option.some.inj (hl.symm.trans (hplace.trans hloc))
  obtain rfl : l' = backup := (backup_eq_iff hl hl' hloc hbackup).mpr rfl
  obtain ⟨content, hfound, hcopied⟩ := hreplaced.copied
  refine ⟨content, hfound, ?_⟩
  rw [← hcopied]
  obtain ⟨-, hchain, hdisk, hbacksUp⟩ := h.at_visit
  have hmem : ∀ x ∈ after, x ∈ before ++ u :: after := by simp +contextual
  refine get?_eq (fun x hx => h.backsUp x (hmem x hx)) hchain (hbacksUp.sameDirectories hdisk) ?_
  -- a later change reaches the copy neither as its file, since the two are apart, nor as its
  -- own copy, since then it would change the same file
  intro x hx text' htext'
  obtain ⟨m, m', hm, hm', -⟩ := h.places (hmem x hx) htext'
  refine ⟨fun hplace' => h.apart x (hmem x hx) v hv (hplace'.trans hbackup.symm), ?_⟩
  intro hplace'
  obtain rfl : m' = l' := Option.some.inj (hm'.symm.trans hplace')
  have hsame : m = l := (backup_eq_iff hm hm' hloc hbackup).mp rfl
  refine List.filter_eq_nil_iff.mp hafter x hx (Visit.rewrites_eq_true_iff.mpr ⟨⟨text', htext'⟩, ?_⟩)
  rw [hm, hloc, hsame]

end BackedUp

namespace Options

open Disk

def rewrites (o : Options) (parse : Parser) (disk : Disk) (input path : String) : List Visit :=
  (o.visits parse disk input).filter (Visit.Rewrites parse disk path)

/-- After a run in place that keeps backups and ends well, the copy of a file that was changed
once holds what the file held before the run. The copy of a file that was changed more often
holds the text of the last change but one. Files that are neither changed nor copies stay as
they were. -/
theorem backup_holds_what_last_change_found (o : Options) (parse : Parser) (disk : Disk)
    (input : String) (hcode : (o.run parse disk input).code = 0) (houtput : o.output = .inPlace)
    (hbackup : o.keepsBackup = true) (hwrites : o.isDryRun = false)
    (hapart : ∀ v ∈ o.visits parse disk input, ∀ u ∈ o.visits parse disk input,
      disk.place? v.path ≠ disk.place? (u.path ++ ".orig")) :
    (∀ v ∈ o.visits parse disk input, ∀ text, v.newText? parse = some text →
      ∃ original kept, disk.readBytes v.path = .ok original ∧
        (o.run parse disk input).world.disk.readBytes (v.path ++ ".orig") = .ok kept ∧
        (∀ u, o.rewrites parse disk input v.path = [u] → kept = original) ∧
        ∀ earlier t u text', o.rewrites parse disk input v.path = earlier ++ [t, u] →
          t.newText? parse = some text' → kept = text'.toUTF8) ∧
    ∀ path, (∀ v ∈ o.visits parse disk input, ∀ text, v.newText? parse = some text →
        disk.place? v.path ≠ disk.place? path ∧
          disk.place? (v.path ++ ".orig") ≠ disk.place? path) →
      ∀ content, (o.run parse disk input).world.disk.readBytes path = .ok content ↔
        disk.readBytes path = .ok content := by
  obtain ⟨hchain, hsucceeds⟩ := chain_of_run_eq_zero hcode
  have hbacksUp : ∀ v ∈ o.visits parse disk input, v.BacksUp parse := by
    intro v hv
    obtain ⟨h₁, h₂, h₃⟩ := settings_of_mem_visits hv
    exact ⟨h₁.trans houtput, h₂.trans hbackup, h₃.trans hwrites, hsucceeds v hv⟩
  have h : BackedUp parse disk (o.visits parse disk input) (o.run parse disk input).world :=
    ⟨hchain, hbacksUp, hapart⟩
  have hplace := place?_congr (BackedUp.sameDirectories hbacksUp hchain fun _ => Iff.rfl)
  constructor
  · intro v hv text htext
    obtain ⟨loc, backup, hloc, hbackup, -⟩ := h.places hv htext
    obtain ⟨original, horiginal⟩ := h.exists_original hv htext hloc
    have hmem := Visit.mem_filter_rewrites hv htext disk
    obtain ⟨earlier, last, hlast⟩ :=
      (List.eq_nil_or_concat' _).resolve_left (List.ne_nil_of_mem hmem)
    obtain ⟨kept, hfound, hkept⟩ := h.get?_backup hv hloc hbackup hlast
    refine ⟨original, kept, readBytes_eq_ok_iff.mpr ⟨loc, hloc, horiginal⟩,
      readBytes_eq_ok_iff.mpr ⟨backup, hplace _ ▸ hbackup, hkept⟩, ?_, ?_⟩
    · intro u hu
      obtain rfl : last = u := by simpa using congrArg List.getLast? (hlast.symm.trans hu)
      have hfirst := h.get?_first hv hloc hu
      rw [hfound, horiginal] at hfirst
      exact Entry.file.inj (Option.some.inj hfirst)
    · intro earlier' t u text' hu htext'
      obtain rfl : last = u := by simpa using congrArg List.getLast? (hlast.symm.trans hu)
      have hnext := h.get?_next hv hloc hu htext'
      rw [hfound] at hnext
      exact Entry.file.inj (Option.some.inj hnext)
  · intro path hfree content
    simp only [readBytes_eq_ok_iff, ← hplace]
    refine exists_congr fun loc => and_congr_right fun hloc => ?_
    rw [BackedUp.get?_eq hbacksUp hchain (fun _ => Iff.rfl)]
    intro v hv text htext
    rw [← hloc]
    exact hfree v hv text htext

end Options

namespace Sample

def backingUp : Options :=
  { keepsBackup := true }

def twoSections (field field' : String) : String :=
  sectionText "Accessors" field ++ sectionText "Accessors" field'

end Sample

namespace Options

open Sample

/-- When two sections change a file, the text between the two changes is what is kept. -/
theorem second_change_replaces_backup :
    (backingUp.run pairParser pairDisk (twoSections "P::x" "P::y")).code = 0 ∧
      (backingUp.visits pairParser pairDisk (twoSections "P::x" "P::y")).map (·.path) =
        ["p.cpp", "p.cpp"] ∧
      pairDisk.readText "p.cpp" = .ok pairText ∧
      (backingUp.run pairParser pairDisk (twoSections "P::x" "P::y")).world.disk.readText
        "p.cpp.orig" = .ok pairTextX ∧
      pairText ≠ pairTextX := by
  decide +kernel

/-- The first section finds nothing to change. -/
theorem backup_of_single_change :
    (backingUp.run pairParser pairDisk (twoSections "P::z" "P::x")).code = 0 ∧
      ∃ original, pairDisk.readBytes "p.cpp" = .ok original ∧
        (backingUp.run pairParser pairDisk (twoSections "P::z" "P::x")).world.disk.readBytes
          "p.cpp.orig" = .ok original := by
  have hcode : (backingUp.run pairParser pairDisk (twoSections "P::z" "P::x")).code = 0 := by
    decide +kernel
  have hmap : (backingUp.visits pairParser pairDisk (twoSections "P::z" "P::x")).map
      (fun v => (v.path, v.newText? pairParser)) = [("p.cpp", none), ("p.cpp", some pairTextX)] := by
    decide +kernel
  obtain ⟨u, vs, hvisits, hu, hvs⟩ := List.map_eq_cons_iff.mp hmap
  obtain ⟨v, rfl, hv⟩ := List.map_eq_singleton_iff.mp hvs
  obtain ⟨hupath, hutext⟩ := Prod.mk.inj hu
  obtain ⟨hvpath, hvtext⟩ := Prod.mk.inj hv
  have hrewrites : backingUp.rewrites pairParser pairDisk (twoSections "P::z" "P::x") v.path
      = [v] := by
    simp [rewrites, hvisits, Visit.Rewrites, hutext, hvtext]
  have hplaces : pairDisk.place? "p.cpp" ≠ pairDisk.place? "p.cpp.orig" := by
    decide
  obtain ⟨original, kept, horiginal, hkept, hsame, -⟩ :=
    (backup_holds_what_last_change_found backingUp pairParser pairDisk (twoSections "P::z" "P::x")
      hcode rfl rfl rfl (by simp [hvisits, hupath, hvpath, hplaces])).1 v (by simp [hvisits])
      pairTextX hvtext
  rw [hvpath] at horiginal hkept
  exact ⟨hcode, original, horiginal, hsame v hrewrites ▸ hkept⟩

end Options

end Encapsulate
