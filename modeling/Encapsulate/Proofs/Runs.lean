import Encapsulate.CommandLine
import Encapsulate.Proofs.Disks
import Encapsulate.Proofs.Layout

/-!
Runs, file by file. A run takes up the files of one section after the other, and each
file finds what the files before it left. A section that cannot be set up ends the run,
so a run that fails as a whole leaves what the sections in front of that one left.
-/

namespace Encapsulate

open Cpp

/-- A file as it is taken up: for which job, and what the job acts on by then. -/
structure Visit where
  job : Job
  path : String
  world : World

namespace Visit

def report (parse : Parser) (v : Visit) : Except Error FileReport :=
  match v.world.disk.readText v.path with
  | .error e => .error (.io v.path e)
  | .ok source => v.job.transformSource parse v.world.disk v.path source

def newText? (parse : Parser) (v : Visit) : Option String :=
  match v.report parse with
  | .ok report => report.rewritten
  | .error _ => none

def result (parse : Parser) (v : Visit) : World × Except Error FileReport :=
  v.job.transformFile parse v.world v.path

def Succeeds (parse : Parser) (v : Visit) : Prop :=
  ∃ report, (v.result parse).2 = .ok report

variable {parse : Parser} {v : Visit}

theorem result_eq (parse : Parser) (v : Visit) :
    v.result parse = match v.report parse with
      | .error e => (v.world, .error e)
      | .ok report =>
        match report.rewritten with
        | none => (v.world, .ok report)
        | some text =>
          if v.job.isDryRun then (v.world, .ok report)
          else
            match v.job.deliver v.world v.path text with
            | (world, .ok ()) => (world, .ok report)
            | (world, .error e) => (world, .error e) := by
  unfold result Job.transformFile report
  cases v.world.disk.readText v.path <;> rfl

/-- A file without a new text is only read, and in a dry run so is every file. -/
theorem result_world (h : v.newText? parse = none ∨ v.job.isDryRun = true) :
    (v.result parse).1 = v.world := by
  rw [result_eq]
  unfold newText? at h
  cases hreport : v.report parse with
  | error e => rfl
  | ok report =>
    simp only [hreport] at h ⊢
    cases htext : report.rewritten with
    | none => rfl
    | some text =>
      simp only [htext, reduceCtorEq, false_or] at h
      simp only [h, if_true]

/-- Otherwise the new text is delivered. -/
theorem result_deliver {text : String} (h : v.newText? parse = some text)
    (hwrite : v.job.isDryRun = false) :
    (v.result parse).1 = (v.job.deliver v.world v.path text).1 ∧
      (v.Succeeds parse → (v.job.deliver v.world v.path text).2 = .ok ()) := by
  unfold Succeeds
  rw [result_eq]
  unfold newText? at h
  cases hreport : v.report parse with
  | error e => simp [hreport] at h
  | ok report =>
    simp only [hreport] at h
    simp only [h, hwrite, Bool.false_eq_true, if_false]
    rcases v.job.deliver v.world v.path text with ⟨world, e | ⟨⟩⟩ <;> simp

/-- Neither printing nor a file without a new text changes the disk. -/
theorem disk_result (h : v.newText? parse = none ∨ v.job.isDryRun = true ∨
    v.job.output = .print) : (v.result parse).1.disk = v.world.disk := by
  cases htext : v.newText? parse with
  | none => rw [result_world (Or.inl htext)]
  | some text =>
    cases hdry : v.job.isDryRun with
    | true => rw [result_world (Or.inr hdry)]
    | false =>
      simp only [htext, hdry, reduceCtorEq, Bool.false_eq_true, false_or] at h
      rw [(result_deliver htext hdry).1, Job.deliver, h]

/-- Visits one after the other, each from what the one before it left. -/
inductive Chain (parse : Parser) : World → List Visit → World → Prop
  | nil (world : World) : Chain parse world [] world
  | cons {v : Visit} {vs : List Visit} {world : World}
      (h : Chain parse (v.result parse).1 vs world) : Chain parse v.world (v :: vs) world

namespace Chain

variable {start stop middle : World} {us vs : List Visit}

theorem append (hus : Chain parse start us middle) (hvs : Chain parse middle vs stop) :
    Chain parse start (us ++ vs) stop := by
  induction hus with
  | nil => exact hvs
  | cons _ ih => exact .cons (ih hvs)

theorem split (h : Chain parse start (us ++ v :: vs) stop) :
    Chain parse start us v.world ∧ Chain parse (v.result parse).1 vs stop := by
  induction us generalizing start with
  | nil =>
    cases h with
    | cons h => exact ⟨.nil _, h⟩
  | cons u us ih =>
    cases h with
    | cons h =>
      obtain ⟨hus, hvs⟩ := ih h
      exact ⟨.cons hus, hvs⟩

/-- What every visit keeps, the whole run keeps. -/
theorem keeps {P : World → Prop} (h : Chain parse start vs stop)
    (hstep : ∀ v ∈ vs, P v.world → P (v.result parse).1) (hstart : P start) : P stop := by
  induction h with
  | nil => exact hstart
  | @cons v vs _ _ ih =>
    exact ih (fun u hu => hstep u (List.mem_cons_of_mem v hu))
      (hstep v List.mem_cons_self hstart)

end Chain

/-- Where one of the visits picked from a run stands in it. -/
theorem exists_split_of_filter {p : Visit → Bool} {vs earlier later : List Visit}
    (h : vs.filter p = earlier ++ v :: later) :
    ∃ before after, vs = before ++ v :: after ∧ p v = true ∧ after.filter p = later := by
  obtain ⟨front, rest, rfl, -, hrest⟩ := List.filter_eq_append_iff.mp h
  obtain ⟨middle, after, rfl, -, hv, hafter⟩ := List.filter_eq_cons_iff.mp hrest
  exact ⟨front ++ middle, after, (List.append_assoc _ _ _).symm, hv, hafter⟩

end Visit

namespace Job

def visits (job : Job) (parse : Parser) (world : World) : List String → List Visit
  | [] => []
  | path :: paths =>
    ⟨job, path, world⟩ :: job.visits parse (job.transformFile parse world path).1 paths

variable {job : Job} {parse : Parser} {world : World} {paths : List String}

theorem map_path_visits (job : Job) (parse : Parser) (world : World) (paths : List String) :
    (job.visits parse world paths).map (·.path) = paths := by
  induction paths generalizing world with
  | nil => rfl
  | cons path paths ih => simp [visits, ih]

theorem job_of_mem_visits {v : Visit} (h : v ∈ job.visits parse world paths) : v.job = job := by
  induction paths generalizing world with
  | nil => exact absurd h (by simp [visits])
  | cons path paths ih =>
    rcases List.mem_cons.mp h with rfl | h
    · rfl
    · exact ih h

theorem chain_visits (job : Job) (parse : Parser) (world : World) (paths : List String) :
    Visit.Chain parse world (job.visits parse world paths) (job.runFiles parse world paths).1 := by
  induction paths generalizing world with
  | nil => exact .nil world
  | cons path paths ih => exact .cons (v := ⟨job, path, world⟩) (ih _)

theorem succeeds_of_mem_visits (h : (job.runFiles parse world paths).2.errors = []) :
    ∀ v ∈ job.visits parse world paths, v.Succeeds parse := by
  induction paths generalizing world with
  | nil => simp [visits]
  | cons path paths ih =>
    simp only [runFiles, Summary.merge, List.append_eq_nil_iff] at h
    intro v hv
    rcases List.mem_cons.mp hv with rfl | hv
    · have hfirst := h.1
      unfold Visit.Succeeds Visit.result
      cases hresult : (job.transformFile parse world path).2 with
      | ok report => exact ⟨report, rfl⟩
      | error e =>
        rw [hresult] at hfirst
        exact absurd hfirst (by simp [Summary.ofFile])
    · exact ih h.2 v hv

end Job

namespace Options

/-- Whether a section has transforms and cannot be set up: its files cannot be told, or a
transform is unknown or has unfit parameters. -/
def CannotStart (o : Options) (disk : Disk) (s : Section) : Prop :=
  s.hasTransforms = true ∧
    ((∃ e, o.selectFiles disk s = .error e) ∨ ∃ e, o.jobOf s = .error e)

def sectionVisits (o : Options) (parse : Parser) (world : World) : List Section → List Visit
  | [] => []
  | s :: rest =>
    if !s.hasTransforms then sectionVisits o parse world rest
    else
      match o.selectFiles world.disk s, o.jobOf s with
      | .ok files, .ok job =>
        job.visits parse world files
          ++ sectionVisits o parse (job.runFiles parse world files).1 rest
      | _, _ => []

section Sections

variable (o : Options) (parse : Parser) (world : World) {s : Section}

theorem runSections_of_skipped (hs : s.hasTransforms = false) (rest : List Section) :
    o.runSections parse world (s :: rest) = o.runSections parse world rest ∧
      o.sectionVisits parse world (s :: rest) = o.sectionVisits parse world rest := by
  constructor
  · rw [runSections, hs]
    rfl
  · rw [sectionVisits, hs]
    rfl

theorem runSections_of_cannotStart (hs : o.CannotStart world.disk s) (rest : List Section) :
    (∃ e, o.runSections parse world (s :: rest) = (world, .error e)) ∧
      o.sectionVisits parse world (s :: rest) = [] := by
  obtain ⟨htransforms, ⟨e, he⟩ | ⟨e, he⟩⟩ := hs
  · constructor
    · exact ⟨e, by simp [runSections, htransforms, he]⟩
    · simp [sectionVisits, htransforms, he]
  · cases hfiles : o.selectFiles world.disk s with
    | error e =>
      constructor
      · exact ⟨e, by simp [runSections, htransforms, hfiles]⟩
      · simp [sectionVisits, htransforms, hfiles]
    | ok files =>
      constructor
      · exact ⟨e, by simp [runSections, htransforms, hfiles, he]⟩
      · simp [sectionVisits, htransforms, hfiles, he]

theorem runSections_of_started {files : List String} {job : Job}
    (htransforms : s.hasTransforms = true) (hfiles : o.selectFiles world.disk s = .ok files)
    (hjob : o.jobOf s = .ok job) (rest : List Section) :
    o.runSections parse world (s :: rest) =
        ((o.runSections parse (job.runFiles parse world files).1 rest).1,
          (o.runSections parse (job.runFiles parse world files).1 rest).2.map
            ((job.runFiles parse world files).2.merge ·)) ∧
      o.sectionVisits parse world (s :: rest) = job.visits parse world files
        ++ o.sectionVisits parse (job.runFiles parse world files).1 rest := by
  constructor
  · simp only [runSections, htransforms, hfiles, hjob, Bool.not_true, Bool.false_eq_true, if_false]
    rcases o.runSections parse (job.runFiles parse world files).1 rest with ⟨world', e | later⟩ <;>
      rfl
  · simp [sectionVisits, htransforms, hfiles, hjob]

/-- A section is passed over, cannot be set up, or is run. -/
theorem section_cases (s : Section) :
    s.hasTransforms = false ∨ o.CannotStart world.disk s ∨
      s.hasTransforms = true ∧ ∃ files job, o.selectFiles world.disk s = .ok files ∧
        o.jobOf s = .ok job := by
  cases htransforms : s.hasTransforms with
  | false => exact Or.inl rfl
  | true =>
    refine Or.inr ?_
    cases hfiles : o.selectFiles world.disk s with
    | error e => exact Or.inl ⟨htransforms, Or.inl ⟨e, hfiles⟩⟩
    | ok files =>
      cases hjob : o.jobOf s with
      | error e => exact Or.inl ⟨htransforms, Or.inr ⟨e, hjob⟩⟩
      | ok job => exact Or.inr ⟨rfl, files, job, rfl, rfl⟩

theorem chain_sectionVisits (sections : List Section) :
    Visit.Chain parse world (o.sectionVisits parse world sections)
      (o.runSections parse world sections).1 := by
  induction sections generalizing world with
  | nil => exact .nil world
  | cons s rest ih =>
    rcases section_cases o world s with hskip | hfaulty | ⟨htransforms, files, job, hfiles, hjob⟩
    · obtain ⟨hrun, hvisits⟩ := runSections_of_skipped o parse world hskip rest
      rw [hrun, hvisits]
      exact ih world
    · obtain ⟨⟨e, hrun⟩, hvisits⟩ := runSections_of_cannotStart o parse world hfaulty rest
      rw [hrun, hvisits]
      exact .nil world
    · obtain ⟨hrun, hvisits⟩ := runSections_of_started o parse world htransforms hfiles hjob rest
      rw [hrun, hvisits]
      exact (job.chain_visits parse world files).append (ih _)

/-- Every file is taken up as the options say. -/
theorem settings_of_mem_sectionVisits {sections : List Section} {v : Visit}
    (hv : v ∈ o.sectionVisits parse world sections) :
    v.job.output = o.output ∧ v.job.keepsBackup = o.keepsBackup ∧
      v.job.isDryRun = o.isDryRun := by
  induction sections generalizing world with
  | nil => exact absurd hv (by simp [sectionVisits])
  | cons s rest ih =>
    rcases section_cases o world s with hskip | hfaulty | ⟨htransforms, files, job, hfiles, hjob⟩
    · rw [(runSections_of_skipped o parse world hskip rest).2] at hv
      exact ih world hv
    · rw [(runSections_of_cannotStart o parse world hfaulty rest).2] at hv
      exact absurd hv (by simp)
    · rw [(runSections_of_started o parse world htransforms hfiles hjob rest).2] at hv
      rcases List.mem_append.mp hv with hv | hv
      · rw [Job.job_of_mem_visits hv]
        unfold jobOf at hjob
        cases hsection : Job.ofSection s with
        | error e => simp [hsection, Except.map] at hjob
        | ok plain =>
          rw [hsection] at hjob
          rw [← Except.ok.inj hjob]
          exact ⟨rfl, rfl, rfl⟩
      · exact ih _ hv

theorem succeeds_of_mem_sectionVisits {sections : List Section} {totals : Summary}
    (h : (o.runSections parse world sections).2 = .ok totals) (herrors : totals.errors = []) :
    ∀ v ∈ o.sectionVisits parse world sections, v.Succeeds parse := by
  induction sections generalizing world totals with
  | nil => simp [sectionVisits]
  | cons s rest ih =>
    rcases section_cases o world s with hskip | hfaulty | ⟨htransforms, files, job, hfiles, hjob⟩
    · obtain ⟨hrun, hvisits⟩ := runSections_of_skipped o parse world hskip rest
      rw [hrun] at h
      rw [hvisits]
      exact ih world h herrors
    · obtain ⟨⟨e, hrun⟩, -⟩ := runSections_of_cannotStart o parse world hfaulty rest
      rw [hrun] at h
      exact absurd h (by simp)
    · obtain ⟨hrun, hvisits⟩ := runSections_of_started o parse world htransforms hfiles hjob rest
      rw [hrun] at h
      rw [hvisits]
      cases hlater : (o.runSections parse (job.runFiles parse world files).1 rest).2 with
      | error e =>
        rw [hlater] at h
        exact absurd h (by simp [Except.map])
      | ok later =>
        rw [hlater] at h
        rw [← Except.ok.inj h] at herrors
        obtain ⟨hfirst, hrest⟩ := List.append_eq_nil_iff.mp herrors
        intro v hv
        rcases List.mem_append.mp hv with hv | hv
        · exact Job.succeeds_of_mem_visits hfirst v hv
        · exact ih _ hlater hrest v hv

/-- Sections fail as a whole at the first one that cannot be set up, and leave what those in
front of it left. -/
theorem exists_faulty_of_runSections {sections : List Section} {e : Error}
    (h : (o.runSections parse world sections).2 = .error e) :
    ∃ done faulty rest totals, sections = done ++ faulty :: rest ∧
      (o.runSections parse world done).2 = .ok totals ∧
      o.CannotStart (o.runSections parse world done).1.disk faulty ∧
      (o.runSections parse world sections).1 = (o.runSections parse world done).1 := by
  induction sections generalizing world with
  | nil => exact absurd h (by simp [runSections])
  | cons s rest ih =>
    rcases section_cases o world s with hskip | hfaulty | ⟨htransforms, files, job, hfiles, hjob⟩
    · have hrun := fun rest => (runSections_of_skipped o parse world hskip rest).1
      rw [hrun] at h
      obtain ⟨done, faulty, later, totals, rfl, hdone, hfaulty, hleft⟩ := ih world h
      refine ⟨s :: done, faulty, later, totals, rfl, ?_⟩
      rw [hrun, hrun]
      exact ⟨hdone, hfaulty, hleft⟩
    · obtain ⟨e', hrun⟩ := (runSections_of_cannotStart o parse world hfaulty rest).1
      exact ⟨[], s, rest, {}, rfl, rfl, hfaulty, by rw [hrun]; rfl⟩
    · have hrun := fun rest =>
        (runSections_of_started o parse world htransforms hfiles hjob rest).1
      rw [hrun] at h
      have hlater : (o.runSections parse (job.runFiles parse world files).1 rest).2 = .error e := by
        cases hresult : (o.runSections parse (job.runFiles parse world files).1 rest).2 with
        | error e' => simpa [hresult, Except.map] using h
        | ok later => simp [hresult, Except.map] at h
      obtain ⟨done, faulty, later, totals, rfl, hdone, hfaulty, hleft⟩ := ih _ hlater
      refine ⟨s :: done, faulty, later, (job.runFiles parse world files).2.merge totals, rfl, ?_⟩
      rw [hrun, hrun, hdone]
      exact ⟨rfl, hfaulty, hleft⟩

end Sections

/-- A run as a whole: what it leaves and its totals, of which there are none when the run
fails as a whole. -/
def outcome (o : Options) (parse : Parser) (disk : Disk) (input : String) :
    World × Option Summary :=
  match o.loadSections disk input with
  | .error _ | .ok [] => ({ disk }, none)
  | .ok sections =>
    ((o.runSections parse { disk } sections).1, (o.runSections parse { disk } sections).2.toOption)

theorem run_eq_outcome (o : Options) (parse : Parser) (disk : Disk) (input : String) :
    o.run parse disk input =
      ⟨match (o.outcome parse disk input).2 with
        | some totals => if totals.isSuccess then 0 else 1
        | none => 1, (o.outcome parse disk input).1⟩ := by
  unfold run outcome
  rcases o.loadSections disk input with e | ⟨⟩ | ⟨s, rest⟩
  · rfl
  · rfl
  · simp only
    rcases o.runSections parse { disk } (s :: rest) with ⟨world, e | totals⟩ <;> rfl

def visits (o : Options) (parse : Parser) (disk : Disk) (input : String) : List Visit :=
  match o.loadSections disk input with
  | .error _ => []
  | .ok sections => o.sectionVisits parse { disk } sections

/-- A run that ends well leaves what its visits leave, and each of them went well. -/
theorem chain_of_run_eq_zero {o : Options} {parse : Parser} {disk : Disk} {input : String}
    (h : (o.run parse disk input).code = 0) :
    Visit.Chain parse { disk } (o.visits parse disk input) (o.run parse disk input).world ∧
      ∀ v ∈ o.visits parse disk input, v.Succeeds parse := by
  rw [run_eq_outcome] at h ⊢
  unfold outcome visits at *
  rcases hload : o.loadSections disk input with e | ⟨⟩ | ⟨s, rest⟩
  · simp [hload] at h
  · simp [hload] at h
  · simp only [hload] at h ⊢
    refine ⟨chain_sectionVisits o parse { disk } (s :: rest), ?_⟩
    cases hresult : (o.runSections parse { disk } (s :: rest)).2 with
    | error e => simp [hresult, Except.toOption] at h
    | ok totals =>
      have herrors : totals.errors = [] := by
        simpa [hresult, Except.toOption, Summary.isSuccess] using h
      exact succeeds_of_mem_sectionVisits o parse { disk } hresult herrors

theorem settings_of_mem_visits {o : Options} {parse : Parser} {disk : Disk} {input : String}
    {v : Visit} (hv : v ∈ o.visits parse disk input) :
    v.job.output = o.output ∧ v.job.keepsBackup = o.keepsBackup ∧
      v.job.isDryRun = o.isDryRun := by
  unfold visits at hv
  split at hv
  · exact absurd hv (by simp)
  · exact settings_of_mem_sectionVisits o parse { disk } hv

/-- A run that fails as a whole changes nothing when its configuration is unusable. Else it
fails at the first section that cannot be set up, and leaves what the sections in front of
it left; these changed no file either if none of their files got a new text, in a dry run
and when new texts are printed. -/
theorem failed_run_keeps_earlier_sections (o : Options) (parse : Parser) (disk : Disk)
    (input : String) (hfail : (o.outcome parse disk input).2 = none) :
    (o.run parse disk input).code = 1 ∧
    (((∀ s rest, o.loadSections disk input ≠ .ok (s :: rest)) ∧
        (o.run parse disk input).world.disk = disk) ∨
      ∃ done faulty rest world totals,
        o.loadSections disk input = .ok (done ++ faulty :: rest) ∧
        o.runSections parse { disk } done = (world, .ok totals) ∧
        o.CannotStart world.disk faulty ∧ (o.run parse disk input).world = world ∧
        (o.isDryRun = true ∨ o.output = .print ∨
          (∀ v ∈ o.sectionVisits parse { disk } done, v.newText? parse = none) →
          world.disk = disk)) := by
  rw [run_eq_outcome]
  refine ⟨by rw [hfail], ?_⟩
  unfold outcome at hfail ⊢
  split at hfail
  · rename_i e hload
    exact Or.inl ⟨by simp [hload], rfl⟩
  · rename_i hload
    exact Or.inl ⟨by simp [hload], rfl⟩
  · rename_i sections hne hload
    refine Or.inr ?_
    cases hresult : (o.runSections parse { disk } sections).2 with
    | ok totals => simp [hresult, Except.toOption] at hfail
    | error e =>
      obtain ⟨done, faulty, rest, totals, rfl, hdone, hfaulty, hleft⟩ :=
        exists_faulty_of_runSections o parse { disk } hresult
      refine ⟨done, faulty, rest, _, totals, hload, Prod.ext rfl hdone, hfaulty, hleft, ?_⟩
      intro hunchanged
      refine (chain_sectionVisits o parse { disk } done).keeps (P := (·.disk = disk)) ?_ rfl
      intro v hv hdisk
      obtain ⟨houtput, -, hdry⟩ := settings_of_mem_sectionVisits o parse { disk } hv
      rw [← hdisk]
      refine Visit.disk_result ?_
      rw [houtput, hdry]
      rcases hunchanged with h | h | h
      · exact Or.inr (Or.inl h)
      · exact Or.inr (Or.inr h)
      · exact Or.inl (h v hv)

end Options

/-! A record with two fields in the file `p.cpp` -/

namespace Sample

open ParseTree

def pairText : String :=
  "struct P \x7b int x; int y; \x7d;\n"

def pairTextX : String :=
  "struct P \x7b int x; int y; const int &getX() const \x7b return x; \x7d "
    ++ "int &getX() \x7b return x; \x7d void setX(const int &_x) \x7b x = _x; \x7d \x7d;\n"

def pairTreeWith (stop : Nat) (members : List ParseTree) : ParseTree :=
  named "translation_unit" 0 (stop + 2)
    [named "struct_specifier" 0 stop
      [filling "name" "type_identifier" 7 8 [],
       filling "body" "field_declaration_list" 9 stop
        ([named "field_declaration" 11 17
            [filling "type" "primitive_type" 11 14 [],
             filling "declarator" "field_identifier" 15 16 []],
          named "field_declaration" 18 24
            [filling "type" "primitive_type" 18 21 [],
             filling "declarator" "field_identifier" 22 23 []]]
          ++ members ++ [mark none "\x7d" (stop - 1) stop])]]

def pairTree : ParseTree :=
  pairTreeWith 26 []

def pairTreeX : ParseTree :=
  pairTreeWith 127
    [named "function_definition" 25 62
      [named "type_qualifier" 25 30 [],
       filling "type" "primitive_type" 31 34 [],
       filling "declarator" "reference_declarator" 35 48
        [named "function_declarator" 36 48
          [filling "declarator" "field_identifier" 36 40 [],
           filling "parameters" "parameter_list" 40 42 [],
           named "type_qualifier" 43 48 []]],
       filling "body" "compound_statement" 49 62
        [named "return_statement" 51 60 [named "identifier" 58 59 []],
         mark none "\x7d" 61 62]],
     named "function_definition" 63 88
      [filling "type" "primitive_type" 63 66 [],
       filling "declarator" "reference_declarator" 67 74
        [named "function_declarator" 68 74
          [filling "declarator" "field_identifier" 68 72 [],
           filling "parameters" "parameter_list" 72 74 []]],
       filling "body" "compound_statement" 75 88
        [named "return_statement" 77 86 [named "identifier" 84 85 []],
         mark none "\x7d" 87 88]],
     named "function_definition" 89 125
      [filling "type" "primitive_type" 89 93 [],
       filling "declarator" "function_declarator" 94 113
        [filling "declarator" "field_identifier" 94 98 [],
         filling "parameters" "parameter_list" 98 113
          [named "parameter_declaration" 99 112
            [named "type_qualifier" 99 104 [],
             filling "type" "primitive_type" 105 108 [],
             filling "declarator" "reference_declarator" 109 112
              [named "identifier" 110 112 []]]]],
       filling "body" "compound_statement" 114 125
        [named "expression_statement" 116 123
          [named "assignment_expression" 116 122
            [filling "left" "identifier" 116 117 [],
             mark (some "operator") "=" 118 119,
             filling "right" "identifier" 120 122 []]],
         mark none "\x7d" 124 125]]]

def pairParser : Parser :=
  fun text => ⟨if text = pairText then pairTree else pairTreeX, false⟩

def pairDisk : Disk :=
  { entries := [(["p.cpp"], .file pairText.toUTF8)] }

def sectionText (transform field : String) : String :=
  "\x7b\"Files\": [\"p.cpp\"], \"Transforms\": \x7b\"" ++ transform ++ "\": [\"" ++ field
    ++ "\"]\x7d\x7d"

def faultyInput : String :=
  sectionText "Accessors" "P::x" ++ sectionText "Nope" "P::y"

end Sample

namespace Options

open Sample

theorem run_faultyInput :
    (outcome {} pairParser pairDisk faultyInput).2 = none ∧
      (run {} pairParser pairDisk faultyInput).world.disk.readText "p.cpp" = .ok pairTextX := by
  decide +kernel

/-- The run fails as a whole, and its first section has changed the file. -/
theorem earlier_section_stays_written :
    (outcome {} pairParser pairDisk faultyInput).2 = none ∧
      pairDisk.readText "p.cpp" = .ok pairText ∧
      (run {} pairParser pairDisk faultyInput).world.disk.readText "p.cpp" = .ok pairTextX ∧
      pairText ≠ pairTextX :=
  ⟨run_faultyInput.1, by decide, run_faultyInput.2, by decide⟩

theorem failed_run_keeps_first_section :
    (outcome {} pairParser pairDisk faultyInput).2 = none ∧
      ∃ done faulty rest world totals,
        loadSections {} pairDisk faultyInput = .ok (done ++ faulty :: rest) ∧
        runSections {} pairParser { disk := pairDisk } done = (world, .ok totals) ∧
        CannotStart {} world.disk faulty ∧ world.disk.readText "p.cpp" = .ok pairTextX := by
  refine ⟨run_faultyInput.1, ?_⟩
  have hload : (loadSections {} pairDisk faultyInput).toOption.map List.length = some 2 := by
    decide +kernel
  obtain ⟨-, ⟨hnone, -⟩ | ⟨done, faulty, rest, world, totals, hsections, hdone, hfaulty, hleft, -⟩⟩ :=
    failed_run_keeps_earlier_sections {} pairParser pairDisk faultyInput run_faultyInput.1
  · rcases hsections : loadSections {} pairDisk faultyInput with e | ⟨⟩ | ⟨s, rest⟩
    · simp [hsections, Except.toOption] at hload
    · simp [hsections, Except.toOption] at hload
    · exact absurd hsections (hnone s rest)
  · exact ⟨done, faulty, rest, world, totals, hsections, hdone, hfaulty,
      hleft ▸ run_faultyInput.2⟩

end Options

end Encapsulate
