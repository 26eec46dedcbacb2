import Encapsulate.Accessors.Transform
import Encapsulate.Proofs.Placement

/-!
Selection is decided by the fields of a unit and by which names are wanted. A wanted name
becomes a target if some field of this name is no array, and the first such field describes it;
the targets stand in the order of these fields. How the list of names is written, in which order,
how often and with or without a leading `::`, changes neither the targets nor the run.
-/

namespace Encapsulate.Accessors

open Cpp

def Occurrence.gives (name : String) (o : Occurrence) : Bool :=
  o.field.qualifiedName == name && !o.field.type.isArray

def HasField (file : SourceFile) (name : String) : Prop :=
  ∃ r ∈ file.records, ∃ f ∈ r.fields, f.qualifiedName = name ∧ f.type.isArray = false

def placeOf (os : List Occurrence) (name : String) : Nat :=
  os.findIdx (·.gives name)

section Finding

variable {wanted : List String} {os : List Occurrence} {o : Occurrence} {name : String}

theorem gives_iff : o.gives name = true ↔
    o.field.qualifiedName = name ∧ o.field.type.isArray = false := by
  simp [Occurrence.gives]

/-- The field that becomes a target is the first one that can. -/
theorem find?_of_pickedFrom (h : PickedFrom wanted os o) :
    os.find? (·.gives o.field.qualifiedName) = some o := by
  obtain ⟨before, after, rfl, -, harray, hbefore⟩ := h
  refine List.find?_eq_some_iff_append.mpr
    ⟨gives_iff.mpr ⟨rfl, harray⟩, before, after, rfl, fun p hp => ?_⟩
  rw [Bool.not_eq_true', ← Bool.not_eq_true, gives_iff]
  rintro ⟨hname, hnot⟩
  rw [hbefore p hp hname] at hnot
  exact absurd hnot (by simp)

theorem placeOf_lt_of_mem {t : Target}
    (ht : t ∈ (os.foldl (Selection.consider wanted) {}).targets) :
    placeOf os t.qualifiedName < os.length := by
  obtain ⟨o, hpicked, rfl⟩ := mem_targets_foldl.mp ht
  have hfind := find?_of_pickedFrom hpicked
  exact List.findIdx_lt_length_of_exists
    ⟨o, List.mem_of_find?_eq_some hfind, List.find?_some hfind⟩

theorem mem_ofFile {isOwned : Bool} {file : SourceFile} :
    o ∈ Occurrence.ofFile isOwned file ↔
      o.file = file ∧ o.isOwned = isOwned ∧ o.owner ∈ file.records ∧ o.field ∈ o.owner.fields := by
  simp only [Occurrence.ofFile, List.mem_flatMap, List.mem_map]
  constructor
  · rintro ⟨r, hr, f, hf, rfl⟩
    exact ⟨rfl, rfl, hr, hf⟩
  · rintro ⟨rfl, rfl, hr, hf⟩
    exact ⟨o.owner, hr, o.field, hf, rfl⟩

/-- A file declares a field of the name exactly if one of its fields can become the target. -/
theorem hasField_iff (isOwned : Bool) {file : SourceFile} :
    HasField file name ↔ ∃ o ∈ Occurrence.ofFile isOwned file, o.gives name = true := by
  constructor
  · rintro ⟨r, hr, f, hf, hgives⟩
    exact ⟨⟨file, isOwned, r, f⟩, mem_ofFile.mpr ⟨rfl, rfl, hr, hf⟩, gives_iff.mpr hgives⟩
  · rintro ⟨o, ho, hgives⟩
    obtain ⟨rfl, rfl, hr, hf⟩ := mem_ofFile.mp ho
    exact ⟨o.owner, hr, o.field, hf, gives_iff.mp hgives⟩

theorem exists_gives_iff {u : SourceUnit} :
    (∃ o ∈ Occurrence.all u, o.gives name = true) ↔ ∃ file ∈ u.files, HasField file name := by
  constructor
  · rintro ⟨o, ho, hgives⟩
    rcases List.mem_append.mp ho with ho | ho
    · exact ⟨u.primary, List.mem_cons_self, (hasField_iff true).mpr ⟨o, ho, hgives⟩⟩
    · obtain ⟨header, hheader, ho⟩ := List.mem_flatMap.mp ho
      exact ⟨header, List.mem_cons_of_mem _ hheader, (hasField_iff false).mpr ⟨o, ho, hgives⟩⟩
  · rintro ⟨file, hfile, hfield⟩
    rcases List.mem_cons.mp hfile with rfl | hheader
    · obtain ⟨o, ho, hgives⟩ := (hasField_iff true).mp hfield
      exact ⟨o, List.mem_append_left _ ho, hgives⟩
    · obtain ⟨o, ho, hgives⟩ := (hasField_iff false).mp hfield
      exact ⟨o, List.mem_append_right _ (List.mem_flatMap.mpr ⟨file, hheader, ho⟩), hgives⟩

/-- The primary file comes first, so the first field of a name belongs to it if any field does. -/
theorem isOwned_iff {u : SourceUnit} (h : (Occurrence.all u).find? (·.gives name) = some o) :
    o.isOwned = true ↔ HasField u.primary name := by
  rw [Occurrence.all, List.find?_append] at h
  cases hprimary : (Occurrence.ofFile true u.primary).find? (·.gives name) with
  | some p =>
    rw [hprimary, Option.some_or] at h
    obtain rfl := Option.some.inj h
    have hmem := List.mem_of_find?_eq_some hprimary
    exact iff_of_true (mem_ofFile.mp hmem).2.1
      ((hasField_iff true).mpr ⟨p, hmem, List.find?_some hprimary⟩)
  | none =>
    rw [hprimary, Option.none_or] at h
    obtain ⟨header, -, ho⟩ := List.mem_flatMap.mp (List.mem_of_find?_eq_some h)
    refine iff_of_false (by simp [(mem_ofFile.mp ho).2.1]) fun hfield => ?_
    obtain ⟨p, hp, hgives⟩ := (hasField_iff true).mp hfield
    exact List.find?_eq_none.mp hprimary p hp hgives

end Finding

section Ordering

theorem placeOf_concat (os : List Occurrence) (x : Occurrence) (name : String) :
    placeOf (os ++ [x]) name =
      if placeOf os name < os.length then placeOf os name else placeOf [x] name + os.length :=
  List.findIdx_append

/-- One more field either changes no target or becomes the target of a name that no field
before it could become. -/
theorem targets_concat (wanted : List String) (os : List Occurrence) (x : Occurrence) :
    let before := (os.foldl (Selection.consider wanted) {}).targets
    let after := ((os ++ [x]).foldl (Selection.consider wanted) {}).targets
    after = before ∨ (after = before ++ [x.target] ∧
      ∀ o ∈ os, o.gives x.field.qualifiedName = false) := by
  simp only [List.foldl_append, List.foldl_cons, List.foldl_nil]
  rw [Selection.consider]
  split
  · exact Or.inl rfl
  · rename_i hcondition
    split
    · exact Or.inl rfl
    · simp only [Bool.or_eq_true, Bool.not_eq_true', not_or, Bool.not_eq_false,
        List.contains_eq_mem, decide_eq_true_eq, Bool.not_eq_true] at hcondition
      obtain ⟨hwanted, hnew⟩ := hcondition
      refine Or.inr ⟨rfl, fun o ho => ?_⟩
      rw [← Bool.not_eq_true, gives_iff]
      rintro ⟨hname, harray⟩
      obtain ⟨p, hpicked, hsame⟩ := exists_pickedFrom ho (hname ▸ hwanted) harray
      have hmem := mem_targets_foldl.mpr ⟨p, hpicked, rfl⟩
      refine List.any_eq_false.mp hnew _ hmem (beq_iff_eq.mpr ?_)
      exact hsame.trans hname

/-- The targets stand in the order of the fields that describe them. -/
theorem targets_pairwise (wanted : List String) (os : List Occurrence) :
    (os.foldl (Selection.consider wanted) {}).targets.Pairwise fun s t =>
      placeOf os s.qualifiedName < placeOf os t.qualifiedName := by
  induction os using List.reverseRecOn with
  | nil => exact .nil
  | append_singleton os x ih =>
    have hkept : ∀ t ∈ (os.foldl (Selection.consider wanted) {}).targets,
        placeOf (os ++ [x]) t.qualifiedName = placeOf os t.qualifiedName :=
      fun t ht => by rw [placeOf_concat, if_pos (placeOf_lt_of_mem ht)]
    have hbefore := ih.imp_of_mem fun hs ht hlt => by rwa [← hkept _ hs, ← hkept _ ht] at hlt
    rcases targets_concat wanted os x with hsame | ⟨hmore, hnone⟩
    · rw [hsame]
      exact hbefore
    · rw [hmore]
      refine List.pairwise_append.mpr ⟨hbefore, List.pairwise_singleton _ _, ?_⟩
      intro s hs t ht
      obtain rfl := List.mem_singleton.mp ht
      have hlength : placeOf os x.target.qualifiedName = os.length :=
        List.findIdx_eq_length_of_false hnone
      have hlast : os.length ≤ placeOf (os ++ [x]) x.target.qualifiedName := by
        rw [placeOf_concat, if_neg (Nat.not_lt.mpr (Nat.le_of_eq hlength.symm))]
        exact Nat.le_add_left _ _
      rw [hkept s hs]
      exact Nat.lt_of_lt_of_le (placeOf_lt_of_mem hs) hlast

end Ordering

section Wanting

variable {fields others : List String}

/-- Which names are wanted is all that selection takes from the list of names. -/
theorem select_congr (h : ∀ name, name ∈ fields.map Name.withoutGlobal ↔
    name ∈ others.map Name.withoutGlobal) (u : SourceUnit) : select fields u = select others u := by
  have hconsider : Selection.consider (fields.map Name.withoutGlobal) =
      Selection.consider (others.map Name.withoutGlobal) := by
    funext s o
    have hcontains : (fields.map Name.withoutGlobal).contains o.field.qualifiedName =
        (others.map Name.withoutGlobal).contains o.field.qualifiedName := by
      simp only [List.contains_eq_mem, h]
    rw [Selection.consider, Selection.consider, hcontains]
  rw [select, select, hconsider]

theorem run_congr (h : ∀ name, name ∈ fields.map Name.withoutGlobal ↔
    name ∈ others.map Name.withoutGlobal) (scope : UsageScope) (u : SourceUnit) :
    run { fields, scope } u = run { fields := others, scope } u := by
  simp only [run, select_congr h u]
  rfl

end Wanting

/-- The targets of a unit are exactly the wanted names, without leading `::`, under which some
record of a file declares a field that is no array. Each is described by the first such field,
the primary file before its headers, and is owned exactly if the primary file has one; and they
stand in the order of these fields. Lists that want the same names give the same targets and the
same run. -/
theorem targets_are_first_fields (fields : List String) (u : SourceUnit) :
    let targets := (select fields u).targets
    (∀ name, name ∈ targets.map (·.qualifiedName) ↔
      name ∈ fields.map Name.withoutGlobal ∧ ∃ file ∈ u.files, HasField file name) ∧
    (∀ t ∈ targets, ∃ o, (Occurrence.all u).find? (·.gives t.qualifiedName) = some o ∧
      t = o.target ∧ (t.isOwned = true ↔ HasField u.primary t.qualifiedName)) ∧
    targets.Pairwise (fun s t => placeOf (Occurrence.all u) s.qualifiedName <
      placeOf (Occurrence.all u) t.qualifiedName) ∧
    ∀ others : List String, (∀ name, name ∈ fields.map Name.withoutGlobal ↔
        name ∈ others.map Name.withoutGlobal) →
      select others u = select fields u ∧
        ∀ scope, run { fields := others, scope } u = run { fields, scope } u := by
  intro targets
  refine ⟨fun name => ?_, fun t ht => ?_, targets_pairwise _ _, fun others h => ?_⟩
  · rw [← exists_gives_iff, List.mem_map]
    constructor
    · rintro ⟨t, ht, rfl⟩
      obtain ⟨o, hpicked, rfl⟩ := mem_targets_select.mp ht
      have hfind := find?_of_pickedFrom hpicked
      obtain ⟨before, after, -, hwanted, -⟩ := hpicked
      exact ⟨hwanted, o, List.mem_of_find?_eq_some hfind, List.find?_some hfind⟩
    · rintro ⟨hwanted, o, ho, hgives⟩
      obtain ⟨rfl, harray⟩ := gives_iff.mp hgives
      obtain ⟨p, hpicked, hname⟩ := exists_pickedFrom ho hwanted harray
      exact ⟨p.target, mem_targets_select.mpr ⟨p, hpicked, rfl⟩, hname⟩
  · obtain ⟨o, hpicked, rfl⟩ := mem_targets_select.mp ht
    have hfind := find?_of_pickedFrom hpicked
    exact ⟨o, hfind, rfl, isOwned_iff hfind⟩
  · exact ⟨(select_congr h u).symm, fun scope => (run_congr h scope u).symm⟩

def fieldFile (path : String) (isArray : Bool) : SourceFile :=
  { path, source := [], includes := [], hasErrors := false
    decls := [.record
      { kind := .structType, name := "R", qualifiedName := "R", scope := [], bases := []
        fields := [⟨"x", "R::x", { base := "int", isArray }, ⟨0, 0⟩⟩], methods := []
        otherMembers := [], span := ⟨0, 0⟩, closeBrace := 0 } []] }

/-- Behind an array in the primary file, the field of a header is selected, and it does not
matter that the name is written twice and once with a leading `::`. -/
theorem targets_are_first_fields_header :
    let u : SourceUnit := ⟨fieldFile "main.cpp" true, [fieldFile "r.h" false]⟩
    (∃ t ∈ (select ["R::x"] u).targets, t.qualifiedName = "R::x" ∧ t.isOwned = false) ∧
    (∀ name, name ∈ ["R::x"].map Name.withoutGlobal ↔
      name ∈ ["::R::x", "R::x"].map Name.withoutGlobal) ∧
    select ["::R::x", "R::x"] u = select ["R::x"] u ∧
    run { fields := ["::R::x", "R::x"] } u = run { fields := ["R::x"] } u := by
  intro u
  obtain ⟨hkeys, hdescribed, -, hothers⟩ := targets_are_first_fields ["R::x"] u
  have hheader : HasField (fieldFile "r.h" false) "R::x" :=
    ⟨_, List.mem_singleton_self _, _, List.mem_singleton_self _, rfl, rfl⟩
  obtain ⟨t, ht, hname⟩ := List.mem_map.mp ((hkeys "R::x").mpr
    ⟨by decide, fieldFile "r.h" false, by simp [u, SourceUnit.files], hheader⟩)
  obtain ⟨o, -, -, howned⟩ := hdescribed t ht
  have hprimary : ¬ HasField u.primary t.qualifiedName := by
    rintro ⟨r, hr, f, hf, -, harray⟩
    obtain rfl := List.mem_singleton.mp hr
    obtain rfl := List.mem_singleton.mp hf
    exact absurd harray (by decide)
  have honce : ["R::x"].map Name.withoutGlobal = ["R::x"] := by decide
  have htwice : ["::R::x", "R::x"].map Name.withoutGlobal = ["R::x", "R::x"] := by decide
  have hnames : ∀ name, name ∈ ["R::x"].map Name.withoutGlobal ↔
      name ∈ ["::R::x", "R::x"].map Name.withoutGlobal := by
    simp [honce, htwice]
  obtain ⟨hselect, hrun⟩ := hothers _ hnames
  exact ⟨⟨t, ht, hname, Bool.eq_false_iff.mpr fun h => hprimary (howned.mp h)⟩, hnames, hselect,
    hrun .all⟩

end Encapsulate.Accessors
