import Encapsulate.Accessors.Member
import Encapsulate.Proofs.Boundaries
import Encapsulate.Proofs.Declarations
import Mathlib.Data.List.Induction

/-!
Where accessors are inserted. The three rules for the offset all stay between the braces
of the record that is found for a target. The record is looked up by the qualified name of
the one that declares the field, and records of one name stand apart. So the accessors of a
field land in its own record exactly when no other record of the name comes first.
-/

namespace Encapsulate

namespace Text

/-- The first character of a span is one of every span that goes on past it. -/
theorem mem_slice_of_head? {cs : List Char} {a b c d : Nat} {x : Char}
    (ha : isBoundary cs a = true) (hb : isBoundary cs b = true) (hc : isBoundary cs c = true)
    (hd : isBoundary cs d = true) (hab : a ≤ b) (hbc : b < c) (hcd : c ≤ d)
    (hx : (slice cs ⟨b, d⟩).head? = some x) : x ∈ slice cs ⟨a, c⟩ := by
  have hwidth : width (slice cs ⟨b, c⟩) = c - b := width_slice hb hc (Nat.le_of_lt hbc)
  rw [slice_append ha hb hc hab (Nat.le_of_lt hbc)]
  rw [slice_append hb hc hd (Nat.le_of_lt hbc) hcd] at hx
  cases hslice : slice cs ⟨b, c⟩ with
  | nil =>
    rw [hslice, width] at hwidth
    omega
  | cons y ys =>
    rw [hslice, List.cons_append, List.head?_cons] at hx
    rw [Option.some.inj hx]
    exact List.mem_append_right _ (List.mem_cons_self ..)

end Text

namespace Cpp

open Encapsulate.Tree ParseTree

/-- A name inside a scope is longer than that of the scope. -/
theorem Name.qualify_ne (path inner : List String) (name other : String) :
    Name.qualify (path ++ [name] ++ inner) other ≠ Name.qualify path name := by
  have hsplit : Name.qualify (path ++ [name] ++ inner) other =
      Name.qualify path name ++ "::" ++ Name.join (inner ++ [other]) := by
    rw [Name.qualify, List.append_assoc]
    exact String.intercalate_append_of_ne_nil (by simp) (by simp)
  intro heq
  have hlength := congrArg String.length heq
  have hseparator : "::".length = 2 := rfl
  rw [hsplit, String.length_append, String.length_append] at hlength
  omega

namespace ParseTree

def Opened (source : List Char) (t : ParseTree) : Prop :=
  DeclConstruct.ofKind t.kind = .record → ∀ body, field? "body" t.children = some body →
    (Text.slice source body.span).head? = some '\x7b' ∧
      ∀ c ∈ body.children, body.span.start < (ParseTree.span c).start

instance (source : List Char) (t : ParseTree) : Decidable (Opened source t) :=
  inferInstanceAs (Decidable (DeclConstruct.ofKind t.kind = .record →
    ∀ body ∈ field? "body" t.children, (Text.slice source body.span).head? = some '\x7b' ∧
      ∀ c ∈ body.children, body.span.start < (ParseTree.span c).start))

theorem Sound.of_mem {source : List Char} {t v : ParseTree} (h : Sound source t)
    (hv : v ∈ subtrees t) : Sound source v :=
  ⟨⟨h.tidy.orderly.of_mem hv, h.tidy.oneValue.of_mem hv⟩, h.onBoundary.of_mem hv,
    h.braced.of_mem hv⟩

/-- Every part of a tidy tree, the whole included, stands inside it. -/
theorem span_contains_of_mem_subtrees {t v : ParseTree} (h : Tidy t) (hv : v ∈ subtrees t) :
    t.span.contains v.span = true := by
  rw [← node_info_children t] at hv
  rcases mem_subtrees_node.mp hv with rfl | hv
  · rw [node_info_children]
    exact Span.contains_refl _
  · exact span_contains_of_mem_descendants h (mem_descendants.mpr hv)

end ParseTree

namespace Decl

def SpecifiedBy (source : List Char) (scope : List String) (t : ParseTree) (r : Record) : Prop :=
  DeclConstruct.ofKind t.kind = .record ∧ ∃ body ds, RecordOf source scope t body r ds

/-- What a tree gives in a scope: member functions and records that parts of it define, the
records in scopes inside the given one and those of one name apart from each other. -/
structure Outlined (source : List Char) (scope : List String) (t : ParseTree) (ms : List Method)
    (ds : List Decl) : Prop where
  method : ∀ m ∈ ms, ∃ v ∈ subtrees t, m.span = ParseTree.span v
  record : ∀ r ∈ recordsOf ds, ∃ v ∈ subtrees t, ∃ inner,
    SpecifiedBy source (scope ++ inner) v r
  apart : Tidy t → (recordsOf ds).Pairwise fun a b =>
    a.qualifiedName = b.qualifiedName → Span.Apart a.span b.span

namespace Outlined

variable {source : List Char} {scope : List String} {t v : ParseTree} {ms : List Method}
  {ds : List Decl}

theorem inside (h : Outlined source scope t ms ds) (ht : Tidy t) {r : Record}
    (hr : r ∈ recordsOf ds) : t.span.contains r.span = true := by
  obtain ⟨v, hv, inner, -, body, ds', hof⟩ := h.record r hr
  rw [hof.span_eq]
  exact span_contains_of_mem_subtrees ht hv

theorem up (h : Outlined source scope v ms ds) (hv : v ∈ descendants t) :
    Outlined source scope t ms ds := by
  refine ⟨?_, ?_, fun ht => h.apart (ht.of_mem_descendants hv)⟩
  · intro m hm
    obtain ⟨w, hw, hspan⟩ := h.method m hm
    exact ⟨w, mem_subtrees_of_mem_descendants hv hw, hspan⟩
  · intro r hr
    obtain ⟨w, hw, hspec⟩ := h.record r hr
    exact ⟨w, mem_subtrees_of_mem_descendants hv hw, hspec⟩

/-- No member functions, and the records of other declarations. -/
theorem congr {es : List Decl} (h : Outlined source scope t [] ds)
    (hr : recordsOf es = recordsOf ds) : Outlined source scope t [] es :=
  ⟨by simp, hr ▸ h.record, hr ▸ h.apart⟩

theorem ofChildren {l : List ParseTree} {m : ParseTree → List Method}
    {g : ParseTree → List Decl} (hl : l.Sublist t.children)
    (hg : ∀ c ∈ l, Outlined source scope c (m c) (g c)) :
    Outlined source scope t (l.flatMap m) (l.flatMap g) := by
  have hup : ∀ c ∈ l, Outlined source scope t (m c) (g c) :=
    fun c hc => (hg c hc).up (child_mem_descendants (hl.subset hc))
  refine ⟨?_, ?_, ?_⟩
  · intro x hx
    obtain ⟨c, hc, hxc⟩ := List.mem_flatMap.mp hx
    exact (hup c hc).method x hxc
  · intro r hr
    rw [recordsOf_flatMap] at hr
    obtain ⟨c, hc, hrc⟩ := List.mem_flatMap.mp hr
    exact (hup c hc).record r hrc
  · intro ht
    rw [recordsOf_flatMap]
    refine List.pairwise_flatMap.mpr ⟨fun c hc => (hg c hc).apart (ht.child (hl.subset hc)), ?_⟩
    refine (ht.here.apart.sublist hl).imp_of_mem ?_
    intro c d hc hd hcd a ha b hb _
    exact hcd.mono ((hg c hc).inside (ht.child (hl.subset hc)) ha)
      ((hg d hd).inside (ht.child (hl.subset hd)) hb)

/-- A record with what the items of its body give. The records inside it have longer
names. -/
theorem ofRecord {body : ParseTree} {r : Record}
    (hkind : DeclConstruct.ofKind t.kind = .record) (hof : RecordOf source scope t body r ds)
    (hds : Outlined source r.innerScope body r.methods ds) :
    Outlined source scope t [] [.record r ds] := by
  have hrecords : recordsOf [.record r ds] = r :: recordsOf ds := by
    simp [recordsOf, records]
  have hup := hds.up (child_mem_descendants (field?_mem hof.body_eq))
  refine ⟨by simp, ?_, ?_⟩
  · intro q hq
    rw [hrecords] at hq
    rcases List.mem_cons.mp hq with rfl | hq
    · exact ⟨t, self_mem_subtrees t, [], by rw [List.append_nil]; exact ⟨hkind, body, ds, hof⟩⟩
    · obtain ⟨v, hv, inner, hspec⟩ := hup.record q hq
      refine ⟨v, hv, [r.name] ++ inner, ?_⟩
      rwa [Record.innerScope, hof.scope_eq, List.append_assoc] at hspec
  · intro ht
    rw [hrecords]
    refine List.pairwise_cons.mpr ⟨?_, hup.apart ht⟩
    intro q hq hname
    obtain ⟨v, -, inner, -, body', ds', hof'⟩ := hup.record q hq
    rw [hof.qualifiedName_eq, hof'.qualifiedName_eq, Record.innerScope, hof.scope_eq] at hname
    exact absurd hname.symm (Name.qualify_ne _ _ _ _)

end Outlined

theorem kept_outlined (source : List Char) : Kept source (Outlined source) where
  up hv h := h.up hv
  children hl hg := Outlined.ofChildren hl hg
  methods hms h := ⟨fun m hm => ⟨_, self_mem_subtrees _, hms m hm⟩, h.record, h.apart⟩
  nest h := by
    refine ⟨by simp, ?_, ?_⟩
    · rw [recordsOf_nest]
      intro r hr
      obtain ⟨v, hv, inner, hspec⟩ := h.record r hr
      rw [List.append_assoc] at hspec
      exact ⟨v, hv, _, hspec⟩
    · rw [recordsOf_nest]
      exact h.apart
  record hkind _ hof hitems := by
    refine Outlined.ofRecord hkind hof ?_
    rw [hof.methods_eq, hof.decls_eq]
    exact Outlined.ofChildren (items_sublist _) hitems
  function _ := ⟨by simp, by simp [recordsOf, records], by simp [recordsOf, records]⟩
  declarators h := by
    refine h.congr ?_
    rw [recordsOf_append, (readDeclarators_empty ..).2, List.append_nil]

def HasBody (source : List Char) (t body : ParseTree) (r : Record) : Prop :=
  ∃ v ∈ subtrees t, DeclConstruct.ofKind (ParseTree.kind v) = .record ∧
    ∃ scope ds, RecordOf source scope v body r ds

/-- A record whose member functions stand between the braces of its body. -/
structure Enclosed (source : List Char) (body : ParseTree) (r : Record) : Prop where
  opening : (Text.slice source body.span).head? = some '\x7b'
  onBoundary : Text.isBoundary source body.span.start = true ∧
    Text.isBoundary source r.closeBrace = true ∧ Text.isBoundary source body.span.stop = true
  inside : r.span.start ≤ body.span.start ∧ body.span.start < r.closeBrace ∧
    r.closeBrace ≤ body.span.stop ∧ body.span.stop ≤ r.span.stop
  methods : ∀ m ∈ r.methods, body.span.start < m.span.stop ∧ m.span.stop ≤ r.closeBrace

/-- The closing brace is one of the body's own, after all of its items. -/
theorem enclosed {source : List Char} {t body : ParseTree} {r : Record}
    (hsound : Sound source t) (hopened : Everywhere (Opened source) t)
    (h : HasBody source t body r) : Enclosed source body r := by
  obtain ⟨v, hv, hkind, scope, ds, hof⟩ := h
  have hbody := field?_mem hof.body_eq
  have hsoundv := hsound.of_mem hv
  have hsoundb := hsoundv.child hbody
  have hin := hsoundv.tidy.here.inside body hbody
  obtain ⟨hbrace, hafter⟩ := hopened v hv hkind body hof.body_eq
  obtain ⟨brace, hmem, hbracekind, hitems⟩ := hsoundv.braced.here hkind body hof.body_eq
  obtain ⟨last, hlast, hoffset, hle⟩ := Placed.closeBrace_eq hsoundb.tidy hmem hbracekind
  have hlastin := hsoundb.tidy.here.inside last hlast
  have hlaststart := (hsoundb.tidy.child hlast).here.start_le
  have hlastafter := hafter last hlast
  rw [← hof.closeBrace_eq] at hoffset
  simp only [Span.contains_iff] at hin hlastin
  refine ⟨hbrace, ⟨hsoundb.onBoundary.here.1, ?_, hsoundb.onBoundary.here.2⟩, ?_, ?_⟩
  · rw [hoffset]
    exact (hsoundb.child hlast).onBoundary.here.1
  · rw [hof.span_eq]
    omega
  · intro m hm
    rw [hof.methods_eq] at hm
    obtain ⟨c, hc, hmc⟩ := List.mem_flatMap.mp hm
    have hchild := Code.mem_children_of_mem_items hc
    have hsoundc := hsoundb.child hchild
    obtain ⟨w, hw, hspan⟩ :=
      (((kept_outlined source).reads c).members r.asOwner).method m hmc
    have hwin := span_contains_of_mem_subtrees hsoundc.tidy hw
    have hwstart := (hsoundc.tidy.orderly.of_mem hw).here.start_le
    have hcstart := hafter c hchild
    have hcstop := hitems c hc
    simp only [Span.contains_iff] at hwin
    rw [hspan]
    omega

theorem hasBody_of_mem_records {path : String} {source : List Char} {parsed : Parsed} {r : Record}
    (hr : r ∈ (SourceFile.ofParsed path source parsed).records) :
    ∃ body, HasBody source parsed.tree body r := by
  obtain ⟨v, hv, inner, hkind, body, ds, hof⟩ :=
    ((kept_outlined source).ofParsed path parsed).record r hr
  exact ⟨body, v, hv, hkind, _, ds, hof⟩

/-- Different records of one name stand apart. -/
theorem apart_of_ne {path : String} {source : List Char} {parsed : Parsed} {q r : Record}
    (htidy : Tidy parsed.tree) (hq : q ∈ (SourceFile.ofParsed path source parsed).records)
    (hr : r ∈ (SourceFile.ofParsed path source parsed).records) (hne : q ≠ r)
    (hname : q.qualifiedName = r.qualifiedName) : Span.Apart q.span r.span := by
  have hsymm : Std.Symm fun a b : Record =>
      a.qualifiedName = b.qualifiedName → Span.Apart a.span b.span :=
    ⟨fun _ _ h hba => (h hba.symm).symm⟩
  exact (((kept_outlined source).ofParsed path parsed).apart htidy).forall hq hr hne hname

end Decl

end Cpp

namespace Accessors

open Cpp Encapsulate.Tree ParseTree

section Selecting

variable {wanted : List String} {o : Occurrence}

/-- Whether a field that is met after the given ones becomes a target: it is wanted, no
array, and all earlier fields of its name are arrays. -/
def Picks (wanted : List String) (before : List Occurrence) (o : Occurrence) : Prop :=
  o.field.qualifiedName ∈ wanted ∧ o.field.type.isArray = false ∧
    ∀ p ∈ before, p.field.qualifiedName = o.field.qualifiedName → p.field.type.isArray = true

def PickedFrom (wanted : List String) (os : List Occurrence) (o : Occurrence) : Prop :=
  ∃ before after, os = before ++ o :: after ∧ Picks wanted before o

theorem pickedFrom_concat {os : List Occurrence} {x : Occurrence} :
    PickedFrom wanted (os ++ [x]) o ↔ PickedFrom wanted os o ∨ (o = x ∧ Picks wanted os x) := by
  constructor
  · rintro ⟨before, after, heq, hpicks⟩
    rcases List.eq_nil_or_concat' after with rfl | ⟨init, last, rfl⟩
    · obtain ⟨rfl, hx⟩ := List.append_inj' heq rfl
      obtain ⟨rfl, -⟩ := List.cons.inj hx
      exact Or.inr ⟨rfl, hpicks⟩
    · have hsplit : os ++ [x] = (before ++ o :: init) ++ [last] := by simpa using heq
      exact Or.inl ⟨before, init, (List.append_inj' hsplit rfl).1, hpicks⟩
  · rintro (⟨before, after, rfl, hpicks⟩ | ⟨rfl, hpicks⟩)
    · exact ⟨before, after ++ [x], by simp, hpicks⟩
    · exact ⟨os, [], rfl, hpicks⟩

/-- Of the fields with a wanted name that are no arrays, the first becomes a target. -/
theorem exists_pickedFrom {os : List Occurrence} {p : Occurrence} (hp : p ∈ os)
    (hwanted : p.field.qualifiedName ∈ wanted) (harray : p.field.type.isArray = false) :
    ∃ o, PickedFrom wanted os o ∧ o.field.qualifiedName = p.field.qualifiedName := by
  have hsome : (os.find? fun q => q.field.qualifiedName == p.field.qualifiedName &&
      !q.field.type.isArray).isSome = true := by
    rw [List.find?_isSome]
    exact ⟨p, hp, by simp [harray]⟩
  obtain ⟨o, ho⟩ := Option.isSome_iff_exists.mp hsome
  obtain ⟨hprop, before, after, hos, hbefore⟩ := List.find?_eq_some_iff_append.mp ho
  simp only [Bool.and_eq_true, beq_iff_eq, Bool.not_eq_true'] at hprop
  refine ⟨o, ⟨before, after, hos, by rw [hprop.1]; exact hwanted, hprop.2, ?_⟩, hprop.1⟩
  intro q hq hname
  have hnot := hbefore q hq
  simpa [hname, hprop.1] using hnot

/-- One more field adds at most its own target. -/
theorem mem_targets_consider {s : Selection} {x : Occurrence} {t : Target} :
    t ∈ (Selection.consider wanted s x).targets ↔ t ∈ s.targets ∨
      (t = x.target ∧ x.field.qualifiedName ∈ wanted ∧
        s.contains x.field.qualifiedName = false ∧ x.field.type.isArray = false) := by
  rw [Selection.consider]
  by_cases hwanted : x.field.qualifiedName ∈ wanted
  · cases s.contains x.field.qualifiedName <;> cases x.field.type.isArray <;> simp [hwanted]
  · simp [hwanted]

/-- The targets after some fields. -/
theorem mem_targets_foldl {os : List Occurrence} {t : Target} :
    t ∈ (os.foldl (Selection.consider wanted) {}).targets ↔
      ∃ o, PickedFrom wanted os o ∧ t = o.target := by
  induction os using List.reverseRecOn generalizing t with
  | nil => simp [PickedFrom]
  | append_singleton os x ih =>
    rw [List.foldl_append, List.foldl_cons, List.foldl_nil, mem_targets_consider, ih]
    -- a name is known once a field of it has become a target
    have hknown : (os.foldl (Selection.consider wanted) {}).contains x.field.qualifiedName = true ↔
        ∃ o, PickedFrom wanted os o ∧ o.field.qualifiedName = x.field.qualifiedName := by
      simp only [Selection.contains, List.any_eq_true, ih, beq_iff_eq]
      constructor
      · rintro ⟨_, ⟨o, ho, rfl⟩, hname⟩
        exact ⟨o, ho, hname⟩
      · rintro ⟨o, ho, hname⟩
        exact ⟨_, ⟨o, ho, rfl⟩, hname⟩
    rw [← Bool.not_eq_true, hknown]
    constructor
    · rintro (⟨o, ho, rfl⟩ | ⟨rfl, hwanted, hnone, harray⟩)
      · exact ⟨o, pickedFrom_concat.mpr (Or.inl ho), rfl⟩
      · refine ⟨x, pickedFrom_concat.mpr (Or.inr ⟨rfl, hwanted, harray, ?_⟩), rfl⟩
        intro p hp hname
        by_contra hp'
        rw [Bool.not_eq_true] at hp'
        obtain ⟨o, ho, hsame⟩ := exists_pickedFrom hp (by rw [hname]; exact hwanted) hp'
        exact hnone ⟨o, ho, hsame.trans hname⟩
    · rintro ⟨o, ho, rfl⟩
      rcases pickedFrom_concat.mp ho with ho | ⟨rfl, hwanted, harray, hbefore⟩
      · exact Or.inl ⟨o, ho, rfl⟩
      · refine Or.inr ⟨rfl, hwanted, ?_, harray⟩
        rintro ⟨p, ⟨before, after, rfl, -, hp, -⟩, hname⟩
        have hisarray := hbefore p (by simp) hname
        rw [hp] at hisarray
        exact absurd hisarray (by simp)

def Selected (fields : List String) (u : SourceUnit) (o : Occurrence) : Prop :=
  PickedFrom (fields.map Name.withoutGlobal) (Occurrence.all u) o

theorem mem_targets_select {fields : List String} {u : SourceUnit} {t : Target} :
    t ∈ (select fields u).targets ↔ ∃ o, Selected fields u o ∧ t = o.target :=
  mem_targets_foldl

/-- A selected field of the primary file belongs to one of the records of the file. -/
theorem Selected.mem_records {fields : List String} {u : SourceUnit}
    (h : Selected fields u o) (howned : o.isOwned = true) :
    o.owner ∈ u.primary.records ∧ o.field ∈ o.owner.fields := by
  obtain ⟨before, after, hall, -⟩ := h
  have hmem : o ∈ Occurrence.all u := by rw [hall]; simp
  have ofFile : ∀ {isOwned file}, o ∈ Occurrence.ofFile isOwned file →
      o.isOwned = isOwned ∧ o.owner ∈ file.records ∧ o.field ∈ o.owner.fields := by
    intro isOwned file ho
    obtain ⟨r, hr, hfield⟩ := List.mem_flatMap.mp ho
    obtain ⟨f, hf, rfl⟩ := List.mem_map.mp hfield
    exact ⟨rfl, hr, hf⟩
  rcases List.mem_append.mp hmem with hmem | hmem
  · exact (ofFile hmem).2
  · obtain ⟨header, -, hheader⟩ := List.mem_flatMap.mp hmem
    rw [(ofFile hheader).1] at howned
    exact absurd howned (by simp)

end Selecting

/-- The offsets at which the accessors of a record's fields are inserted. -/
inductive InsertionPoint (source : List Char) (r : Record) : Nat → Prop
  | afterMethod {m : Method} (hlast : r.userMethods.getLast? = some m) :
      InsertionPoint source r m.span.stop
  | beforeBrace (hnone : r.userMethods = []) : InsertionPoint source r r.closeBrace
  | lineOfBrace (hnone : r.userMethods = []) (hblank : (Text.trim (Text.slice source
        ⟨Text.lineStart source r.closeBrace, r.closeBrace⟩)).isEmpty = true) :
      InsertionPoint source r (Text.lineStart source r.closeBrace)

/-- What is inserted for a target, and where. -/
theorem insertion_cases {file : SourceFile} {targets : List Target} {t : Target} {r : Record}
    {e : Edit} (h : insertion file targets (.ofTarget t r) = some e) :
    e.kind ≠ .replace ∧ e.span = .point e.offset ∧ InsertionPoint file.source r e.offset := by
  have hanchor : (AccessorSpec.ofTarget t r).anchor = .ofRecord r := rfl
  unfold insertion at h
  simp only [hanchor, Anchor.ofRecord] at h
  split at h
  · exact absurd h (by simp)
  · cases hlast : r.userMethods.getLast? with
    | some m =>
      simp only [hlast] at h
      have hpoint : InsertionPoint file.source r m.span.stop := .afterMethod hlast
      split at h <;> rw [← Option.some.inj h] <;>
        exact ⟨by simp [Edit.insertAfter], rfl, hpoint⟩
    | none =>
      simp only [hlast] at h
      have hnone := List.getLast?_eq_none_iff.mp hlast
      split at h
      · rename_i hblank
        rw [← Option.some.inj h]
        exact ⟨by simp [Edit.insertBefore], rfl, .lineOfBrace hnone hblank⟩
      · rw [← Option.some.inj h]
        exact ⟨by simp [Edit.insertBefore], rfl, .beforeBrace hnone⟩

/-- Each of these offsets lies between the braces of the record: a line on which only blanks
precede the closing brace starts after the opening one. -/
theorem InsertionPoint.inside {source : List Char} {body : ParseTree} {r : Record} {n : Nat}
    (h : InsertionPoint source r n) (hr : Decl.Enclosed source body r) :
    body.span.start < n ∧ n ≤ r.closeBrace := by
  cases h with
  | afterMethod hlast =>
    exact hr.methods _ (List.mem_of_mem_filter (List.mem_of_getLast? hlast))
  | beforeBrace hnone => exact ⟨hr.inside.2.1, Nat.le_refl _⟩
  | lineOfBrace hnone hblank =>
    obtain ⟨hstart, hclose, hstop⟩ := hr.onBoundary
    obtain ⟨hle, hline⟩ := Text.lineStart_boundary hclose
    refine ⟨?_, hle⟩
    by_contra hafter
    have hmem : '\x7b' ∈
        Text.slice source ⟨Text.lineStart source r.closeBrace, r.closeBrace⟩ :=
      Text.mem_slice_of_head? hline hstart hclose hstop (Nat.le_of_not_lt hafter)
        hr.inside.2.1 hr.inside.2.2.1 hr.opening
    have hbrace := Text.isBlank_of_trim hblank hmem
    exact absurd hbrace (by decide)

def insertionOf (file : SourceFile) (targets : List Target) (t : Target) : Option Edit :=
  (file.findRecord t.owner).bind fun r => insertion file targets (.ofTarget t r)

theorem insertions_eq (file : SourceFile) (targets : List Target) :
    insertions file targets =
      (targets.filter (·.isOwned)).filterMap (insertionOf file targets) := by
  rw [insertions, specs, ownedTargets, List.filterMap_map, List.filterMap_filterMap]
  congr 1
  funext t
  unfold insertionOf
  cases file.findRecord t.owner <;> rfl

/-- What is inserted for a field lies between the braces of the record found for it, so
between those of the record that declares the field exactly when this is the one found. -/
theorem offset_between_braces_iff {path : String} {source : List Char} {parsed : Parsed}
    (hsound : Sound source parsed.tree) (hopened : Everywhere (Opened source) parsed.tree)
    {targets : List Target} {t : Target} {r : Record} {body : ParseTree} {e : Edit}
    (hr : r ∈ (SourceFile.ofParsed path source parsed).records)
    (hbody : Decl.HasBody source parsed.tree body r) (howner : t.owner = r.qualifiedName)
    (he : insertionOf (.ofParsed path source parsed) targets t = some e) :
    (body.span.start < e.offset ∧ e.offset ≤ r.closeBrace) ↔
      (SourceFile.ofParsed path source parsed).findRecord r.qualifiedName = some r := by
  obtain ⟨q, hq, hinsertion⟩ := Option.bind_eq_some_iff.mp he
  rw [howner] at hq
  rw [hq, Option.some.injEq]
  have hpoint := (insertion_cases hinsertion).2.2
  constructor
  · intro hbetween
    by_contra hne
    -- the record that is found has the same name and stands apart
    obtain ⟨hmem, hname⟩ := SourceFile.mem_of_findRecord hq
    obtain ⟨body', hbody'⟩ := Decl.hasBody_of_mem_records hmem
    have hown := Decl.enclosed hsound hopened hbody
    have hother := Decl.enclosed hsound hopened hbody'
    have hin := hpoint.inside hother
    have hownin := hown.inside
    have hotherin := hother.inside
    rcases Decl.apart_of_ne hsound.tidy hmem hr hne hname with hbefore | hafter <;> omega
  · rintro rfl
    exact hpoint.inside (Decl.enclosed hsound hopened hbody)

/-- Every target is that of a selected field, and all that is inserted is inserted for one
target. The accessors of a field of the primary file lie between the braces of the record
that declares it exactly when this is the first record of its qualified name. -/
theorem accessors_in_record_iff (path : String) (source : List Char) (parsed : Parsed)
    (headers : List SourceFile) (fields : List String) (hsound : Sound source parsed.tree)
    (hopened : Everywhere (Opened source) parsed.tree) :
    let file := SourceFile.ofParsed path source parsed
    let targets := (select fields ⟨file, headers⟩).targets
    (∀ t, t ∈ targets ↔ ∃ o, Selected fields ⟨file, headers⟩ o ∧ t = o.target) ∧
    insertions file targets =
      (targets.filter (·.isOwned)).filterMap (insertionOf file targets) ∧
    ∀ o, Selected fields ⟨file, headers⟩ o → o.isOwned = true →
      o.owner ∈ file.records ∧ o.field ∈ o.owner.fields ∧
      ∃ body, Decl.HasBody source parsed.tree body o.owner ∧
        (Text.slice source body.span).head? = some '\x7b' ∧
        ∀ e, insertionOf file targets o.target = some e →
          ((body.span.start < e.offset ∧ e.offset ≤ o.owner.closeBrace) ↔
            file.findRecord o.owner.qualifiedName = some o.owner) := by
  intro file targets
  refine ⟨fun _ => mem_targets_select, insertions_eq file targets, ?_⟩
  intro o hselected howned
  obtain ⟨hrecord, hfield⟩ := hselected.mem_records howned
  obtain ⟨body, hbody⟩ := Decl.hasBody_of_mem_records hrecord
  refine ⟨hrecord, hfield, body, hbody, (Decl.enclosed hsound hopened hbody).opening, ?_⟩
  intro e he
  exact offset_between_braces_iff hsound hopened hrecord hbody rfl he

/-- Two records of one name in the branches of a condition:
`#if A`, `struct R { int x; };`, `#else`, `struct R { long y; };`, `#endif`. -/
def branchesText : List Char :=
  "#if A\nstruct R \x7b int x; \x7d;\n#else\nstruct R \x7b long y; \x7d;\n#endif\n".toList

def branchesTree : ParseTree :=
  named "translation_unit" 0 62
    [named "preproc_if" 0 61
      [filling "condition" "identifier" 4 5 [],
       named "struct_specifier" 6 25
        [filling "name" "type_identifier" 13 14 [],
         filling "body" "field_declaration_list" 15 25
          [named "field_declaration" 17 23
            [filling "type" "primitive_type" 17 20 [],
             filling "declarator" "field_identifier" 21 22 []],
           mark none "\x7d" 24 25]],
       filling "alternative" "preproc_else" 27 54
        [named "struct_specifier" 33 53
          [filling "name" "type_identifier" 40 41 [],
           filling "body" "field_declaration_list" 42 53
            [named "field_declaration" 44 51
              [filling "type" "sized_type_specifier" 44 48 [],
               filling "declarator" "field_identifier" 49 50 []],
             mark none "\x7d" 52 53]]]]]

def branchesFile : SourceFile :=
  .ofParsed "R" branchesText ⟨branchesTree, false⟩

def branchRecord (name type : String) (field span : Span) (closeBrace : Nat) : Record :=
  { kind := .structType, name := "R", qualifiedName := "R", scope := [], bases := []
    fields := [⟨name, "R::" ++ name, { base := type }, field⟩], methods := [], otherMembers := []
    span, closeBrace }

def branchField (name type : String) (field span : Span) (closeBrace : Nat) : Occurrence :=
  ⟨branchesFile, true, branchRecord name type field span closeBrace,
    ⟨name, "R::" ++ name, { base := type }, field⟩⟩

def firstField : Occurrence :=
  branchField "x" "int" ⟨17, 23⟩ ⟨6, 25⟩ 24

def secondField : Occurrence :=
  branchField "y" "long" ⟨44, 51⟩ ⟨33, 53⟩ 52

theorem all_branches : Occurrence.all ⟨branchesFile, []⟩ = [firstField, secondField] := by
  have hrecords : branchesFile.records = [firstField.owner, secondField.owner] := by
    decide
  rw [Occurrence.all, Occurrence.ofFile, hrecords]
  rfl

theorem selected_secondField {fields : List String}
    (h : "R::y" ∈ fields.map Name.withoutGlobal) :
    Selected fields ⟨branchesFile, []⟩ secondField := by
  refine ⟨[firstField], [], all_branches, h, rfl, ?_⟩
  intro p hp hname
  rw [List.mem_singleton.mp hp] at hname
  exact absurd hname (by decide)

/-- The accessors of `y` go to the record in front of the one that declares it. -/
theorem accessors_in_other_branch :
    Selected ["R::y"] ⟨branchesFile, []⟩ secondField ∧ secondField.isOwned = true ∧
      secondField.owner.span = ⟨33, 53⟩ ∧
      (insertionOf branchesFile (select ["R::y"] ⟨branchesFile, []⟩).targets
        secondField.target).map Edit.offset = some 24 :=
  ⟨selected_secondField (by decide), rfl, rfl, by decide⟩

/-- With both fields selected, the accessors of `x` and those of `y` all go to the first
record. -/
theorem accessors_in_record_iff_branches :
    let targets := (select ["R::x", "R::y"] ⟨branchesFile, []⟩).targets
    Sound branchesText branchesTree ∧ Everywhere (Opened branchesText) branchesTree ∧
      (∃ body e, Decl.HasBody branchesText branchesTree body firstField.owner ∧
        insertionOf branchesFile targets firstField.target = some e ∧
        body.span.start < e.offset ∧ e.offset ≤ firstField.owner.closeBrace) ∧
      ∃ body e, Decl.HasBody branchesText branchesTree body secondField.owner ∧
        insertionOf branchesFile targets secondField.target = some e ∧
        ¬ (body.span.start < e.offset ∧ e.offset ≤ secondField.owner.closeBrace) := by
  intro targets
  have hsound : Sound branchesText branchesTree := by decide
  have hopened : Everywhere (Opened branchesText) branchesTree := by decide
  have hfirst : Selected ["R::x", "R::y"] ⟨branchesFile, []⟩ firstField :=
    ⟨[], [secondField], all_branches, by decide, rfl, by simp⟩
  have hsecond : Selected ["R::x", "R::y"] ⟨branchesFile, []⟩ secondField :=
    selected_secondField (by decide)
  have hfound : branchesFile.findRecord "R" = some firstField.owner := by decide
  have hother : firstField.owner ≠ secondField.owner := by decide
  obtain ⟨-, -, hall⟩ := accessors_in_record_iff "R" branchesText ⟨branchesTree, false⟩ []
    ["R::x", "R::y"] hsound hopened
  have hinserted : ∀ o ∈ [firstField, secondField],
      (insertionOf branchesFile targets o.target).isSome = true := by
    decide
  obtain ⟨e, he⟩ := Option.isSome_iff_exists.mp (hinserted firstField (by simp))
  obtain ⟨d, hd⟩ := Option.isSome_iff_exists.mp (hinserted secondField (by simp))
  obtain ⟨-, -, body, hbody, -, hiff⟩ := hall firstField hfirst rfl
  obtain ⟨-, -, body', hbody', -, hiff'⟩ := hall secondField hsecond rfl
  refine ⟨hsound, hopened, ⟨body, e, hbody, he, (hiff e he).mpr hfound⟩,
    ⟨body', d, hbody', hd, fun hbetween => hother ?_⟩⟩
  exact Option.some.inj (hfound.symm.trans ((hiff' d hd).mp hbetween))

end Accessors

end Encapsulate
