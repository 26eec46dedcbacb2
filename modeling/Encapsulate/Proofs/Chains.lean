import Encapsulate.Proofs.Confinement
import Encapsulate.Proofs.Coverage
import Encapsulate.Proofs.Naming
import Encapsulate.Proofs.Placement

/-!
Chains of member accesses. Each link of a chain is an access whose object is the chain below
it, and any of the links may reach a target. A link that does is replaced as a whole, with the
text of the chain below it rendered first, so that one replacement is left however many links
are rewritten: the outermost one's. The text of the chain is that of its object with one piece
for each link, the call of a getter or what was written.
-/

namespace Encapsulate

namespace Cpp

/-! Names of fields -/

/-- What stands behind the last colon of a text is known from the text. -/
theorem eq_of_append_colon {as bs xs ys : List Char} (h : as ++ ':' :: xs = bs ++ ':' :: ys)
    (hxs : ':' ∉ xs) (hys : ':' ∉ ys) : xs = ys := by
  rcases List.append_eq_append_iff.mp h with ⟨gap, -, hgap⟩ | ⟨gap, -, hgap⟩
  · cases gap with
    | nil => exact (List.cons.inj hgap).2
    | cons c gap =>
      obtain ⟨-, hxs'⟩ := List.cons.inj hgap
      rw [hxs'] at hxs
      exact absurd (by simp) hxs
  · cases gap with
    | nil => exact (List.cons.inj hgap).2.symm
    | cons c gap =>
      obtain ⟨-, hys'⟩ := List.cons.inj hgap
      rw [hys'] at hys
      exact absurd (by simp) hys

theorem Decl.mem_recordsOf {r : Record} {ds : List Decl} :
    r ∈ recordsOf ds ↔ ∃ d ∈ ds, r ∈ records d := by
  induction ds with
  | nil => simp [recordsOf]
  | cons d ds ih => simp [recordsOf, ih]

theorem Decl.exists_within_of_mem_records {r : Record} (d : Decl) (hr : r ∈ records d) :
    ∀ {path owner ds}, d ∈ ds → ∃ p o inner, Within path owner ds p o (.record r inner) := by
  induction d using inductionOn with
  | space name inner ih =>
    intro path owner ds hd
    rw [records] at hr
    obtain ⟨e, he, hre⟩ := mem_recordsOf.mp hr
    obtain ⟨p, o, inside, hwithin⟩ := ih e he hre he
    exact ⟨p, o, inside, .space hd hwithin⟩
  | record q inner ih =>
    intro path owner ds hd
    rw [records] at hr
    rcases List.mem_cons.mp hr with rfl | hr
    · exact ⟨path, owner, inner, .here hd⟩
    · obtain ⟨e, he, hre⟩ := mem_recordsOf.mp hr
      obtain ⟨p, o, inside, hwithin⟩ := ih e he hre he
      exact ⟨p, o, inside, .record hd hwithin⟩
  | function f => simp [records] at hr
  | global scope b => simp [records] at hr

/-- The qualified name of a field is that of its record with the field's name behind it. -/
theorem SourceFile.qualifiedName_field {path : String} {source : List Char} {parsed : Parsed}
    {r : Record} {f : Field} (hr : r ∈ (SourceFile.ofParsed path source parsed).records)
    (hf : f ∈ r.fields) : f.qualifiedName = r.qualifiedName ++ "::" ++ f.name := by
  obtain ⟨d, hd, hrd⟩ := Decl.mem_recordsOf.mp hr
  obtain ⟨p, o, inner, hwithin⟩ := Decl.exists_within_of_mem_records d hrd hd
  have hfollows : Decl.Follows source parsed.tree [] none
      (SourceFile.ofParsed path source parsed).decls :=
    Decl.follows_readItems (fun c _ => Decl.readsFollow source c) []
  exact (hfollows _ _ _ hwithin).2.2 f hf

/-- The files of a unit are read from trees, and no field is declared under a qualified name,
which the grammar does not allow. -/
structure SourceUnit.PlainFields (u : SourceUnit) : Prop where
  parsed : ∀ file ∈ u.files, ∃ path source parsed, file = .ofParsed path source parsed
  plain : ∀ file ∈ u.files, ∀ r ∈ file.records, ∀ f ∈ r.fields, ':' ∉ f.name.toList

/-- The grammar gives a field no qualified name. -/
theorem SourceUnit.PlainFields.of_parsed {u : SourceUnit}
    (h : ∀ file ∈ u.files, ∃ path source parsed, file = .ofParsed path source parsed ∧
      Tree.Everywhere (ParseTree.PlainlyNamed source) parsed.tree) : u.PlainFields := by
  constructor
  · intro file hfile
    obtain ⟨path, source, parsed, heq, -⟩ := h file hfile
    exact ⟨path, source, parsed, heq⟩
  · intro file hfile r hr f hf
    obtain ⟨path, source, parsed, rfl, hplain⟩ := h file hfile
    exact SourceFile.colon_notMem_name hplain hr hf

/-- In such a unit the qualified name of a field determines its name. -/
theorem SourceUnit.PlainFields.name_eq {u : SourceUnit} (h : u.PlainFields)
    {a b : SourceFile} (ha : a ∈ u.files) (hb : b ∈ u.files) {r q : Record} (hr : r ∈ a.records)
    (hq : q ∈ b.records) {f g : Field} (hf : f ∈ r.fields) (hg : g ∈ q.fields)
    (heq : f.qualifiedName = g.qualifiedName) : f.name = g.name := by
  have hname : ∀ {file} {r : Record} {f : Field}, file ∈ u.files → r ∈ file.records →
      f ∈ r.fields →
      f.qualifiedName.toList = (r.qualifiedName.toList ++ [':']) ++ ':' :: f.name.toList := by
    intro file r f hfile hr hf
    obtain ⟨path, source, parsed, rfl⟩ := h.parsed file hfile
    rw [SourceFile.qualifiedName_field hr hf, String.toList_append, String.toList_append]
    simp
  have hlists := congrArg String.toList heq
  rw [hname ha hr hf, hname hb hq hg] at hlists
  exact String.toList_injective
    (eq_of_append_colon hlists (h.plain a ha r hr f hf) (h.plain b hb q hq g hg))

namespace ClassIndex

theorem mem_records_ofUnit {u : SourceUnit} {r : Record} (h : r ∈ (ofUnit u).records) :
    ∃ file ∈ u.files, r ∈ file.records := by
  have hfold : ∀ (rs : List Record) (index : ClassIndex),
      r ∈ (rs.foldl insertNew index).records → r ∈ index.records ∨ r ∈ rs := by
    intro rs
    induction rs with
    | nil => exact fun index hr => Or.inl hr
    | cons q rs ih =>
      intro index hr
      rcases ih (index.insertNew q) hr with hr | hr
      · unfold insertNew at hr
        split at hr
        · exact Or.inl hr
        · rcases List.mem_append.mp hr with hr | hr
          · exact Or.inl hr
          · rw [List.mem_singleton.mp hr]
            exact Or.inr List.mem_cons_self
      · exact Or.inr (List.mem_cons_of_mem _ hr)
  rcases hfold _ _ h with hnone | hr
  · exact absurd hnone (by simp)
  · exact List.mem_flatMap.mp hr

/-- What a search finds is picked from one of the records. -/
theorem mem_of_search {α : Type} {index : ClassIndex} {pick : Record → Option α} {steps : Nat}
    {name : String} {r : Record} {a : α} (h : index.search pick steps name = some (r, a)) :
    r ∈ index.records ∧ pick r = some a := by
  induction steps generalizing name with
  | zero =>
    rw [search] at h
    split at h
    · exact absurd h (by simp)
    · rename_i q hq
      split at h
      · rename_i b hb
        obtain ⟨rfl, rfl⟩ := Prod.mk.inj (Option.some.inj h)
        exact ⟨List.mem_of_find?_eq_some hq, hb⟩
      · exact absurd h (by simp)
  | succ steps ih =>
    rw [search] at h
    split at h
    · exact absurd h (by simp)
    · rename_i q hq
      split at h
      · rename_i b hb
        obtain ⟨rfl, rfl⟩ := Prod.mk.inj (Option.some.inj h)
        exact ⟨List.mem_of_find?_eq_some hq, hb⟩
      · obtain ⟨base, -, hbase⟩ := List.exists_of_findSome?_eq_some h
        obtain ⟨next, -, hnext⟩ := Option.bind_eq_some_iff.mp hbase
        exact ih hnext

theorem mem_of_lookupField {index : ClassIndex} {record field : String} {r : Record} {f : Field}
    (h : index.lookupField record field = some (r, f)) :
    r ∈ index.records ∧ f ∈ r.fields ∧ f.name = field := by
  obtain ⟨hr, hf⟩ := mem_of_search h
  exact ⟨hr, List.mem_of_find?_eq_some hf, by simpa using List.find?_some hf⟩

end ClassIndex

end Cpp

namespace Accessors

open Cpp Encapsulate.Tree

def NamesTargets (setting : Setting) : Prop :=
  ∀ t ∈ setting.targets, ∀ r ∈ setting.symbols.index.records, ∀ f ∈ r.fields,
    f.qualifiedName = t.qualifiedName → f.name = t.name

/-- Every occurrence of a field is one of a record of some file. -/
theorem exists_file_of_mem_all {u : SourceUnit} {o : Occurrence} (h : o ∈ Occurrence.all u) :
    ∃ file ∈ u.files, o.owner ∈ file.records ∧ o.field ∈ o.owner.fields := by
  have ofFile : ∀ {isOwned file}, o ∈ Occurrence.ofFile isOwned file →
      o.owner ∈ file.records ∧ o.field ∈ o.owner.fields := by
    intro isOwned file ho
    obtain ⟨r, hr, hfield⟩ := List.mem_flatMap.mp ho
    obtain ⟨f, hf, rfl⟩ := List.mem_map.mp hfield
    exact ⟨hr, hf⟩
  rcases List.mem_append.mp h with h | h
  · exact ⟨u.primary, List.mem_cons_self, ofFile h⟩
  · obtain ⟨header, hheader, h⟩ := List.mem_flatMap.mp h
    exact ⟨header, List.mem_cons_of_mem _ hheader, ofFile h⟩

theorem namesTargets_ofUnit {fields : List String} {u : SourceUnit} (h : u.PlainFields) :
    NamesTargets (.ofUnit fields u) := by
  intro t ht r hr f hf heq
  obtain ⟨o, hselected, rfl⟩ := mem_targets_select.mp ht
  obtain ⟨file, hfile, hr⟩ := ClassIndex.mem_records_ofUnit hr
  obtain ⟨before, after, hall, -⟩ := hselected
  have hmem : o ∈ Occurrence.all u := by rw [hall]; simp
  obtain ⟨other, hother, howner, hfield⟩ := exists_file_of_mem_all hmem
  exact h.name_eq hfile hother hr howner hf hfield heq

/-- An access that reaches a target is named like it. -/
theorem usage_of_member {setting : Setting} (hnames : NamesTargets setting) {env : Env}
    {i : CodeNode} {c : Code} {isArrow : Bool} {field : String}
    (hi : i.shape = .member isArrow field) {u : Usage}
    (h : usage? setting env (.node i [c]) = some u) :
    u.isArrow = isArrow ∧ u.base = c ∧ u.target.name = field := by
  have hp : i.isParen = false := by simp [CodeNode.isParen, hi]
  simp only [usage?, Code.unparen, Tree.skip, hp, Bool.false_eq_true, if_false, hi,
    Option.bind_eq_some_iff, Option.map_eq_some_iff] at h
  obtain ⟨f, hresolve, target, htarget, rfl⟩ := h
  refine ⟨rfl, rfl, ?_⟩
  simp only [Env.resolveMember, Code.shape, info_node, hi, Option.bind_eq_some_iff,
    Option.map_eq_some_iff, Prod.exists] at hresolve
  obtain ⟨record, -, owner, g, hlookup, rfl⟩ := hresolve
  obtain ⟨howner, hg, hname⟩ := ClassIndex.mem_of_lookupField hlookup
  have hqualified : target.qualifiedName = g.qualifiedName := by
    simpa using List.find?_some htarget
  rw [← hname]
  exact (hnames target (List.mem_of_find?_eq_some htarget) owner howner g hg hqualified.symm).symm

/-! Code without usages -/

section Unused

variable {setting : Setting}

theorem ownSite_of_unused {env : Env} {c : Code}
    (hnone : ∀ t ∈ subtrees (survey setting.symbols env c).1, isUsage setting t = false)
    (held : Bool) (ancestors : List CodeNode) :
    ownSite setting held ancestors (survey setting.symbols env c).1 = none := by
  have hunused : ¬ ∃ t ∈ subtrees (survey setting.symbols env c).1, isUsage setting t = true := by
    rintro ⟨t, ht, husage⟩
    rw [hnone t ht] at husage
    exact absurd husage (by simp)
  have hwrite : write? setting (survey setting.symbols env c).1 = none := by
    rw [Option.eq_none_iff_forall_ne_some]
    rintro ⟨u, operation⟩ hwrite
    exact hunused (exists_isUsage_of_write? hwrite)
  have hread : read? setting (survey setting.symbols env c).1 = none := by
    rw [Option.eq_none_iff_forall_ne_some]
    intro u hread
    unfold read? at hread
    split at hread
    · obtain ⟨i, cs⟩ := c
      rw [info_survey, code_survey] at hread
      exact hunused (exists_isUsage_of_usage? hread)
    · exact absurd hread (by simp)
  simp only [ownSite, hwrite, hread, Option.map_none, ite_self]

/-- A search comes to no usage in code that has none. -/
theorem gather_of_unused (c : Code) {env : Env}
    (hnone : ∀ t ∈ subtrees (survey setting.symbols env c).1, isUsage setting t = false)
    (held : Bool) (ancestors : List CodeNode) :
    gather setting held ancestors (survey setting.symbols env c).1 = [] := by
  induction c using Tree.inductionOn generalizing env held ancestors with
  | h i cs ih =>
    have hown := ownSite_of_unused hnone held ancestors
    obtain ⟨parts, heq, hforall⟩ := survey_parts setting.symbols env i cs
    rw [heq] at hown hnone ⊢
    have hfrom : ∀ (ts : List SurveyedCode) (held : Nat → Bool) (n : Nat), (∀ t ∈ ts, t ∈ parts) →
        gatherFrom setting held n (i :: ancestors) ts = [] := by
      intro ts
      induction ts with
      | nil => exact fun _ _ _ => rfl
      | cons t ts ihts =>
        intro held n hts
        obtain ⟨ht, hlater⟩ := List.forall_mem_cons.mp hts
        obtain ⟨c, hc, env', rfl⟩ := exists_of_mem_parts hforall ht
        have hfirst := ih c hc (fun r hr =>
          hnone r (mem_subtrees_node.mpr (Or.inr ⟨_, ht, hr⟩))) (held n) (i :: ancestors)
        rw [gatherFrom, hfirst, ihts held (n + 1) hlater]
        rfl
    rw [gather, hown, hfrom parts _ 0 fun t ht => ht]
    rfl

/-- Where no usage is come to, no read is counted. -/
theorem reads_execAll {as : List Action} (h : sitesOf as = []) (s : Scan) :
    (execAll setting as s).stats.reads = s.stats.reads := by
  induction as generalizing s with
  | nil => rfl
  | cons a as ih =>
    rw [sitesOf, List.append_eq_nil_iff] at h
    rw [execAll, ih h.2]
    cases a with
    | unresolved span field objectClass =>
      unfold Action.exec Scan.reportUnresolved
      split <;> rfl
    | escape offset target how => rfl
    | site x base right inRight => cases right <;> exact absurd h.1 (by simp [Action.sites])
    | close depth stop =>
      unfold Action.exec Scan.close
      split <;> rfl

/-- What a visit of code that lies on a span comes to: at most one replacement is queued, from
the start of the span on, and the span has the text `text` once it is made. -/
inductive Gives (source : List Char) (span : Span) : EditQueue → List Char → Prop
  | kept : Gives source span [] (Text.slice source span)
  | replaced {stop : Nat} {text : String} (hle : span.start ≤ stop) (hge : stop ≤ span.stop)
      (hstop : Text.isBoundary source stop = true) :
      Gives source span [.replace ⟨span.start, stop⟩ text]
        (text.toList ++ Text.slice source ⟨stop, span.stop⟩)

/-- The outcome of a visit: what is queued, and how many reads are counted. -/
structure Yields (source : List Char) (span : Span) (text : List Char) (reads : Nat)
    (s s' : Scan) : Prop where
  queue : ∃ new, s'.queue = s.queue ++ new ∧ Gives source span new text
  reads : s'.stats.reads = s.stats.reads + reads
  closings : ∀ c ∈ s'.closings, c ∈ s.closings

/-- Code without usages is left as it is. -/
theorem yields_of_unused {c : Code} (hfull : Everywhere Code.Full c)
    (ancestors : List CodeNode) {s : Scan} (hopen : OpenAround ancestors s)
    (hnone : ∀ t ∈ subtrees (survey setting.symbols s.env c).1, isUsage setting t = false) :
    Yields setting.file.source c.span (Text.slice setting.file.source c.span) 0 s
      (visit setting ancestors c s) := by
  have hsites : sitesOf (acts setting ancestors (survey setting.symbols s.env c).1) = [] := by
    rw [(lists_survey setting c hfull s.env).sites]
    exact gather_of_unused c hnone _ _
  have hvisit : visit setting ancestors c s =
      { execAll setting (acts setting ancestors (survey setting.symbols s.env c).1) s with
        env := (survey setting.symbols s.env c).2 } :=
    (visitPerforms setting c hfull).1 s.env ancestors s
  obtain ⟨new, hadds⟩ :=
    ((isFramed setting (survey setting.symbols s.env c).1).acts ancestors).adds setting s
  rw [hsites] at hadds
  have hnew : new = [] := by
    refine List.eq_nil_iff_forall_not_mem.mpr fun e he => ?_
    by_cases hkind : e.kind = .replace
    · obtain ⟨x, hx, -⟩ := hadds.replaces e he hkind
      exact absurd hx (by simp)
    · obtain ⟨-, x, hx, -⟩ := hadds.inserts hopen e he hkind
      exact absurd hx (by simp)
  rw [hvisit]
  refine ⟨⟨[], ?_, .kept⟩, ?_, ?_⟩
  · rw [← hnew]
    exact hadds.queue
  · exact reads_execAll hsites s
  · intro x hx
    rcases hadds.closings hopen x hx with hold | ⟨-, -, -, -, -, -, y, hy, -⟩
    · exact hold
    · exact absurd hy (by simp)

end Unused

/-! Chains -/

namespace Gives

variable {source : List Char} {span : Span} {new : EditQueue} {text : List Char}

/-- More text behind the span is kept. -/
theorem extend (h : Gives source span new text) (hstart : Text.isBoundary source span.start = true)
    (hend : Text.isBoundary source span.stop = true) (hle : span.start ≤ span.stop) {stop : Nat}
    (hstop : Text.isBoundary source stop = true) (hfar : span.stop ≤ stop) :
    Gives source ⟨span.start, stop⟩ new (text ++ Text.slice source ⟨span.stop, stop⟩) := by
  cases h with
  | kept =>
    rw [← Text.slice_append hstart hend hstop hle hfar]
    exact .kept
  | @replaced mid replacement hmid hmid' hboundary =>
    rw [List.append_assoc, ← Text.slice_append hboundary hend hstop hmid' hfar]
    exact @replaced _ ⟨span.start, stop⟩ _ _ hmid (Nat.le_trans hmid' hfar) hboundary

/-- The edits lie inside the span. -/
theorem partition_eq (h : Gives source span new text) : new.partition span = (new, []) := by
  cases h with
  | kept => rfl
  | @replaced stop replacement hle hge _ =>
    have hinside : Edit.isInside span (.replace ⟨span.start, stop⟩ replacement) = true := by
      show span.contains ⟨span.start, stop⟩ = true
      rw [Span.contains_iff]
      exact ⟨Nat.le_refl _, hge⟩
    simp [EditQueue.partition, List.partition_eq_filter_filter, hinside]

/-- The edits can be made, and give the text. -/
theorem apply_eq (h : Gives source span new text)
    (hstart : Text.isBoundary source span.start = true)
    (hend : Text.isBoundary source span.stop = true) (hle : span.start ≤ span.stop) :
    new.apply (Text.slice source span) span.start = .ok text := by
  cases h with
  | kept => simp [EditQueue.apply, EditQueue.ordered, EditQueue.spliceFrom]
  | @replaced stop replacement hmid hmid' hboundary =>
    have hwidth := Text.width_slice hstart hend hle
    have hfits : EditQueue.fits (Text.slice source span) span.start
        (.replace ⟨span.start, stop⟩ replacement) = true := by
      have hfirst := Text.isBoundary_zero (Text.slice source span)
      have hlast := Text.isBoundary_slice hstart hend hboundary hmid hmid'
      simp only [EditQueue.fits, Edit.replace, Nat.sub_self, hfirst, hlast, hwidth,
        Bool.and_true, Nat.le_refl, decide_true, Bool.true_and, decide_eq_true_eq]
      omega
    have hrest : Text.sliceFrom (Text.slice source span) (stop - span.start) =
        Text.slice source ⟨stop, span.stop⟩ := by
      have hsplit := Text.slice_append hstart hboundary hend hmid hmid'
      have hfront : Text.width (Text.slice source ⟨span.start, stop⟩) = stop - span.start :=
        Text.width_slice hstart hboundary hmid
      have hdrop : Text.dropBytes (stop - span.start) (Text.slice source span) =
          some (Text.slice source ⟨stop, span.stop⟩) :=
        Text.dropBytes_eq_some_iff.mpr ⟨_, hsplit, hfront⟩
      rw [Text.sliceFrom, hdrop, Option.getD_some]
    have hall : Text.sliceFrom (Text.slice source span) 0 = Text.slice source span := by
      rw [Text.sliceFrom, Text.dropBytes_zero, Option.getD_some]
    have hnothing : Text.takeBytes 0 (Text.slice source span) = [] :=
      Text.takeBytes_width [] _
    have hordered : EditQueue.ordered [.replace ⟨span.start, stop⟩ replacement] =
        [.replace ⟨span.start, stop⟩ replacement] := by
      simp [EditQueue.ordered]
    rw [EditQueue.apply, hordered, EditQueue.spliceFrom, hfits]
    simp only [EditQueue.collides, Edit.replace, Nat.sub_self, hnothing, hall, hrest,
      EditQueue.spliceFrom, List.nil_append, Except.map]
    rfl

end Gives

section Chain

variable {setting : Setting}

/-- Rendering a part whose visit queues at most one replacement gives its text and hands
nothing on. -/
theorem render_of_yields {span : Span} {text : List Char} {reads : Nat} {f : Scan → Scan} {s : Scan}
    (hstart : Text.isBoundary setting.file.source span.start = true)
    (hend : Text.isBoundary setting.file.source span.stop = true) (hle : span.start ≤ span.stop)
    (h : Yields setting.file.source span text reads { s with queue := [] }
      (f { s with queue := [] })) :
    s.render setting span f =
      ({ f { s with queue := [] } with queue := s.queue }, String.ofList text) := by
  obtain ⟨new, hqueue, hgives⟩ := h.queue
  rw [List.nil_append] at hqueue
  simp only [Scan.render, hqueue, hgives.partition_eq, hgives.apply_eq hstart hend hle,
    List.append_nil]

/-- An object with accesses around it, the innermost first, each the object of the next. -/
def chain (base : Code) (links : List CodeNode) : Code :=
  links.foldl (fun c link => .node link [c]) base

/-- What stands behind the object `c` for the access `link` to it: the call of the getter, if a
target is reached, and what was written otherwise. -/
def linkText (setting : Setting) (env : Env) (c : Code) (link : CodeNode) : String :=
  match usage? setting env (.node link [c]), link.shape with
  | some _, .member isArrow field => (if isArrow then "->" else ".") ++ Name.getter field ++ "()"
  | _, _ => setting.file.text ⟨c.span.stop, link.span.stop⟩

def linkTexts (setting : Setting) (env : Env) (c : Code) : List CodeNode → List String
  | [] => []
  | link :: links => linkText setting env c link :: linkTexts setting env (.node link [c]) links

def targetedLinks (setting : Setting) (env : Env) (c : Code) : List CodeNode → Nat
  | [] => 0
  | link :: links =>
    (usage? setting env (.node link [c])).isSome.toNat
      + targetedLinks setting env (.node link [c]) links

theorem chain_concat (base : Code) (links : List CodeNode) (link : CodeNode) :
    chain base (links ++ [link]) = .node link [chain base links] := by
  rw [chain, List.foldl_append]
  rfl

theorem linkTexts_concat (env : Env) (c : Code) (links : List CodeNode) (link : CodeNode) :
    linkTexts setting env c (links ++ [link]) =
      linkTexts setting env c links ++ [linkText setting env (chain c links) link] := by
  induction links generalizing c with
  | nil => rfl
  | cons first links ih =>
    rw [List.cons_append, linkTexts, ih, linkTexts, List.cons_append]
    rfl

theorem targetedLinks_concat (env : Env) (c : Code) (links : List CodeNode) (link : CodeNode) :
    targetedLinks setting env c (links ++ [link]) = targetedLinks setting env c links +
      (usage? setting env (.node link [chain c links])).isSome.toNat := by
  induction links generalizing c with
  | nil => exact Nat.add_comm _ _
  | cons first links ih =>
    rw [List.cons_append, targetedLinks, ih, targetedLinks, Nat.add_assoc]
    rfl

/-- How a chain lies in the text: every access is a member access that starts with its
object, as the grammar has it. -/
structure IsChain (source : List Char) (base : Code) (links : List CodeNode) : Prop where
  laid : Everywhere (Laid source) (chain base links)
  members : ∀ link ∈ links, ∃ isArrow field, link.shape = .member isArrow field
  starts : ∀ link ∈ links, link.span.start = base.span.start

namespace IsChain

variable {source : List Char} {base : Code} {links : List CodeNode} {link : CodeNode}

theorem init (h : IsChain source base (links ++ [link])) : IsChain source base links := by
  refine ⟨?_, fun l hl => h.members l (List.mem_append_left _ hl),
    fun l hl => h.starts l (List.mem_append_left _ hl)⟩
  have hlaid := h.laid
  rw [chain_concat] at hlaid
  exact hlaid.child (List.mem_singleton_self _)

theorem start_eq (h : IsChain source base links) :
    (chain base links).span.start = base.span.start := by
  induction links using List.reverseRecOn with
  | nil => rfl
  | append_singleton links link _ =>
    rw [chain_concat]
    exact h.starts link (List.mem_append_right _ (List.mem_singleton_self _))

/-- In code of a grammatical tree each access starts with its object. -/
theorem of_produced (hproduced : Everywhere Produced (chain base links))
    (hlaid : Everywhere (Laid source) (chain base links))
    (hmembers : ∀ link ∈ links, ∃ isArrow field, link.shape = .member isArrow field) :
    IsChain source base links := by
  refine ⟨hlaid, hmembers, ?_⟩
  induction links using List.reverseRecOn with
  | nil => exact fun link hlink => absurd hlink List.not_mem_nil
  | append_singleton links link ih =>
    rw [chain_concat] at hproduced hlaid
    have hobject := List.mem_singleton_self (chain base links)
    have hbelow : IsChain source base links :=
      ⟨hlaid.child hobject, fun l hl => hmembers l (List.mem_append_left _ hl),
        ih (hproduced.child hobject) (hlaid.child hobject)
          fun l hl => hmembers l (List.mem_append_left _ hl)⟩
    intro l hl
    rcases List.mem_append.mp hl with hl | hl
    · exact hbelow.starts l hl
    · obtain ⟨isArrow, field, hlink⟩ := hmembers link (by simp)
      rw [List.mem_singleton.mp hl, ← hbelow.start_eq]
      exact (hproduced.here.object isArrow field hlink _ hobject).symm

end IsChain

/-- The read of a link that reaches a target: the link is replaced by the text of its object
with the call of the getter behind it. -/
theorem yields_targeted (hnames : NamesTargets setting) {link : CodeNode} {c : Code}
    {isArrow : Bool} {field : String} (hlink : link.shape = .member isArrow field)
    (hlaid : Everywhere (Laid setting.file.source) (.node link [c])) {ancestors : List CodeNode}
    {s : Scan} {u : Usage} (hu : usage? setting s.env (.node link [c]) = some u)
    {text : List Char} {reads : Nat}
    (hc : Yields setting.file.source c.span text reads { s with queue := [] }
      (visit setting (link :: ancestors) c { s with queue := [] })) :
    Yields setting.file.source link.span
      (text ++ ((if isArrow then "->" else ".") ++ Name.getter field ++ "()").toList) (reads + 1) s
      (visit setting ancestors (.node link [c]) s) := by
  obtain ⟨harrow, hbase, hname⟩ := usage_of_member hnames hlink hu
  have hobject := (hlaid.child (List.mem_singleton_self c)).here
  have hall : visitAll setting (link :: ancestors) [c] = visit setting (link :: ancestors) c := by
    funext r
    rw [visitAll, visitAll]
  have hrender := render_of_yields hobject.start hobject.stop hobject.start_le hc
  have hvisit : visit setting ancestors (.node link [c]) s =
      s.rewriteSite setting link ancestors u .read (visitAll setting (link :: ancestors) [c])
        none := by
    rw [visit]
    simp only [hlink, hu, Shape.sort]
  have hnote : s.noteDuplicate setting link.span.start u .read = s := by
    simp [Scan.noteDuplicate, Operation.duplicatesBase]
  have hread : ∀ reason,
      strategyAt setting.file.source link ancestors .read ≠ .refuse reason := by
    intro reason
    simp [strategyAt, Strategy.choose]
  have hqueue : visit setting ancestors (.node link [c]) s =
      { visit setting (link :: ancestors) c { s with queue := [] } with
        queue := s.queue ++ [.replace link.span (String.ofList text
          ++ (if isArrow then "->" else ".") ++ Name.getter field ++ "()")]
        stats :=
          { (visit setting (link :: ancestors) c { s with queue := [] }).stats with
            reads := (visit setting (link :: ancestors) c
              { s with queue := [] }).stats.reads + 1 } } := by
    rw [hvisit, hall, Scan.rewriteSite_of_rewrite hread, hnote, hbase, harrow, hname, hrender]
    rfl
  have hend : Text.slice setting.file.source ⟨link.span.stop, link.span.stop⟩ = [] := by
    have hstop : Text.isBoundary setting.file.source link.span.stop = true := hlaid.here.stop
    have hwidth : Text.width (Text.slice setting.file.source ⟨link.span.stop, link.span.stop⟩) =
        link.span.stop - link.span.stop := Text.width_slice hstop hstop (Nat.le_refl _)
    rw [Nat.sub_self] at hwidth
    exact Text.width_eq_zero_iff.mp hwidth
  have hgives := @Gives.replaced setting.file.source link.span link.span.stop
    (String.ofList text ++ (if isArrow then "->" else ".") ++ Name.getter field ++ "()")
    hlaid.here.start_le (Nat.le_refl _) hlaid.here.stop
  rw [hend, List.append_nil] at hgives
  rw [hqueue]
  refine ⟨⟨_, rfl, ?_⟩, ?_, hc.closings⟩
  · simpa [String.toList_append, List.append_assoc] using hgives
  · show _ + 1 = _
    rw [hc.reads]
    exact Nat.add_assoc _ _ _

/-- A link that reaches no target is kept as it was written. -/
theorem yields_kept {link : CodeNode} {c : Code} {isArrow : Bool} {field : String}
    (hlink : link.shape = .member isArrow field)
    (hlaid : Everywhere (Laid setting.file.source) (.node link [c]))
    (hstart : c.span.start = link.span.start) {ancestors : List CodeNode} {s : Scan}
    (hu : usage? setting s.env (.node link [c]) = none) {text : List Char} {reads : Nat}
    (hc : ∀ s' : Scan, s'.env = s.env → s'.closings = s.closings →
      Yields setting.file.source c.span text reads s' (visit setting (link :: ancestors) c s')) :
    Yields setting.file.source link.span
      (text ++ Text.slice setting.file.source ⟨c.span.stop, link.span.stop⟩) reads s
      (visit setting ancestors (.node link [c]) s) := by
  have hobject := (hlaid.child (List.mem_singleton_self c)).here
  have hinside := Span.contains_iff.mp (hlaid.here.inside c (List.mem_singleton_self c))
  have hvisit : ∃ s' : Scan, s'.env = s.env ∧ s'.closings = s.closings ∧ s'.queue = s.queue ∧
      s'.stats.reads = s.stats.reads ∧
      visit setting ancestors (.node link [c]) s = visit setting (link :: ancestors) c s' := by
    refine ⟨s.reportUnresolved setting link.span field (s.env.classOfFirst setting.symbols [c]),
      ?_, ?_, ?_, ?_, ?_⟩
    case refine_5 =>
      rw [visit]
      simp only [hlink, hu, Shape.sort, visitAll]
    all_goals
      unfold Scan.reportUnresolved
      split <;> rfl
  obtain ⟨s', henv, hclosings, hqueue, hreads, hvisit⟩ := hvisit
  have hyields := hc s' henv hclosings
  obtain ⟨new, hnew, hgives⟩ := hyields.queue
  rw [hvisit]
  refine ⟨⟨new, by rw [hnew, hqueue], ?_⟩, by rw [hyields.reads, hreads], ?_⟩
  · have hextended := hgives.extend hobject.start hobject.stop hobject.start_le hlaid.here.stop
      hinside.2
    rwa [hstart] at hextended
  · intro x hx
    rw [← hclosings]
    exact hyields.closings x hx

/-- A visit of a chain queues the replacement of its outermost link that reaches a target, with
all links below it rewritten. -/
theorem yields_chain (hnames : NamesTargets setting) {base : Code} {links : List CodeNode}
    (hchain : IsChain setting.file.source base links) {env : Env}
    (hbase : ∀ t ∈ subtrees (survey setting.symbols env base).1, isUsage setting t = false)
    (ancestors : List CodeNode) {s : Scan} (henv : s.env = env)
    (hopen : OpenAround ancestors s) :
    Yields setting.file.source (chain base links).span
      (Text.slice setting.file.source base.span
        ++ (String.join (linkTexts setting env base links)).toList)
      (targetedLinks setting env base links) s (visit setting ancestors (chain base links) s) := by
  induction links using List.reverseRecOn generalizing ancestors s with
  | nil =>
    subst henv
    have hfull : Everywhere Code.Full base := fun c hc => (hchain.laid c hc).full
    simpa [linkTexts, targetedLinks, chain] using yields_of_unused hfull ancestors hopen hbase
  | append_singleton links link ih =>
    obtain ⟨isArrow, field, hlink⟩ :=
      hchain.members link (List.mem_append_right _ (List.mem_singleton_self _))
    have hlaid := hchain.laid
    rw [chain_concat] at hlaid ⊢
    rw [linkTexts_concat, targetedLinks_concat, String.join_append, String.toList_append,
      ← List.append_assoc]
    show Yields setting.file.source link.span _ _ s _
    have hbelow : ∀ s' : Scan, s'.env = s.env → s'.closings = s.closings →
        Yields setting.file.source (chain base links).span
          (Text.slice setting.file.source base.span
            ++ (String.join (linkTexts setting env base links)).toList)
          (targetedLinks setting env base links) s'
          (visit setting (link :: ancestors) (chain base links) s') := by
      intro s' henv' hclosings
      refine ih hchain.init (link :: ancestors) (henv'.trans henv) ?_
      intro x hx
      rw [hclosings] at hx
      exact Nat.lt_succ_of_lt (hopen x hx)
    cases hu : usage? setting env (.node link [chain base links]) with
    | some u =>
      rw [← henv] at hu
      have htargeted := yields_targeted hnames hlink hlaid hu
        (hbelow { s with queue := [] } rfl rfl)
      rw [henv] at hu
      simpa [linkText, hu, hlink] using htargeted
    | none =>
      have hstart : (chain base links).span.start = link.span.start := by
        rw [hchain.init.start_eq]
        exact (hchain.starts link (List.mem_append_right _ (List.mem_singleton_self _))).symm
      rw [← henv] at hu
      have hkept := yields_kept hlink hlaid hstart hu hbelow
      rw [henv] at hu
      simpa [linkText, hu, SourceFile.text, Text.sliceString] using hkept

/-- A chain of member accesses, any of which may reach a target, is rendered link by link: the
text of its object, then for each link the call of a getter if a target is reached, and what
was written if not. One read is counted for each target, and nothing is handed on. -/
theorem render_chain (fields : List String) (u : SourceUnit) (hplain : u.PlainFields)
    (base : Code) (links : List CodeNode) (hchain : IsChain u.primary.source base links)
    (ancestors : List CodeNode) (s : Scan) (hopen : OpenAround ancestors s)
    (hbase : ∀ t ∈ subtrees (survey (Setting.ofUnit fields u).symbols s.env base).1,
      isUsage (.ofUnit fields u) t = false) :
    let setting := Setting.ofUnit fields u
    let rendered := s.render setting (chain base links).span
      (visit setting ancestors (chain base links))
    rendered.2 = u.primary.text base.span
        ++ String.join (linkTexts setting s.env base links) ∧
      rendered.1.stats.reads = s.stats.reads + targetedLinks setting s.env base links ∧
      rendered.1.queue = s.queue := by
  intro setting rendered
  have hlaid := hchain.laid.here
  have hyields := yields_chain (namesTargets_ofUnit hplain) hchain hbase ancestors
    (s := { s with queue := [] }) rfl hopen
  have hrender : rendered = _ :=
    render_of_yields hlaid.start hlaid.stop hlaid.start_le hyields
  rw [hrender]
  refine ⟨?_, hyields.reads, rfl⟩
  rw [String.ofList_append, String.ofList_toList]
  rfl

end Chain

section Example

open ParseTree

def chainText : List Char :=
  "struct A\x7bA*n;int x;\x7d;void f(A a)\x7ba.n->n->x;\x7d".toList

def chainTree : ParseTree :=
  named "translation_unit" 0 44
    [named "struct_specifier" 0 20
       [filling "name" "type_identifier" 7 8 [],
        filling "body" "field_declaration_list" 8 20
          [named "field_declaration" 9 13
             [filling "type" "type_identifier" 9 10 [],
              filling "declarator" "pointer_declarator" 10 12
                [filling "declarator" "field_identifier" 11 12 []]],
           named "field_declaration" 13 19
             [filling "type" "primitive_type" 13 16 [],
              filling "declarator" "field_identifier" 17 18 []],
           mark none "\x7d" 19 20]],
     named "function_definition" 21 44
       [filling "type" "primitive_type" 21 25 [],
        filling "declarator" "function_declarator" 26 32
          [filling "declarator" "identifier" 26 27 [],
           filling "parameters" "parameter_list" 27 32
             [named "parameter_declaration" 28 31
                [filling "type" "type_identifier" 28 29 [],
                 filling "declarator" "identifier" 30 31 []]]],
        filling "body" "compound_statement" 32 44
          [named "expression_statement" 33 43
             [named "field_expression" 33 42
                [filling "argument" "field_expression" 33 39
                   [filling "argument" "field_expression" 33 36
                      [filling "argument" "identifier" 33 34 [],
                       mark (some "operator") "." 34 35,
                       filling "field" "field_identifier" 35 36 []],
                    mark (some "operator") "->" 36 38,
                    filling "field" "field_identifier" 38 39 []],
                 mark (some "operator") "->" 39 41,
                 filling "field" "field_identifier" 41 42 []]],
           mark none "\x7d" 43 44]]]

def chainUnit : SourceUnit :=
  ⟨.ofParsed "chain.cpp" chainText ⟨chainTree, false⟩, []⟩

def chainScan : Scan :=
  { env := (chainUnit.primary.functions.head?.map (Env.enter (Symbols.ofUnit chainUnit))).getD {} }

def chainBase : Code :=
  .node ⟨.item, .identifier "a", ⟨33, 34⟩⟩ []

def chainLinks : List CodeNode :=
  [⟨.item, .member false "n", ⟨33, 36⟩⟩, ⟨.item, .member true "n", ⟨33, 39⟩⟩,
    ⟨.item, .member true "x", ⟨33, 42⟩⟩]

theorem isChain_chainLinks : IsChain chainText chainBase chainLinks := by
  have hsound : Sound chainText chainTree := by decide
  obtain ⟨body, hbody, hmem⟩ : ∃ body ∈ Decl.bodiesOf chainUnit.primary.decls,
      chain chainBase chainLinks ∈ subtrees body := by decide
  have hgrammar : Everywhere Grammatical chainTree := by decide
  have hlaid := @laid_body _ _ ⟨chainTree, false⟩ _ hsound hbody
  have hproduced := @produced_body _ _ ⟨chainTree, false⟩ _ hgrammar hbody
  refine .of_produced (hproduced.of_mem hmem) (hlaid.of_mem hmem) ?_
  intro link hlink
  simp only [chainLinks, List.mem_cons, List.not_mem_nil, or_false] at hlink
  rcases hlink with rfl | rfl | rfl <;> exact ⟨_, _, rfl⟩

/-- Two links are rewritten and the last one is kept. -/
theorem render_chain_two_of_three :
    let setting := Setting.ofUnit ["A::n"] chainUnit
    let rendered := chainScan.render setting (chain chainBase chainLinks).span
      (visit setting [] (chain chainBase chainLinks))
    rendered.2 = "a.getN()->getN()->x" ∧ rendered.1.stats.reads = 2 ∧ rendered.1.queue = [] := by
  have hplain : chainUnit.PlainFields := by
    refine .of_parsed fun file hfile => ?_
    rw [List.mem_singleton.mp hfile]
    exact ⟨"chain.cpp", chainText, ⟨chainTree, false⟩, rfl, by decide⟩
  obtain ⟨htext, hreads, hqueue⟩ := render_chain ["A::n"] chainUnit hplain chainBase chainLinks
    isChain_chainLinks [] chainScan (by simp [OpenAround, chainScan]) (by decide)
  refine ⟨?_, ?_, hqueue⟩
  · rw [htext]
    decide
  · rw [hreads]
    decide

end Example

end Accessors

end Encapsulate
