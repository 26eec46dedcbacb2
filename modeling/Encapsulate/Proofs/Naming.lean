import Encapsulate.Proofs.Declarations

/-!
Qualified names follow the nesting of declarations. The path of a declaration lists the
named namespaces and the records around it, outermost first; a namespace without a name
adds nothing. The scope that is passed down while declarations are read is this path,
whichever constructs stand in between, so every qualified name is the path with the
name behind it.
-/

namespace Encapsulate.Cpp

open Encapsulate.Tree ParseTree

namespace Decl

/-- What stands at any depth in some declarations that have themselves the path `path` and
stand in the record `owner`, if in any: a declaration with its own path and the innermost
record around it. -/
inductive Within : List String → Option Record → List Decl → List String → Option Record →
    Decl → Prop
  | here {path owner ds d} (hd : d ∈ ds) : Within path owner ds path owner d
  | space {path owner ds name inner p r d} (hspace : .space name inner ∈ ds)
      (hd : Within (path ++ name.toList) owner inner p r d) : Within path owner ds p r d
  | record {path owner ds q inner p r d} (hrecord : .record q inner ∈ ds)
      (hd : Within (path ++ [q.name]) (some q) inner p r d) : Within path owner ds p r d

/-- A node of the tree `t` declares the function `f`, of which it is the span, under the
name `written`. -/
def WrittenIn (source : List Char) (t : ParseTree) (f : Function) (written : String) : Prop :=
  ∃ v ∈ subtrees t, ParseTree.span v = f.span ∧ ∃ declarator ∈ fieldAll "declarator" v.children,
    ∃ signature, functionDeclarator declarator = some signature ∧
      declaredName source signature = some written

def NamedAt (source : List Char) (t : ParseTree) (path : List String) (owner : Option Record) :
    Decl → Prop
  | .space _ _ => True
  | .record r _ => r.scope = path ∧ r.qualifiedName = Name.qualify path r.name ∧
      ∀ f ∈ r.fields, f.qualifiedName = r.qualifiedName ++ "::" ++ f.name
  | .function f => f.scope = path ∧
      (∃ written, WrittenIn source t f written ∧
        f.qualifiedName = Name.qualify path written) ∧
      ∀ r, owner = some r → f.record = some r.qualifiedName
  | .global scope _ => scope = path

def Follows (source : List Char) (t : ParseTree) (path : List String) (owner : Option Record)
    (ds : List Decl) : Prop :=
  ∀ p r d, Within path owner ds p r d → NamedAt source t p r d

section Following

variable {source : List Char} {t v : ParseTree} {path : List String} {owner : Option Record}
  {ds : List Decl}

theorem NamedAt.up {d : Decl} (h : NamedAt source v path owner d) (hv : v ∈ subtrees t) :
    NamedAt source t path owner d := by
  cases d with
  | function f =>
    obtain ⟨hscope, ⟨written, ⟨w, hw, hwritten⟩, hname⟩, hrecord⟩ := h
    exact ⟨hscope, ⟨written, ⟨w, mem_subtrees_trans t hw hv, hwritten⟩, hname⟩, hrecord⟩
  | _ => exact h

namespace Follows

theorem up (h : Follows source v path owner ds) (hv : v ∈ subtrees t) :
    Follows source t path owner ds :=
  fun p r d hd => (h p r d hd).up hv

theorem up_child (h : Follows source v path owner ds) (hv : v ∈ t.children) :
    Follows source t path owner ds := by
  refine h.up ?_
  rw [← node_info_children t]
  exact mem_subtrees_node.mpr (Or.inr ⟨v, hv, self_mem_subtrees v⟩)

/-- Only the single declarations matter. -/
theorem of_forall (h : ∀ d ∈ ds, Follows source t path owner [d]) :
    Follows source t path owner ds := by
  intro p r d hd
  cases hd with
  | here hmem => exact h d hmem path owner d (.here (List.mem_singleton_self d))
  | space hmem hd => exact h _ hmem p r d (.space (List.mem_singleton_self _) hd)
  | record hmem hd => exact h _ hmem p r d (.record (List.mem_singleton_self _) hd)

theorem single (h : Follows source t path owner ds) {d : Decl} (hd : d ∈ ds) :
    Follows source t path owner [d] := by
  intro p r e he
  cases he with
  | here hmem => exact h path owner e (.here (List.mem_singleton.mp hmem ▸ hd))
  | space hmem he => exact h p r e (.space (List.mem_singleton.mp hmem ▸ hd) he)
  | record hmem he => exact h p r e (.record (List.mem_singleton.mp hmem ▸ hd) he)

theorem nil : Follows source t path owner [] :=
  of_forall (by simp)

theorem append {es : List Decl} (hds : Follows source t path owner ds)
    (hes : Follows source t path owner es) : Follows source t path owner (ds ++ es) := by
  refine of_forall fun d hd => ?_
  rcases List.mem_append.mp hd with hd | hd
  · exact hds.single hd
  · exact hes.single hd

theorem flatMap {l : List ParseTree} {g : ParseTree → List Decl}
    (h : ∀ c ∈ l, Follows source t path owner (g c)) :
    Follows source t path owner (l.flatMap g) := by
  refine of_forall fun d hd => ?_
  obtain ⟨c, hc, hdc⟩ := List.mem_flatMap.mp hd
  exact (h c hc).single hdc

/-- One declaration: it is named after its path, and so is what stands in it. -/
theorem singleton {d : Decl} (hd : NamedAt source t path owner d)
    (hspace : ∀ name inner, d = .space name inner →
      Follows source t (path ++ name.toList) owner inner)
    (hrecord : ∀ q inner, d = .record q inner →
      Follows source t (path ++ [q.name]) (some q) inner) :
    Follows source t path owner [d] := by
  intro p r e he
  cases he with
  | here hmem =>
    rw [List.mem_singleton.mp hmem]
    exact hd
  | space hmem he => exact hspace _ _ (List.mem_singleton.mp hmem).symm p r e he
  | record hmem he => exact hrecord _ _ (List.mem_singleton.mp hmem).symm p r e he

theorem space (name : Option String) (h : Follows source t (path ++ name.toList) owner ds) :
    Follows source t path owner [.space name ds] := by
  refine singleton trivial ?_ (by simp)
  rintro _ _ ⟨⟩
  exact h

theorem record {q : Record} (hq : NamedAt source t path owner (.record q ds))
    (h : Follows source t (path ++ [q.name]) (some q) ds) :
    Follows source t path owner [.record q ds] := by
  refine singleton hq (by simp) ?_
  rintro _ _ ⟨⟩
  exact h

theorem function {f : Function} (h : NamedAt source t path owner (.function f)) :
    Follows source t path owner [.function f] :=
  singleton h (by simp) (by simp)

/-- Declarations nested in one namespace for each segment have all segments on their path. -/
theorem nest {segments : List String} (h : Follows source t (path ++ segments) owner ds) :
    Follows source t path owner (nest segments ds) := by
  have nested : ∀ (segments path : List String), Follows source t (path ++ segments) owner ds →
      Follows source t path owner
        (segments.foldr (fun name inner => [.space (some name) inner]) ds) := by
    intro segments
    induction segments with
    | nil =>
      intro path h
      rwa [List.append_nil] at h
    | cons s segments ih =>
      intro path h
      refine space (some s) (ih (path ++ [s]) ?_)
      rwa [List.append_assoc]
  cases segments with
  | nil => exact space none h
  | cons s segments => exact nested (s :: segments) path h

end Follows

/-! Functions and variables -/

theorem namedAt_readPrototype {declarator signature : ParseTree} {f : Function}
    (hdeclarator : declarator ∈ fieldAll "declarator" t.children)
    (hsignature : functionDeclarator declarator = some signature)
    (h : readPrototype source path t declarator signature = some f) :
    NamedAt source t path none (.function f) := by
  unfold readPrototype at h
  obtain ⟨written, hwritten, h⟩ := Option.bind_eq_some_iff.mp h
  simp only [Option.pure_def, Option.some.injEq] at h
  rw [← h]
  exact ⟨rfl, ⟨written, ⟨t, self_mem_subtrees t, rfl, declarator, hdeclarator, signature,
    hsignature, hwritten⟩, rfl⟩, by simp⟩

/-- A function that is read as a member of a record belongs to this record, whatever
qualifier is written in front of its name. -/
theorem namedAt_readFunction {f : Function}
    (h : readFunction source path (owner.map (·.qualifiedName)) t = some f) :
    NamedAt source t path owner (.function f) := by
  unfold readFunction at h
  obtain ⟨declarator, hdeclarator, h⟩ := Option.bind_eq_some_iff.mp h
  obtain ⟨signature, hsignature, h⟩ := Option.bind_eq_some_iff.mp h
  obtain ⟨g, hg, h⟩ := Option.bind_eq_some_iff.mp h
  simp only [Option.pure_def, Option.some.injEq] at h
  have hmem : declarator ∈ fieldAll "declarator" t.children :=
    List.mem_filter.mpr ⟨field?_mem hdeclarator, List.find?_some hdeclarator⟩
  obtain ⟨hscope, hwritten, -⟩ := namedAt_readPrototype hmem hsignature hg
  rw [← h]
  refine ⟨hscope, hwritten, ?_⟩
  rintro r rfl
  rfl

theorem follows_readDeclarator {declarator : ParseTree}
    (hdeclarator : declarator ∈ fieldAll "declarator" t.children) :
    Follows source t path none (readDeclarator source path t declarator) := by
  unfold readDeclarator
  split
  · rename_i signature hsignature
    cases hf : readPrototype source path t declarator signature with
    | none => exact .nil
    | some f => exact .function (namedAt_readPrototype hdeclarator hsignature hf)
  · simp only
    generalize Declared.bind? _ _ _ = binding
    cases binding with
    | none => exact .nil
    | some b => exact .singleton rfl (by simp) (by simp)

end Following

/-! Records -/

/-- Whether fields and further declarations are named as members of the record `q`. -/
structure MembersFollow (source : List Char) (t : ParseTree) (q : Record) (ms : Members) :
    Prop where
  fields : ∀ f ∈ ms.fields, f.qualifiedName = q.qualifiedName ++ "::" ++ f.name
  decls : Follows source t q.innerScope (some q) ms.decls

namespace MembersFollow

variable {source : List Char} {t v : ParseTree} {q : Record}

theorem empty {ms : Members} (hfields : ms.fields = []) (hdecls : ms.decls = []) :
    MembersFollow source t q ms := by
  refine ⟨by simp [hfields], ?_⟩
  rw [hdecls]
  exact .nil

theorem append {a b : Members} (ha : MembersFollow source t q a)
    (hb : MembersFollow source t q b) : MembersFollow source t q (a ++ b) := by
  refine ⟨fun f hf => ?_, ha.decls.append hb.decls⟩
  rcases List.mem_append.mp hf with hf | hf
  · exact ha.fields f hf
  · exact hb.fields f hf

theorem concat {ms : List Members} (h : ∀ m ∈ ms, MembersFollow source t q m) :
    MembersFollow source t q (Members.concat ms) := by
  induction ms with
  | nil => exact .empty rfl rfl
  | cons m ms ih =>
    exact (h m List.mem_cons_self).append (ih fun m hm => h m (List.mem_cons_of_mem _ hm))

theorem up_child {ms : Members} (h : MembersFollow source v q ms) (hv : v ∈ t.children) :
    MembersFollow source t q ms :=
  ⟨h.fields, h.decls.up_child hv⟩

theorem readMembers {cs : List ParseTree} (hcs : cs ⊆ t.children)
    (h : ∀ c ∈ t.children, MembersFollow source c q (readMember source q.asOwner c)) :
    MembersFollow source t q (readMembers source q.asOwner cs) := by
  induction cs with
  | nil => exact .empty rfl rfl
  | cons c cs ih =>
    obtain ⟨hc, hcs⟩ := List.cons_subset.mp hcs
    rw [Decl.readMembers]
    split
    · exact ((h c hc).up_child hc).append (ih hcs)
    · exact ih hcs

/-- A record of whose members the names follow. -/
theorem record {path : List String} {owner : Option Record} {ms : Members}
    (h : MembersFollow source t q ms) (hscope : q.scope = path)
    (hname : q.qualifiedName = Name.qualify path q.name) (hfields : q.fields = ms.fields) :
    Follows source t path owner [.record q ms.decls] := by
  refine .record ⟨hscope, hname, fun f hf => h.fields f (hfields ▸ hf)⟩ ?_
  rw [← hscope]
  exact h.decls

theorem memberOfDeclaration (member declarator : ParseTree) :
    MembersFollow source t q (memberOfDeclaration source q.asOwner member declarator) := by
  unfold Cpp.memberOfDeclaration
  split
  · exact .empty rfl rfl
  · split <;> exact .empty rfl rfl

theorem memberOfField (member declarator : ParseTree) :
    MembersFollow source t q (memberOfField source q.asOwner member declarator) := by
  unfold Cpp.memberOfField
  split
  · exact memberOfDeclaration member declarator
  · simp only
    split
    · exact .empty rfl rfl
    · split
      · exact .empty rfl rfl
      · refine ⟨fun f hf => ?_, .nil⟩
        rw [List.mem_singleton.mp hf]
        rfl

theorem memberOfFunction (t : ParseTree) :
    MembersFollow source t q (memberOfFunction source q.asOwner t) := by
  unfold Cpp.memberOfFunction
  cases hf : readFunction source q.asOwner.innerScope (some q.asOwner.qualifiedName) t with
  | none => exact .empty rfl rfl
  | some f => exact ⟨by simp, .function (namedAt_readFunction hf)⟩

end MembersFollow

/-- What one tree gives, as a declaration, as a record and as a member of a record. -/
structure ReadsFollow (source : List Char) (t : ParseTree) : Prop where
  decls : ∀ path, Follows source t path none (read source path t)
  record : ∀ path owner hint q ds, readRecord source path hint t = some (q, ds) →
    Follows source t path owner [.record q ds]
  members : ∀ q, MembersFollow source t q (readMember source q.asOwner t)

section Reading

variable {source : List Char} {t : ParseTree}

theorem follows_readItems (hchild : ∀ c ∈ t.children, ReadsFollow source c)
    (path : List String) : Follows source t path none (readItems source path t.children) := by
  rw [readItems_eq]
  refine .flatMap fun c hc => ?_
  have hmem := Code.mem_children_of_mem_items hc
  exact ((hchild c hmem).decls path).up_child hmem

theorem follows_readTypeRecord (hchild : ∀ c ∈ t.children, ReadsFollow source c)
    (path : List String) (owner : Option Record) (hint : Option String) :
    Follows source t path owner ((readTypeRecord source path hint t.children).map ofRecord).toList := by
  rw [readTypeRecord_eq]
  cases htype : field? "type" t.children with
  | none => exact .nil
  | some c =>
    have hmem := field?_mem htype
    rw [Option.bind_some]
    split
    · cases hr : readRecord source path hint c with
      | none => exact .nil
      | some p => exact ((hchild c hmem).record path owner hint p.1 p.2 hr).up_child hmem
    · exact .nil

theorem follows_readRecord (hdesc : ∀ v ∈ descendants t, ReadsFollow source v)
    {path : List String} (owner : Option Record) {hint : Option String} {q : Record}
    {ds : List Decl} (hr : readRecord source path hint t = some (q, ds)) :
    Follows source t path owner [.record q ds] := by
  obtain ⟨i, cs⟩ := t
  rw [readRecord] at hr
  cases hbody : field? "body" cs with
  | none => simp [hbody] at hr
  | some body =>
    have hmem : body ∈ cs := field?_mem hbody
    have hmembers : ∀ q, MembersFollow source (.node i cs) q
        (readMembers source q.asOwner body.children) := by
      intro q
      refine MembersFollow.up_child (.readMembers (List.Subset.refl _) fun c hc => ?_) hmem
      exact (hdesc c (descendants_trans (child_mem_descendants hc)
        (child_mem_descendants hmem))).members q
    simp only [hbody, Option.bind_eq_bind, Option.bind_some, readMembersBody_eq,
      Option.map_some, Option.getD_some] at hr
    obtain ⟨name, -, heq⟩ := Option.bind_eq_some_iff.mp hr
    simp only [Option.pure_def, Option.some.injEq, Prod.mk.injEq] at heq
    obtain ⟨rfl, rfl⟩ := heq
    exact MembersFollow.record (hmembers _) rfl rfl rfl

theorem follows_read (hdesc : ∀ v ∈ descendants t, ReadsFollow source v) (path : List String) :
    Follows source t path none (read source path t) := by
  have hchild : ∀ c ∈ t.children, ReadsFollow source c :=
    fun c hc => hdesc c (child_mem_descendants hc)
  have htype := follows_readTypeRecord hchild path none
  obtain ⟨i, cs⟩ := t
  rw [children_node] at htype
  rw [read]
  cases hk : DeclConstruct.ofKind i.kind with
  | space =>
    refine .nest ?_
    rw [readBody_eq]
    cases hb : field? "body" cs with
    | none => exact .nil
    | some body =>
      have hmem : body ∈ cs := field?_mem hb
      refine Follows.up_child (follows_readItems (fun c hc => ?_) _) hmem
      exact hdesc c (descendants_trans (child_mem_descendants hc) (child_mem_descendants hmem))
  | record =>
    simp only
    cases hr : readRecord source path none (.node i cs) with
    | none => exact .nil
    | some p => exact follows_readRecord hdesc none hr
  | function =>
    simp only
    cases hf : readFunction source path none (.node i cs) with
    | none => exact .nil
    | some f => exact .function (namedAt_readFunction hf)
  | declaration => exact (htype none).append (.flatMap fun _ hd => follows_readDeclarator hd)
  | typedef => exact htype _
  | container => exact follows_readItems hchild path
  | _ => exact .nil

theorem membersFollow_readMember (hdesc : ∀ v ∈ descendants t, ReadsFollow source v)
    (q : Record) : MembersFollow source t q (readMember source q.asOwner t) := by
  have hchild : ∀ c ∈ t.children, ReadsFollow source c :=
    fun c hc => hdesc c (child_mem_descendants hc)
  have htype := follows_readTypeRecord hchild q.innerScope (some q) none
  obtain ⟨i, cs⟩ := t
  rw [children_node] at htype
  rw [readMember]
  cases hk : MemberConstruct.ofKind i.kind with
  | field =>
    refine .append ?_ (.concat fun m hm => ?_)
    · cases hr : readTypeRecord source q.asOwner.innerScope none cs with
      | none => exact .empty rfl rfl
      | some p =>
        rw [show readTypeRecord source q.innerScope none cs = some p from hr] at htype
        exact ⟨by simp, htype⟩
    · obtain ⟨d, -, rfl⟩ := List.mem_map.mp hm
      exact .memberOfField _ d
  | function => exact .memberOfFunction _
  | declaration =>
    refine .concat fun m hm => ?_
    obtain ⟨d, -, rfl⟩ := List.mem_map.mp hm
    exact .memberOfDeclaration _ d
  | container => exact .readMembers (List.Subset.refl _) fun c hc => (hchild c hc).members q
  | _ => exact .empty rfl rfl

theorem readsFollow (source : List Char) (t : ParseTree) : ReadsFollow source t := by
  induction t using induct_descendants with
  | h t ih =>
    exact ⟨follows_read ih, fun _ owner _ _ _ hr => follows_readRecord ih owner hr,
      membersFollow_readMember ih⟩

end Reading

/-! Variables -/

/-- Induction with one hypothesis for each declaration in a namespace or record. -/
theorem inductionOn {P : Decl → Prop}
    (space : ∀ name inner, (∀ d ∈ inner, P d) → P (.space name inner))
    (record : ∀ q inner, (∀ d ∈ inner, P d) → P (.record q inner))
    (function : ∀ f, P (.function f)) (global : ∀ scope b, P (.global scope b)) :
    (d : Decl) → P d
  | .space name inner => space name inner fun d _ => inductionOn space record function global d
  | .record q inner => record q inner fun d _ => inductionOn space record function global d
  | .function f => function f
  | .global scope b => global scope b

theorem mem_globalsOf {x : String × Var} {ds : List Decl} :
    x ∈ globalsOf ds ↔ ∃ d ∈ ds, x ∈ globals d := by
  induction ds with
  | nil => simp [globalsOf]
  | cons d ds ih => simp [globalsOf, ih]

/-- What stands in a record stands in it at any depth. -/
theorem Within.isSome_owner {path p : List String} {owner r : Option Record} {ds : List Decl}
    {d : Decl} (h : Within path owner ds p r d) (howner : owner.isSome = true) :
    r.isSome = true := by
  induction h with
  | here hd => exact howner
  | space hspace hd ih => exact ih howner
  | record hrecord hd ih => exact ih rfl

theorem exists_within_of_mem_globals {x : String × Var} (d : Decl) (hx : x ∈ globals d) :
    ∀ {path ds}, d ∈ ds → ∃ p scope b, Within path none ds p none (.global scope b) ∧
      x = (Name.qualify scope b.var.name, b.var) := by
  induction d using inductionOn with
  | space name inner ih =>
    intro path ds hd
    rw [globals] at hx
    obtain ⟨e, he, hxe⟩ := mem_globalsOf.mp hx
    obtain ⟨p, scope, b, hwithin, hb⟩ := ih e he hxe he
    exact ⟨p, scope, b, .space hd hwithin, hb⟩
  | record q inner => simp [globals] at hx
  | function f => simp [globals] at hx
  | global scope b =>
    intro path ds hd
    rw [globals, List.mem_singleton] at hx
    exact ⟨path, scope, b, .here hd, hx⟩

theorem mem_globalsOf_of_within {path p scope : List String} {r : Option Record}
    {ds : List Decl} {d : Decl} {b : Binding} (h : Within path none ds p r d)
    (hr : r = none) (hd : d = .global scope b) :
    (Name.qualify scope b.var.name, b.var) ∈ globalsOf ds := by
  generalize howner : (none : Option Record) = owner at h
  induction h with
  | here hmem =>
    rw [hd] at hmem
    exact mem_globalsOf.mpr ⟨_, hmem, by simp [globals]⟩
  | space hspace _ ih =>
    exact mem_globalsOf.mpr ⟨_, hspace, by simpa [globals] using ih hr hd howner⟩
  | record _ hwithin _ =>
    have hsome := hwithin.isSome_owner rfl
    rw [hr] at hsome
    exact absurd hsome (by simp)

end Decl

/-- What is declared in a file is named after its path. -/
theorem SourceFile.follows_ofParsed (name : String) (source : List Char) (parsed : Parsed) :
    Decl.Follows source parsed.tree [] none (SourceFile.ofParsed name source parsed).decls :=
  Decl.follows_readItems (fun c _ => Decl.readsFollow source c) []

/-- Every declaration of a file is named after the named namespaces and records around it:
a record, its fields, a function, which also belongs to the record around it, and a
variable. The variables outside of records are those that the file reports, each qualified
by its path. -/
theorem SourceFile.names_follow_paths (name : String) (source : List Char) (parsed : Parsed) :
    let file := SourceFile.ofParsed name source parsed
    (∀ path owner d, Decl.Within [] none file.decls path owner d →
      Decl.NamedAt source parsed.tree path owner d) ∧
    ∀ q v, (q, v) ∈ file.globals ↔ ∃ path b,
      Decl.Within [] none file.decls path none (.global path b) ∧
        q = Name.qualify path v.name ∧ v = b.var := by
  intro file
  have hfollows := SourceFile.follows_ofParsed name source parsed
  refine ⟨hfollows, fun q v => ⟨fun hglobal => ?_, ?_⟩⟩
  · obtain ⟨d, hd, hmem⟩ := Decl.mem_globalsOf.mp hglobal
    obtain ⟨path, scope, b, hwithin, heq⟩ := Decl.exists_within_of_mem_globals d hmem hd
    obtain ⟨rfl, rfl⟩ := Prod.mk.inj heq
    have hscope : scope = path := hfollows _ _ _ hwithin
    subst hscope
    exact ⟨scope, b, hwithin, rfl, rfl⟩
  · rintro ⟨path, b, hwithin, rfl, rfl⟩
    exact Decl.mem_globalsOf_of_within hwithin rfl rfl

end Encapsulate.Cpp
