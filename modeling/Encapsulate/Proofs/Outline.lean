import Encapsulate.Cpp.SourceFile
import Encapsulate.Proofs.Layout

/-!
Induction on the way in which declarations are read. A property of what a tree gives in
a scope, its declarations and the member functions it adds to a record, holds of all that
is read once every way of reading keeps it: from the children of a tree, into a
namespace, from the items of a record's body, from a function and from the declarators of
a declaration.
-/

namespace Encapsulate.Cpp

open Encapsulate.Tree ParseTree

def Record.asOwner (r : Record) : Owner :=
  ⟨r.name, r.qualifiedName, r.innerScope⟩

namespace Decl

theorem readItems_eq (source : List Char) (scope : List String) (cs : List ParseTree) :
    readItems source scope cs = (items cs).flatMap (read source scope) := by
  induction cs with
  | nil => simp [readItems, items]
  | cons c cs ih =>
    rw [readItems, ih]
    by_cases hc : isItem c <;> simp [items, hc]

theorem readBody_eq (source : List Char) (scope : List String) (cs : List ParseTree) :
    readBody source scope cs =
      ((field? "body" cs).map fun body => readItems source scope body.children).getD [] := by
  induction cs with
  | nil => simp [readBody, field?]
  | cons c cs ih =>
    obtain ⟨i, ks⟩ := c
    rw [readBody, ih]
    by_cases hc : fills "body" (.node i ks) <;> simp [field?, hc]

theorem readMembersBody_eq (source : List Char) (owner : Owner) (cs : List ParseTree) :
    readMembersBody source owner cs =
      ((field? "body" cs).map fun body => readMembers source owner body.children).getD {} := by
  induction cs with
  | nil => simp [readMembersBody, field?]
  | cons c cs ih =>
    obtain ⟨i, ks⟩ := c
    rw [readMembersBody, ih]
    by_cases hc : fills "body" (.node i ks) <;> simp [field?, hc]

theorem readTypeRecord_eq (source : List Char) (scope : List String) (hint : Option String)
    (cs : List ParseTree) :
    readTypeRecord source scope hint cs = (field? "type" cs).bind fun c =>
      if isRecordSpecifier c then readRecord source scope hint c else none := by
  induction cs with
  | nil => simp [readTypeRecord, field?]
  | cons c cs ih =>
    rw [readTypeRecord, ih]
    by_cases hc : fills "type" c <;> simp [field?, hc]

@[simp] theorem methods_append (a b : Members) : (a ++ b).methods = a.methods ++ b.methods := rfl

@[simp] theorem decls_append (a b : Members) : (a ++ b).decls = a.decls ++ b.decls := rfl

theorem methods_concat (ms : List Members) :
    (Members.concat ms).methods = ms.flatMap (·.methods) := by
  induction ms with
  | nil => rfl
  | cons m ms ih =>
    rw [List.flatMap_cons, ← ih]
    rfl

theorem decls_concat (ms : List Members) : (Members.concat ms).decls = ms.flatMap (·.decls) := by
  induction ms with
  | nil => rfl
  | cons m ms ih =>
    rw [List.flatMap_cons, ← ih]
    rfl

theorem methods_readMembers (source : List Char) (owner : Owner) (cs : List ParseTree) :
    (readMembers source owner cs).methods =
      (items cs).flatMap fun c => (readMember source owner c).methods := by
  induction cs with
  | nil => simp [readMembers, items]
  | cons c cs ih =>
    rw [readMembers]
    by_cases hc : isItem c <;> simp [items, hc, ih]

theorem decls_readMembers (source : List Char) (owner : Owner) (cs : List ParseTree) :
    (readMembers source owner cs).decls =
      (items cs).flatMap fun c => (readMember source owner c).decls := by
  induction cs with
  | nil => simp [readMembers, items]
  | cons c cs ih =>
    rw [readMembers]
    by_cases hc : isItem c <;> simp [items, hc, ih]

/-- A record read from a specifier with the given body: its members are those of the items
of the body. -/
structure RecordOf (source : List Char) (scope : List String) (t body : ParseTree) (r : Record)
    (ds : List Decl) : Prop where
  body_eq : field? "body" t.children = some body
  span_eq : r.span = t.span
  scope_eq : r.scope = scope
  qualifiedName_eq : r.qualifiedName = Name.qualify scope r.name
  closeBrace_eq : r.closeBrace = closeBrace body
  methods_eq : r.methods =
    (items body.children).flatMap fun c => (readMember source r.asOwner c).methods
  decls_eq : ds = (items body.children).flatMap fun c => (readMember source r.asOwner c).decls

theorem readRecord_cases {source : List Char} {scope : List String} {hint : Option String}
    {t : ParseTree} {r : Record} {ds : List Decl}
    (h : readRecord source scope hint t = some (r, ds)) :
    ∃ body, RecordOf source scope t body r ds := by
  obtain ⟨i, cs⟩ := t
  rw [readRecord] at h
  cases hbody : field? "body" cs with
  | none => simp [hbody] at h
  | some body =>
    simp only [hbody, Option.bind_eq_bind, Option.bind_some, readMembersBody_eq,
      Option.map_some, Option.getD_some] at h
    obtain ⟨name, -, heq⟩ := Option.bind_eq_some_iff.mp h
    simp only [Option.pure_def, Option.some.injEq, Prod.mk.injEq] at heq
    obtain ⟨rfl, rfl⟩ := heq
    exact ⟨body, hbody, rfl, rfl, rfl, rfl, methods_readMembers .., decls_readMembers ..⟩

theorem ofKind_of_isRecordSpecifier {t : ParseTree} (h : isRecordSpecifier t = true) :
    DeclConstruct.ofKind t.kind = .record := by
  simp only [isRecordSpecifier, Bool.and_eq_true, List.contains_iff_mem, List.mem_cons,
    List.not_mem_nil, or_false] at h
  obtain ⟨h | h | h, -⟩ := h <;> rw [h] <;> rfl

/-- Members that declare nothing further and whose functions cover the whole of `member`. -/
structure Plain (member : ParseTree) (ms : Members) : Prop where
  span_eq : ∀ m ∈ ms.methods, m.span = member.span
  decls_eq : ms.decls = []

theorem plain_memberOfDeclaration (source : List Char) (owner : Owner)
    (member declarator : ParseTree) :
    Plain member (memberOfDeclaration source owner member declarator) := by
  unfold memberOfDeclaration
  split
  · exact ⟨by simp, rfl⟩
  · split
    · refine ⟨fun m hm => ?_, rfl⟩
      rw [List.mem_singleton.mp hm]
      rfl
    · exact ⟨by simp, rfl⟩

theorem plain_memberOfField (source : List Char) (owner : Owner) (member declarator : ParseTree) :
    Plain member (memberOfField source owner member declarator) := by
  unfold memberOfField
  split
  · exact plain_memberOfDeclaration source owner member declarator
  · simp only
    split
    · exact ⟨by simp, rfl⟩
    · split <;> exact ⟨by simp, rfl⟩

theorem Plain.concat {member : ParseTree} {ms : List Members} (h : ∀ m ∈ ms, Plain member m) :
    Plain member (Members.concat ms) := by
  constructor
  · intro m hm
    rw [methods_concat] at hm
    obtain ⟨x, hx, hmx⟩ := List.mem_flatMap.mp hm
    exact (h x hx).span_eq m hmx
  · rw [decls_concat, List.flatMap_eq_nil_iff]
    exact fun x hx => (h x hx).decls_eq

/-- A prototype has no body. -/
theorem readPrototype_parts {source : List Char} {scope : List String}
    {t declarator signature : ParseTree} {f : Function}
    (h : readPrototype source scope t declarator signature = some f) :
    f.params = Code.readParamsField source signature.children ∧ f.body = none := by
  unfold readPrototype at h
  obtain ⟨written, -, h⟩ := Option.bind_eq_some_iff.mp h
  simp only [Option.pure_def, Option.some.injEq] at h
  rw [← h]
  exact ⟨rfl, rfl⟩

/-- Whether all ways of reading keep a property of a scope, a tree and what the tree gives
in the scope. -/
structure Kept (source : List Char)
    (P : List String → ParseTree → List Method → List Decl → Prop) : Prop where
  up : ∀ {scope t v ms ds}, v ∈ descendants t → P scope v ms ds → P scope t ms ds
  children : ∀ {scope t} {l : List ParseTree} {m : ParseTree → List Method}
    {g : ParseTree → List Decl}, l.Sublist t.children →
    (∀ c ∈ l, P scope c (m c) (g c)) → P scope t (l.flatMap m) (l.flatMap g)
  /-- A declaration with several declarators is several member functions. -/
  methods : ∀ {scope t ms ds}, (∀ m ∈ ms, m.span = t.span) → P scope t [] ds → P scope t ms ds
  nest : ∀ {scope segments t ds}, P (scope ++ segments) t [] ds →
    P scope t [] (nest segments ds)
  record : ∀ {scope hint t body r ds}, DeclConstruct.ofKind t.kind = .record →
    readRecord source scope hint t = some (r, ds) → RecordOf source scope t body r ds →
    (∀ c ∈ items body.children, P r.innerScope c (readMember source r.asOwner c).methods
      (readMember source r.asOwner c).decls) → P scope t [] [.record r ds]
  function : ∀ {scope owner t f}, readFunction source scope owner t = some f →
    P scope t [] [.function f]
  declarators : ∀ {scope t ds}, P scope t [] ds →
    P scope t [] (ds ++ (fieldAll "declarator" t.children).flatMap (readDeclarator source scope t))

/-- What one tree gives, as a declaration, as a record and as a member. -/
structure Reads (source : List Char)
    (P : List String → ParseTree → List Method → List Decl → Prop) (t : ParseTree) : Prop where
  decls : ∀ scope, P scope t [] (read source scope t)
  record : ∀ scope hint r ds, DeclConstruct.ofKind t.kind = .record →
    readRecord source scope hint t = some (r, ds) → P scope t [] [.record r ds]
  members : ∀ owner, P owner.innerScope t (readMember source owner t).methods
    (readMember source owner t).decls

namespace Kept

variable {source : List Char} {P : List String → ParseTree → List Method → List Decl → Prop}
  {t : ParseTree}

theorem nil (h : Kept source P) (scope : List String) (t : ParseTree) : P scope t [] [] :=
  h.children (m := fun _ => []) (g := fun _ => []) (List.nil_sublist t.children) (by simp)

theorem readItems (h : Kept source P) (hchild : ∀ c ∈ t.children, Reads source P c)
    (scope : List String) : P scope t [] (readItems source scope t.children) := by
  have hnone : (items t.children).flatMap (fun _ => ([] : List Method)) = [] := by simp
  rw [readItems_eq, ← hnone]
  exact h.children (items_sublist t.children)
    fun c hc => (hchild c (Code.mem_children_of_mem_items hc)).decls scope

theorem readMembers (h : Kept source P) (hchild : ∀ c ∈ t.children, Reads source P c)
    (owner : Owner) : P owner.innerScope t (readMembers source owner t.children).methods
      (readMembers source owner t.children).decls := by
  rw [methods_readMembers, decls_readMembers]
  exact h.children (items_sublist t.children)
    fun c hc => (hchild c (Code.mem_children_of_mem_items hc)).members owner

theorem readTypeRecord (h : Kept source P) (hchild : ∀ c ∈ t.children, Reads source P c)
    (scope : List String) (hint : Option String) :
    P scope t [] ((readTypeRecord source scope hint t.children).map ofRecord).toList := by
  rw [readTypeRecord_eq]
  cases htype : field? "type" t.children with
  | none => exact h.nil scope t
  | some c =>
    have hmem := field?_mem htype
    rw [Option.bind_some]
    split
    · rename_i hspec
      cases hr : readRecord source scope hint c with
      | none => exact h.nil scope t
      | some p =>
        exact h.up (child_mem_descendants hmem)
          ((hchild c hmem).record scope hint p.1 p.2 (ofKind_of_isRecordSpecifier hspec) hr)
    · exact h.nil scope t

theorem readRecord (h : Kept source P) (hdesc : ∀ v ∈ descendants t, Reads source P v)
    {scope : List String} {hint : Option String} {r : Record} {ds : List Decl}
    (hkind : DeclConstruct.ofKind t.kind = .record)
    (hr : readRecord source scope hint t = some (r, ds)) : P scope t [] [.record r ds] := by
  obtain ⟨body, hof⟩ := readRecord_cases hr
  refine h.record hkind hr hof ?_
  intro c hc
  exact (hdesc c (descendants_trans (child_mem_descendants (Code.mem_children_of_mem_items hc))
    (child_mem_descendants (field?_mem hof.body_eq)))).members r.asOwner

theorem read (h : Kept source P) (hdesc : ∀ v ∈ descendants t, Reads source P v)
    (scope : List String) : P scope t [] (read source scope t) := by
  have hchild : ∀ c ∈ t.children, Reads source P c :=
    fun c hc => hdesc c (child_mem_descendants hc)
  have htype := h.readTypeRecord hchild scope
  obtain ⟨i, cs⟩ := t
  rw [Decl.read]
  cases hk : DeclConstruct.ofKind i.kind with
  | space =>
    refine h.nest ?_
    rw [readBody_eq]
    cases hb : field? "body" cs with
    | none => exact h.nil _ _
    | some body =>
      have hmem : body ∈ cs := field?_mem hb
      refine h.up (child_mem_descendants hmem) (h.readItems ?_ _)
      intro c hc
      exact hdesc c (descendants_trans (child_mem_descendants hc) (child_mem_descendants hmem))
  | record =>
    simp only
    cases hr : Decl.readRecord source scope none (.node i cs) with
    | none => exact h.nil _ _
    | some p => exact h.readRecord hdesc hk hr
  | function =>
    simp only
    cases hf : readFunction source scope none (.node i cs) with
    | none => exact h.nil _ _
    | some f => exact h.function hf
  | declaration => exact h.declarators (htype none)
  | typedef => exact htype _
  | container => exact h.readItems hchild scope
  | _ => exact h.nil _ _

theorem readMember (h : Kept source P) (hdesc : ∀ v ∈ descendants t, Reads source P v)
    (owner : Owner) : P owner.innerScope t (readMember source owner t).methods
      (readMember source owner t).decls := by
  have hchild : ∀ c ∈ t.children, Reads source P c :=
    fun c hc => hdesc c (child_mem_descendants hc)
  have htype := h.readTypeRecord hchild owner.innerScope none
  obtain ⟨i, cs⟩ := t
  rw [children_node] at htype
  rw [Decl.readMember]
  cases hk : MemberConstruct.ofKind i.kind with
  | field =>
    have hplain : Plain (.node i cs) (Members.concat
        ((fieldAll "declarator" cs).map (memberOfField source owner (.node i cs)))) := by
      refine Plain.concat fun m hm => ?_
      obtain ⟨d, -, rfl⟩ := List.mem_map.mp hm
      exact plain_memberOfField source owner _ d
    simp only [methods_append, decls_append, hplain.decls_eq, List.append_nil]
    cases hr : Decl.readTypeRecord source owner.innerScope none cs with
    | none => exact h.methods hplain.span_eq (h.nil _ _)
    | some p =>
      rw [hr] at htype
      exact h.methods hplain.span_eq htype
  | function =>
    simp only [memberOfFunction]
    cases hf : readFunction source owner.innerScope (some owner.qualifiedName) (.node i cs) with
    | none => exact h.nil _ _
    | some f =>
      refine h.methods ?_ (h.function hf)
      intro m hm
      rw [List.mem_singleton.mp hm]
      rfl
  | declaration =>
    have hplain : Plain (.node i cs) (Members.concat
        ((fieldAll "declarator" cs).map (memberOfDeclaration source owner (.node i cs)))) := by
      refine Plain.concat fun m hm => ?_
      obtain ⟨d, -, rfl⟩ := List.mem_map.mp hm
      exact plain_memberOfDeclaration source owner _ d
    simp only [hplain.decls_eq]
    exact h.methods hplain.span_eq (h.nil _ _)
  | container => exact h.readMembers hchild owner
  | _ => exact h.nil _ _

/-- Whatever all ways of reading keep holds of all that is read. -/
theorem reads (h : Kept source P) (t : ParseTree) : Reads source P t := by
  induction t using induct_descendants with
  | h t ih =>
    exact ⟨h.read ih, fun _ _ _ _ hkind hr => h.readRecord ih hkind hr, h.readMember ih⟩

theorem ofParsed (h : Kept source P) (path : String) (parsed : Parsed) :
    P [] parsed.tree [] (SourceFile.ofParsed path source parsed).decls :=
  h.readItems (fun c _ => h.reads c) []

end Kept

end Decl

theorem SourceFile.mem_of_findRecord {file : SourceFile} {name : String} {r : Record}
    (h : file.findRecord name = some r) : r ∈ file.records ∧ r.qualifiedName = name := by
  have hname := List.find?_some h
  exact ⟨List.mem_of_find?_eq_some h, by simpa using hname⟩

end Encapsulate.Cpp
