import Encapsulate.Proofs.Declarations
import Encapsulate.Proofs.Edits

/-!
What the grammar of the language makes sure of, beyond the layout of a tree. The right operand of
an assignment is an expression or a braced list and ends the assignment; neither is a statement
nor begins with one. An access begins with its object, which is an expression, and has a dot or
an arrow. The name of a field is one token. These are conditions on single nodes of a parse tree;
the code and the fields that are read from the tree inherit them.
-/

namespace Encapsulate

namespace Cpp

open Encapsulate.Tree ParseTree

/-- Whether a construct is a statement other than a block, or part of one. -/
def Construct.isStatement : Construct → Bool
  | .exprStmt | .declaration | .returnStmt | .throwStmt | .branch | .switch | .caseLabel
  | .loop _ | .elseClause | .simpleStmt | .otherStmt => true
  | _ => false

namespace ParseTree

def isStatement (t : ParseTree) : Bool :=
  (Construct.ofKind t.kind).isStatement

/-- What the productions of assignments and accesses say of a node. -/
structure Grammatical (t : ParseTree) : Prop where
  right : Construct.ofKind t.kind = .assign → ∀ v, field? "right" t.children = some v →
    v.span.stop = t.span.stop ∧
      ∀ s ∈ subtrees v, isStatement s = true → v.span.start < (span s).start
  object : Construct.ofKind t.kind = .member → ∀ v, field? "argument" t.children = some v →
    isStatement v = false ∧ v.span.start = t.span.start
  access : Construct.ofKind t.kind = .member → t.span.start < t.span.stop

instance (t : ParseTree) : Decidable (Grammatical t) :=
  decidable_of_iff
    ((Construct.ofKind t.kind = .assign → ∀ v ∈ field? "right" t.children,
        v.span.stop = t.span.stop ∧
          ∀ s ∈ subtrees v, isStatement s = true → v.span.start < (span s).start) ∧
      (Construct.ofKind t.kind = .member → ∀ v ∈ field? "argument" t.children,
        isStatement v = false ∧ v.span.start = t.span.start) ∧
      (Construct.ofKind t.kind = .member → t.span.start < t.span.stop))
    ⟨fun h => ⟨h.1, h.2.1, h.2.2⟩, fun h => ⟨h.1, h.2, h.3⟩⟩

theorem elseClause_ne_of_isStatement {t : ParseTree} (h : isStatement t = false) :
    Construct.ofKind t.kind ≠ .elseClause := by
  intro helse
  rw [isStatement, helse] at h
  exact absurd h (by decide)

def PlainlyNamed (source : List Char) (t : ParseTree) : Prop :=
  MemberConstruct.ofKind t.kind = .field → ∀ c ∈ fieldAll "declarator" t.children, ∀ name,
    (declaredBy source t.children (some c)).name = some name → ':' ∉ name.toList

instance (source : List Char) (t : ParseTree) : Decidable (PlainlyNamed source t) :=
  inferInstanceAs (Decidable (MemberConstruct.ofKind t.kind = .field →
    ∀ c ∈ fieldAll "declarator" t.children,
      ∀ name ∈ (declaredBy source t.children (some c)).name, ':' ∉ name.toList))

end ParseTree

/-! Fields -/

namespace Decl

variable {source : List Char} {t : ParseTree}

def DeclaresField (source : List Char) (t : ParseTree) (f : Field) : Prop :=
  ∃ v ∈ subtrees t, MemberConstruct.ofKind (ParseTree.kind v) = .field ∧
    ∃ c ∈ fieldAll "declarator" v.children,
      (declaredBy source v.children (some c)).name = some f.name

theorem DeclaresField.up {v : ParseTree} {f : Field} (h : DeclaresField source v f)
    (hv : v ∈ descendants t) : DeclaresField source t f := by
  obtain ⟨w, hw, hfield⟩ := h
  exact ⟨w, mem_subtrees_of_mem_descendants hv hw, hfield⟩

theorem fields_concat (ms : List Members) :
    (Members.concat ms).fields = ms.flatMap (·.fields) := by
  induction ms with
  | nil => rfl
  | cons m ms ih =>
    rw [List.flatMap_cons, ← ih]
    rfl

theorem fields_readMembers (source : List Char) (owner : Owner) (cs : List ParseTree) :
    (readMembers source owner cs).fields =
      (items cs).flatMap fun c => (readMember source owner c).fields := by
  induction cs with
  | nil => rfl
  | cons c cs ih =>
    have happend : ∀ a b : Members, (a ++ b).fields = a.fields ++ b.fields := fun _ _ => rfl
    rw [readMembers]
    by_cases hc : isItem c <;> simp [items, hc, happend, ih]

theorem fields_memberOfDeclaration (source : List Char) (owner : Owner)
    (member declarator : ParseTree) :
    (memberOfDeclaration source owner member declarator).fields = [] := by
  unfold memberOfDeclaration
  split
  · rfl
  · split <;> rfl

theorem name_of_mem_memberOfField {owner : Owner} {member declarator : ParseTree} {f : Field}
    (hf : f ∈ (memberOfField source owner member declarator).fields) :
    (declaredBy source member.children (some declarator)).name = some f.name := by
  unfold memberOfField at hf
  split at hf
  · rw [fields_memberOfDeclaration] at hf
    exact absurd hf List.not_mem_nil
  · simp only at hf
    split at hf
    · exact absurd hf List.not_mem_nil
    · rename_i name hname
      split at hf
      · exact absurd hf List.not_mem_nil
      · rw [hname, List.mem_singleton.mp hf]

/-- The fields among the members that a tree gives. -/
theorem declaresField_readMember {owner : Owner} {f : Field}
    (hf : f ∈ (readMember source owner t).fields) : DeclaresField source t f := by
  induction t using induct_descendants with
  | h t ih =>
    obtain ⟨i, cs⟩ := t
    rw [readMember] at hf
    cases hk : MemberConstruct.ofKind i.kind with
    | field =>
      simp only [hk] at hf
      rcases List.mem_append.mp hf with hf | hf
      · split at hf <;> exact absurd hf List.not_mem_nil
      · rw [fields_concat] at hf
        obtain ⟨m, hm, hf⟩ := List.mem_flatMap.mp hf
        obtain ⟨c, hc, rfl⟩ := List.mem_map.mp hm
        exact ⟨_, self_mem_subtrees _, hk, c, hc, name_of_mem_memberOfField hf⟩
    | container =>
      simp only [hk, fields_readMembers] at hf
      obtain ⟨c, hc, hf⟩ := List.mem_flatMap.mp hf
      have hmem := child_mem_descendants (t := .node i cs) (Code.mem_children_of_mem_items hc)
      exact (ih c hmem hf).up hmem
    | declaration =>
      simp only [hk, fields_concat] at hf
      obtain ⟨m, hm, hf⟩ := List.mem_flatMap.mp hf
      obtain ⟨c, -, rfl⟩ := List.mem_map.mp hm
      rw [fields_memberOfDeclaration] at hf
      exact absurd hf List.not_mem_nil
    | function =>
      simp only [hk, memberOfFunction] at hf
      split at hf <;> exact absurd hf List.not_mem_nil
    | _ =>
      simp only [hk] at hf
      exact absurd hf List.not_mem_nil

theorem exists_item_of_mem_fields {scope : List String} {hint : Option String} {r : Record}
    {ds : List Decl} {body : ParseTree} {f : Field}
    (h : readRecord source scope hint t = some (r, ds)) (hbody : field? "body" t.children = some body)
    (hf : f ∈ r.fields) :
    ∃ c ∈ items body.children, f ∈ (readMember source r.asOwner c).fields := by
  obtain ⟨i, cs⟩ := t
  rw [children_node] at hbody
  rw [readRecord] at h
  simp only [hbody, Option.bind_eq_bind, Option.bind_some, readMembersBody_eq,
    Option.map_some, Option.getD_some] at h
  obtain ⟨name, -, heq⟩ := Option.bind_eq_some_iff.mp h
  simp only [Option.pure_def, Option.some.injEq, Prod.mk.injEq] at heq
  obtain ⟨rfl, -⟩ := heq
  simp only [fields_readMembers] at hf
  exact List.mem_flatMap.mp hf

/-- Every field of a record that is read has its name from a member declaration. -/
theorem kept_declaresField (source : List Char) :
    Kept source fun _ t _ ds => ∀ r ∈ recordsOf ds, ∀ f ∈ r.fields, DeclaresField source t f where
  up hv h r hr f hf := (h r hr f hf).up hv
  children hl hg r hr f hf := by
    rw [recordsOf_flatMap] at hr
    obtain ⟨c, hc, hrc⟩ := List.mem_flatMap.mp hr
    exact (hg c hc r hrc f hf).up (child_mem_descendants (hl.subset hc))
  methods _ h := h
  nest h r hr := h r (by rwa [recordsOf_nest] at hr)
  record {_ _ t body q _} _ hread hof hitems r hr f hf := by
    have hup : ∀ c ∈ items body.children, c ∈ descendants t := fun c hc =>
      descendants_trans (child_mem_descendants (Code.mem_children_of_mem_items hc))
        (child_mem_descendants (field?_mem hof.body_eq))
    rw [recordsOf, records, recordsOf, List.append_nil, hof.decls_eq, List.mem_cons,
      recordsOf_flatMap] at hr
    rcases hr with rfl | hr
    · obtain ⟨c, hc, hfield⟩ := exists_item_of_mem_fields hread hof.body_eq hf
      exact (declaresField_readMember hfield).up (hup c hc)
    · obtain ⟨c, hc, hrc⟩ := List.mem_flatMap.mp hr
      exact (hitems c hc r hrc f hf).up (hup c hc)
  function _ r hr := by simp [recordsOf, records] at hr
  declarators h r hr := by
    rw [recordsOf_append, (readDeclarators_empty ..).2, List.append_nil] at hr
    exact h r hr

end Decl

/-- No field of a file in which the names of fields are single tokens has a colon in its name. -/
theorem SourceFile.colon_notMem_name {path : String} {source : List Char} {parsed : Parsed}
    (hplain : Everywhere (PlainlyNamed source) parsed.tree) {r : Record}
    (hr : r ∈ (SourceFile.ofParsed path source parsed).records) {f : Field} (hf : f ∈ r.fields) :
    ':' ∉ f.name.toList := by
  obtain ⟨v, hv, hkind, c, hc, hname⟩ :=
    (Decl.kept_declaresField source).ofParsed path parsed r hr f hf
  exact hplain v hv hkind c hc f.name hname

end Cpp

namespace Accessors

open Cpp Encapsulate.Tree ParseTree

variable {source : List Char} {t : ParseTree} {role : Role}

theorem read_elseClause_cases (source : List Char) (role : Role)
    (h : Construct.ofKind t.kind = .elseClause) :
    (∃ v ∈ descendants t, Code.read source role t = Code.read source role v) ∨
      Code.read source role t = .node ⟨role, .group, t.span⟩ [] := by
  rw [Code.read_elseClause source role h]
  cases hitem : t.children.find? isItem with
  | none => exact Or.inr rfl
  | some c => exact Or.inl ⟨c, child_mem_descendants (List.mem_of_find?_eq_some hitem), rfl⟩

/-- The node read from anything but an else clause covers it, and is a statement only if that
is one. -/
theorem info_read (source : List Char) (role : Role)
    (h : Construct.ofKind t.kind ≠ .elseClause) :
    (Code.read source role t).span = t.span ∧
      (isHost (Code.read source role t).info = true → isStatement t = true) := by
  obtain ⟨i, cs⟩ := t
  have hstatement : isStatement (.node i cs) = (Construct.ofKind i.kind).isStatement := rfl
  rw [hstatement, Code.read]
  cases hk : Construct.ofKind i.kind with
  | elseClause => exact absurd hk h
  | loop kind => cases kind <;> exact ⟨rfl, fun _ => rfl⟩
  | exprStmt | declaration | returnStmt | throwStmt | branch | switch | caseLabel | simpleStmt
  | otherStmt => exact ⟨rfl, fun _ => rfl⟩
  | member | braced | step | unary | paren | subscript =>
    simp only
    split <;> exact ⟨rfl, fun hhost => absurd (isHost_iff.mp hhost).1 (by simp [Shape.sort])⟩
  | _ => exact ⟨rfl, fun hhost => absurd (isHost_iff.mp hhost) (by simp [Shape.sort])⟩

/-- A statement at the top of what is read from a tree is one of the tree. -/
theorem exists_statement_of_read (h : isHost (Code.read source role t).info = true) :
    ∃ s ∈ subtrees t, isStatement s = true ∧
      ParseTree.span s = (Code.read source role t).span := by
  induction t using induct_descendants with
  | h t ih =>
    by_cases helse : Construct.ofKind (ParseTree.kind t) = .elseClause
    · rcases read_elseClause_cases source role helse with ⟨v, hv, heq⟩ | heq
      · rw [heq] at h ⊢
        obtain ⟨s, hs, hstatement⟩ := ih v hv h
        exact ⟨s, mem_subtrees_of_mem_descendants hv hs, hstatement⟩
      · rw [heq] at h
        exact absurd (isHost_iff.mp h).1 (by simp [Shape.sort])
    · obtain ⟨hspan, hstatement⟩ := info_read source role helse
      exact ⟨t, self_mem_subtrees t, hstatement h, hspan.symm⟩

/-- Every statement that is read from a tree is one of the tree. -/
theorem exists_statement {c : Code} (hc : c ∈ subtrees (Code.read source role t))
    (hhost : isHost c.info = true) :
    ∃ s ∈ subtrees t, isStatement s = true ∧ ParseTree.span s = c.span := by
  induction t using induct_descendants generalizing role with
  | h t ih =>
    rcases Code.read_cases source role t with ⟨v, hv, heq⟩ | ⟨shape, pieces, hread, ⟨hof, -⟩, -⟩
    · rw [heq] at hc
      obtain ⟨s, hs, hstatement⟩ := ih v hv hc
      exact ⟨s, mem_subtrees_of_mem_descendants hv hs, hstatement⟩
    · rw [hread] at hc
      rcases mem_subtrees_node.mp hc with hroot | ⟨d, hd, hcd⟩
      · rw [← hread] at hroot
        rw [hroot] at hhost ⊢
        exact exists_statement_of_read hhost
      · obtain ⟨p, hp, rfl⟩ := List.mem_map.mp hd
        cases hof p hp with
        | ofTree role' v hv =>
          obtain ⟨s, hs, hstatement⟩ := ih v hv hcd
          exact ⟨s, mem_subtrees_of_mem_descendants hv hs, hstatement⟩
        | missing role' =>
          rw [Code.Piece.missing, mem_subtrees_node] at hcd
          rw [hcd.resolve_right (by simp)] at hhost
          exact absurd (isHost_iff.mp hhost).1 (by simp [Shape.sort])
        | typeName v hv =>
          rw [Code.Piece.typeName, mem_subtrees_node] at hcd
          rw [hcd.resolve_right (by simp)] at hhost
          exact absurd (isHost_iff.mp hhost).1 (by simp [Shape.sort])

/-- What code inherits from a grammatical tree: the right operand of an assignment encloses its
statements if the assignment does, and an access begins with its object and is not empty. -/
structure Produced (c : Code) : Prop where
  right : isAssignment c = true → ∀ left right, c.children = [left, right] → Encloses c →
    Encloses right
  object : ∀ isArrow field, c.shape = .member isArrow field →
    ∀ d ∈ c.children, (Code.span d).start = c.span.start
  access : ∀ isArrow field, c.shape = .member isArrow field → c.span.start < c.span.stop

/-- Only assignments and accesses matter. -/
theorem Produced.of_ne {c : Code} (hassign : isAssignment c = false)
    (hmember : ∀ isArrow field, c.shape ≠ .member isArrow field) : Produced c := by
  constructor
  · intro h
    rw [hassign] at h
    exact absurd h (by simp)
  · exact fun isArrow field h => absurd h (hmember isArrow field)
  · exact fun isArrow field h => absurd h (hmember isArrow field)

/-- An operand that ends its assignment and does not begin with a statement encloses its
statements: at the end they stop before the assignment does. -/
theorem encloses_right {v : ParseTree} {c : Code} (hencloses : Encloses c)
    (hmem : Code.read source .right v ∈ subtrees c) (hstop : v.span.stop = c.span.stop)
    (hstart : ∀ s ∈ subtrees v, isStatement s = true → v.span.start < (ParseTree.span s).start) :
    Encloses (Code.read source .right v) := by
  have helse : isStatement v = false := by
    by_contra hv
    exact absurd (hstart v (self_mem_subtrees v) (by simpa using hv)) (Nat.lt_irrefl _)
  have hspan := (info_read source .right (elseClause_ne_of_isStatement helse)).1
  intro d hd hhost
  obtain ⟨s, hs, hstatement, hsd⟩ := exists_statement hd hhost
  have hfirst := hstart s hs hstatement
  have hlast := (hencloses d (mem_subtrees_trans c hd hmem) hhost).2
  rw [hsd] at hfirst
  rw [hspan, hstop]
  exact ⟨hfirst, hlast⟩

/-- The code of one node of a grammatical tree. -/
theorem produced_of_read (ht : Everywhere Grammatical t) (role : Role) :
    Produced (Code.read source role t) := by
  induction t using induct_descendants with
  | h t ih =>
    by_cases helse : Construct.ofKind (ParseTree.kind t) = .elseClause
    · rcases read_elseClause_cases source role helse with ⟨v, hv, heq⟩ | heq
      · rw [heq]
        exact ih v hv (ht.of_mem_descendants hv)
      · rw [heq]
        exact .of_ne rfl (by simp [Code.shape])
    · obtain ⟨hright, hobject, haccess⟩ := ht.here
      obtain ⟨i, cs⟩ := t
      rw [Code.read]
      cases hk : Construct.ofKind i.kind with
      | elseClause => exact absurd hk helse
      | assign =>
        simp only
        refine ⟨?_, by simp [Code.shape], by simp [Code.shape]⟩
        intro _ left right hparts hencloses
        simp only [children_node, List.cons.injEq, and_true] at hparts
        obtain ⟨-, rfl⟩ := hparts
        have hpart := Code.readField_eq source .right "right" cs
        cases hv : field? "right" cs with
        | none =>
          intro s hs hhost
          rw [hpart, hv, Option.map_none, Option.getD_none, mem_subtrees_node] at hs
          rw [hs.resolve_right (by simp)] at hhost
          exact absurd (isHost_iff.mp hhost).1 (by simp [Shape.sort])
        | some v =>
          obtain ⟨hstop, hstart⟩ := hright hk v hv
          rw [hpart, hv, Option.map_some, Option.getD_some] at hencloses ⊢
          refine encloses_right hencloses ?_ hstop hstart
          exact mem_subtrees_node.mpr (Or.inr ⟨_, by simp, self_mem_subtrees _⟩)
      | member =>
        simp only
        split
        · refine ⟨by simp [isAssignment, Code.shape], ?_, fun _ _ _ => haccess hk⟩
          intro isArrow field _ d hd
          rw [Code.readField_eq, children_node, Option.mem_toList, Option.map_eq_some_iff] at hd
          obtain ⟨v, hv, rfl⟩ := hd
          obtain ⟨hstatement, hstart⟩ := hobject hk v hv
          rw [(info_read source .item (elseClause_ne_of_isStatement hstatement)).1]
          exact hstart
        · exact .of_ne rfl (by simp [Code.shape])
      | loop kind => cases kind <;> exact .of_ne rfl (by simp [Code.shape])
      | braced | step | unary | paren | subscript =>
        simp only
        split <;> exact .of_ne rfl (by simp [Code.shape])
      | _ => exact .of_ne rfl (by simp [Code.shape])

/-- All code of a grammatical tree. -/
theorem produced_read (ht : Everywhere Grammatical t) (role : Role) :
    Everywhere Produced (Code.read source role t) := by
  refine Code.everywhere_read (K := Everywhere Grammatical) ?_ ?_ ?_ role ht
  · exact fun t ht v hv => ht.of_mem_descendants hv
  · exact fun role t ht _ => produced_of_read ht role
  · intro t i _ harity _
    refine .of_ne ?_ ?_
    · rw [isAssignment, Code.shape, info_node]
      split
      · rename_i hshape
        rw [hshape] at harity
        exact absurd harity (by simp [Code.arity?])
      · rfl
    · intro isArrow field hshape
      rw [Code.shape, info_node] at hshape
      rw [hshape] at harity
      exact absurd harity (by simp [Code.arity?])

/-- Code of a grammatical tree whose expressions enclose the statements inside them. -/
theorem Produced.fenced {c : Code} (h : Produced c) (henclosing : Enclosing c) : Fenced c := by
  refine ⟨henclosing, ?_, fun isArrow hshape => h.access isArrow "" hshape⟩
  intro hassign left right hparts
  refine h.right hassign left right hparts (henclosing ?_)
  unfold isAssignment at hassign
  split at hassign
  · rename_i hshape
    rw [hshape]
    rfl
  · exact absurd hassign (by simp)

end Accessors

end Encapsulate
