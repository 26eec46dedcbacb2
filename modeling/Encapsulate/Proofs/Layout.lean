import Encapsulate.Proofs.Reading
import Mathlib.Data.List.Pairwise

/-!
How the code read from a parse tree is laid out in the text. A node of the code
covers the text of the parse tree it is read from, or of a part of it, and its
parts are read from different parts of that tree. So where the children of every
parse tree stand inside it and one after the other, the parts of every piece of
code stand inside it and apart from each other, although not always in the order
in which they are visited.
-/

namespace Encapsulate

namespace Span

@[simp] theorem contains_iff {a b : Span} :
    a.contains b = true ↔ a.start ≤ b.start ∧ b.stop ≤ a.stop := by
  simp [contains]

theorem contains_refl (a : Span) : a.contains a = true := by
  simp

theorem contains_trans {a b c : Span} (hab : a.contains b = true) (hbc : b.contains c = true) :
    a.contains c = true := by
  simp only [contains_iff] at *
  omega

@[simp] theorem strictlyContains_iff {a : Span} {n : Nat} :
    a.strictlyContains n = true ↔ a.start < n ∧ n < a.stop := by
  simp [strictlyContains]

def Apart (a b : Span) : Prop :=
  a.stop ≤ b.start ∨ b.stop ≤ a.start

theorem Apart.symm {a b : Span} (h : Apart a b) : Apart b a :=
  Or.symm h

theorem Apart.mono {a b a' b' : Span} (h : Apart a b) (ha : a.contains a' = true)
    (hb : b.contains b' = true) : Apart a' b' := by
  simp only [contains_iff] at ha hb
  unfold Apart at *
  omega

/-- Whatever stands inside a span is apart from the empty range at its end. -/
theorem apart_point_stop {a b : Span} (h : a.contains b = true) : Apart b (point a.stop) := by
  simp only [contains_iff] at h
  exact Or.inl h.2

end Span

namespace Cpp

open Encapsulate.Tree

namespace ParseTree

/-- The children of a node stand inside it, one after the other. -/
structure Orderly (t : ParseTree) : Prop where
  start_le : t.span.start ≤ t.span.stop
  inside : ∀ c ∈ t.children, t.span.contains (span c) = true
  inOrder : t.children.Pairwise fun a b => (span a).stop ≤ (span b).start

instance (t : ParseTree) : Decidable (Orderly t) :=
  decidable_of_iff
    (t.span.start ≤ t.span.stop ∧ (∀ c ∈ t.children, t.span.contains (span c) = true) ∧
      t.children.Pairwise fun a b => (span a).stop ≤ (span b).start)
    ⟨fun h => ⟨h.1, h.2.1, h.2.2⟩, fun h => ⟨h.1, h.2, h.3⟩⟩

/-- A declaration with a value of its own has at most one declarator. -/
def OneValue (t : ParseTree) : Prop :=
  t.kind = "declaration" → hasField "value" t.children = true →
    (fieldAll "declarator" t.children).length ≤ 1

instance (t : ParseTree) : Decidable (OneValue t) :=
  inferInstanceAs (Decidable (t.kind = "declaration" → hasField "value" t.children = true →
    (fieldAll "declarator" t.children).length ≤ 1))

/-- Both of these at every node. -/
structure Tidy (t : ParseTree) : Prop where
  orderly : Everywhere Orderly t
  oneValue : Everywhere OneValue t

instance (t : ParseTree) : Decidable (Tidy t) :=
  decidable_of_iff (Everywhere Orderly t ∧ Everywhere OneValue t)
    ⟨fun h => ⟨h.1, h.2⟩, fun h => ⟨h.1, h.2⟩⟩

theorem field?_mem {f : String} {cs : List ParseTree} {c : ParseTree}
    (h : field? f cs = some c) : c ∈ cs :=
  List.mem_of_find?_eq_some h

theorem field?_fills {f : String} {cs : List ParseTree} {c : ParseTree}
    (h : field? f cs = some c) : c.info.field = some f := by
  have hc : fills f c = true := List.find?_some h
  simpa [fills] using hc

theorem items_sublist (cs : List ParseTree) : (items cs).Sublist cs :=
  List.filter_sublist

namespace Orderly

variable {t : ParseTree}

theorem apart (h : Orderly t) : t.children.Pairwise fun a b => Span.Apart (span a) (span b) :=
  h.inOrder.imp fun hab => Or.inl hab

/-- Two children that differ stand apart. -/
theorem apart_of_ne (h : Orderly t) {a b : ParseTree} (ha : a ∈ t.children)
    (hb : b ∈ t.children) (hab : a ≠ b) : Span.Apart a.span b.span := by
  have hsymm : Std.Symm fun a b : ParseTree => Span.Apart a.span b.span :=
    ⟨fun _ _ hxy => hxy.symm⟩
  exact h.apart.forall ha hb hab

end Orderly

namespace Tidy

variable {t : ParseTree}

theorem here (h : Tidy t) : Orderly t :=
  h.orderly.here

theorem child (h : Tidy t) {c : ParseTree} (hc : c ∈ t.children) : Tidy c :=
  ⟨h.orderly.child hc, h.oneValue.child hc⟩

theorem of_mem_descendants (h : Tidy t) {v : ParseTree} (hv : v ∈ descendants t) : Tidy v :=
  ⟨h.orderly.of_mem_descendants hv, h.oneValue.of_mem_descendants hv⟩

end Tidy

/-- Everything below a node stands inside it. -/
theorem span_contains_of_mem_descendants {t v : ParseTree} (h : Tidy t)
    (hv : v ∈ descendants t) : t.span.contains v.span = true := by
  induction t using Tree.inductionOn with
  | h i cs ih =>
    obtain ⟨c, hc, hvc⟩ := mem_descendants.mp hv
    have hin := h.here.inside c hc
    cases c with
    | node j ks =>
      rcases mem_subtrees_node.mp hvc with rfl | ⟨k, hk, hvk⟩
      · exact hin
      · exact Span.contains_trans hin
          (ih _ hc (h.child hc) (mem_descendants.mpr ⟨k, hk, hvk⟩))

def named (kind : String) (start stop : Nat) (children : List ParseTree) : ParseTree :=
  .node ⟨kind, true, ⟨start, stop⟩, none⟩ children

def filling (field kind : String) (start stop : Nat) (children : List ParseTree) : ParseTree :=
  .node ⟨kind, true, ⟨start, stop⟩, some field⟩ children

def accessTree (field : String) (start : Nat) : ParseTree :=
  filling field "field_expression" start (start + 3)
    [filling "argument" "identifier" start (start + 1) [],
     filling "field" "field_identifier" (start + 2) (start + 3) []]

def mark (field : Option String) (token : String) (start stop : Nat) : ParseTree :=
  .node ⟨token, false, ⟨start, stop⟩, field⟩ []

def unitText (statements : String) : List Char :=
  ("struct F\x7bint x;\x7d;void f(F a)\x7b" ++ statements ++ "\x7d").toList

/-- The tree of such a file; the statements start at 29 and end at `stop`. -/
def unitTree (stop : Nat) (statements : List ParseTree) : ParseTree :=
  named "translation_unit" 0 (stop + 1)
    [named "struct_specifier" 0 16
       [filling "name" "type_identifier" 7 8 [],
        filling "body" "field_declaration_list" 8 16
          [named "field_declaration" 9 15
             [filling "type" "primitive_type" 9 12 [],
              filling "declarator" "field_identifier" 13 14 []],
           mark none "\x7d" 15 16]],
     named "function_definition" 17 (stop + 1)
       [filling "type" "primitive_type" 17 21 [],
        filling "declarator" "function_declarator" 22 28
          [filling "declarator" "identifier" 22 23 [],
           filling "parameters" "parameter_list" 23 28
             [named "parameter_declaration" 24 27
                [filling "type" "type_identifier" 24 25 [],
                 filling "declarator" "identifier" 26 27 []]]],
        filling "body" "compound_statement" 28 (stop + 1) statements]]

end ParseTree

namespace Code

open ParseTree

def arity? : Shape → Option Nat
  | .member .. | .step .. | .unary _ | .paren => some 1
  | .assign _ => some 2
  | _ => none

/-- A part of a piece of code with the text it was read from. -/
structure Piece where
  extent : Span
  code : Code

namespace Piece

def ofTree (source : List Char) (role : Role) (t : ParseTree) : Piece :=
  ⟨t.span, read source role t⟩

def missing (role : Role) (t : ParseTree) : Piece :=
  ⟨.point t.span.stop, .node ⟨role, .group, .point t.span.stop⟩ []⟩

def typeName (source : List Char) (t : ParseTree) : Piece :=
  ⟨t.span, .node ⟨.item, .identifier (text source t), t.span⟩ []⟩

/-- The ways in which a piece comes from a parse tree. -/
inductive IsOf (source : List Char) (t : ParseTree) : Piece → Prop
  | ofTree (role : Role) (v : ParseTree) (hv : v ∈ descendants t) :
      IsOf source t (.ofTree source role v)
  | missing (role : Role) : IsOf source t (.missing role t)
  | typeName (v : ParseTree) (hv : v ∈ t.children) : IsOf source t (.typeName source v)

end Piece

theorem Piece.IsOf.inside {source : List Char} {t : ParseTree} {p : Piece}
    (hp : p.IsOf source t) (ht : Tidy t) : t.span.contains p.extent = true := by
  cases hp with
  | ofTree role v hv => exact span_contains_of_mem_descendants ht hv
  | missing role => simpa [Piece.missing, Span.point] using ht.here.start_le
  | typeName v hv => exact ht.here.inside v hv

/-- The pieces come from `t` and, if it is tidy, lie apart from each other. -/
def Cut (source : List Char) (t : ParseTree) (pieces : List Piece) : Prop :=
  (∀ p ∈ pieces, p.IsOf source t) ∧
    (Tidy t → pieces.Pairwise fun p q => Span.Apart p.extent q.extent)

namespace Cut

variable {source : List Char} {t : ParseTree}

theorem nil : Cut source t [] :=
  ⟨by simp, fun _ => List.Pairwise.nil⟩

theorem append {ps qs : List Piece} (hps : Cut source t ps) (hqs : Cut source t qs)
    (hap : Tidy t → ∀ p ∈ ps, ∀ q ∈ qs, Span.Apart p.extent q.extent) :
    Cut source t (ps ++ qs) := by
  constructor
  · intro p hp
    rcases List.mem_append.mp hp with hp | hp
    · exact hps.1 p hp
    · exact hqs.1 p hp
  · intro ht
    exact List.pairwise_append.mpr ⟨hps.2 ht, hqs.2 ht, hap ht⟩

/-- Trees below `t` that stand apart, all read in one role. -/
theorem ofTrees (role : Role) {ts : List ParseTree} (hts : ∀ v ∈ ts, v ∈ descendants t)
    (hs : Tidy t → ts.Pairwise fun a b : ParseTree => Span.Apart a.span b.span) :
    Cut source t (ts.map (Piece.ofTree source role)) := by
  constructor
  · intro p hp
    obtain ⟨v, hv, rfl⟩ := List.mem_map.mp hp
    exact .ofTree role v (hts v hv)
  · intro ht
    exact List.pairwise_map.mpr (hs ht)

theorem singleton (role : Role) {v : ParseTree} (hv : v ∈ descendants t) :
    Cut source t [Piece.ofTree source role v] := by
  change Cut source t ([v].map (Piece.ofTree source role))
  refine ofTrees role ?_ fun _ => List.pairwise_singleton ..
  intro w hw
  rw [List.mem_singleton.mp hw]
  exact hv

/-- Children of `t`, in their order. -/
theorem ofChildren (role : Role) {ts : List ParseTree} (hts : ts.Sublist t.children) :
    Cut source t (ts.map (Piece.ofTree source role)) :=
  ofTrees role (fun _ hv => child_mem_descendants (hts.subset hv))
    fun ht => ht.here.apart.sublist hts

end Cut

/-- A field of a node that is read as one part. -/
structure FieldPart where
  role : Role
  name : String
  isRequired : Bool

def FieldPart.pieces (source : List Char) (t : ParseTree) (f : FieldPart) : List Piece :=
  match field? f.name t.children with
  | some v => [.ofTree source f.role v]
  | none => if f.isRequired then [.missing f.role t] else []

theorem FieldPart.code_required (source : List Char) (i : ParseNode) (cs : List ParseTree)
    (role : Role) (name : String) :
    (pieces source (.node i cs) ⟨role, name, true⟩).map Piece.code =
      [(readField source role name cs).getD
        (.node ⟨role, .group, .point i.span.stop⟩ [])] := by
  rw [readField_eq]
  cases h : field? name cs with
  | none => simp [pieces, h, Piece.missing, ParseTree.span]
  | some v => simp [pieces, h, Piece.ofTree]

theorem FieldPart.code_optional (source : List Char) (i : ParseNode) (cs : List ParseTree)
    (role : Role) (name : String) :
    (pieces source (.node i cs) ⟨role, name, false⟩).map Piece.code =
      (readField source role name cs).toList := by
  rw [readField_eq]
  cases h : field? name cs with
  | none => simp [pieces, h]
  | some v => simp [pieces, h, Piece.ofTree]

/-- A piece of a field is that of the child that fills it, or stands for it. -/
theorem FieldPart.mem_pieces {source : List Char} {t : ParseTree} {f : FieldPart} {p : Piece}
    (hp : p ∈ f.pieces source t) :
    (∃ v, field? f.name t.children = some v ∧ p = .ofTree source f.role v) ∨
      p = .missing f.role t := by
  unfold pieces at hp
  split at hp
  · exact Or.inl ⟨_, by assumption, List.mem_singleton.mp hp⟩
  · split at hp
    · exact Or.inr (List.mem_singleton.mp hp)
    · simp at hp

/-- Whatever lies inside the child of another field is apart from a piece of a field. -/
theorem FieldPart.apart_of_field {source : List Char} {t : ParseTree}
    (ht : Tidy t) {f : FieldPart} {p : Piece} (hp : p ∈ f.pieces source t)
    {name : String} (hname : f.name ≠ name) {w : ParseTree}
    (hw : field? name t.children = some w) {e : Span} (he : w.span.contains e = true) :
    Span.Apart p.extent e := by
  have hin : t.span.contains w.span = true := ht.here.inside w (field?_mem hw)
  rcases mem_pieces hp with ⟨v, hv, rfl⟩ | rfl
  · have hne : v ≠ w := by
      rintro rfl
      exact hname (Option.some.inj ((field?_fills hv).symm.trans (field?_fills hw)))
    exact (ht.here.apart_of_ne (field?_mem hv) (field?_mem hw) hne).mono
      (Span.contains_refl _) he
  · exact (Span.apart_point_stop (Span.contains_trans hin he)).symm

theorem FieldPart.apart {source : List Char} {t : ParseTree} (ht : Tidy t)
    {f g : FieldPart} (hfg : f.name ≠ g.name) {p q : Piece} (hp : p ∈ f.pieces source t)
    (hq : q ∈ g.pieces source t) : Span.Apart p.extent q.extent := by
  rcases mem_pieces hq with ⟨w, hw, rfl⟩ | rfl
  · exact apart_of_field ht hp hfg hw (Span.contains_refl _)
  · rcases mem_pieces hp with ⟨v, hv, rfl⟩ | rfl
    · exact Span.apart_point_stop (ht.here.inside v (field?_mem hv))
    · exact Or.inl (Nat.le_refl _)

theorem FieldPart.cut (source : List Char) (t : ParseTree) (f : FieldPart) :
    Cut source t (f.pieces source t) := by
  unfold pieces
  split
  · exact Cut.singleton _ (child_mem_descendants (field?_mem (by assumption)))
  · split
    · refine ⟨fun p hp => ?_, fun _ => List.pairwise_singleton ..⟩
      rw [List.mem_singleton.mp hp]
      exact .missing f.role
    · exact Cut.nil

/-- The pieces of different fields lie apart, whatever the order of the fields. -/
theorem Cut.ofFields {source : List Char} {t : ParseTree} {fs : List FieldPart}
    (hfs : (fs.map FieldPart.name).Nodup) :
    Cut source t (fs.flatMap (FieldPart.pieces source t)) := by
  induction fs with
  | nil => exact Cut.nil
  | cons f fs ih =>
    rw [List.map_cons, List.nodup_cons] at hfs
    rw [List.flatMap_cons]
    refine (f.cut source t).append (ih hfs.2) ?_
    intro ht p hp q hq
    obtain ⟨g, hg, hqg⟩ := List.mem_flatMap.mp hq
    refine FieldPart.apart ht ?_ hp hqg
    intro hname
    exact hfs.1 (List.mem_map.mpr ⟨g, hg, hname.symm⟩)

theorem mem_fieldItems {field : String} {cs : List ParseTree} {v : ParseTree}
    (hv : v ∈ fieldItems field cs) : ∃ w, field? field cs = some w ∧ v ∈ items w.children := by
  unfold fieldItems at hv
  cases hw : field? field cs with
  | none => simp [hw] at hv
  | some w => exact ⟨w, rfl, by simpa [hw] using hv⟩

theorem mem_children_of_mem_items {v w : ParseTree} (hv : v ∈ items w.children) :
    v ∈ w.children :=
  (items_sublist _).subset hv

/-- The items of the child that fills a field. -/
theorem Cut.ofFieldItems (source : List Char) (role : Role) (field : String) (t : ParseTree) :
    Cut source t ((fieldItems field t.children).map (Piece.ofTree source role)) := by
  refine Cut.ofTrees role ?_ ?_
  · intro v hv
    obtain ⟨w, hw, hvw⟩ := mem_fieldItems hv
    exact descendants_trans (child_mem_descendants (mem_children_of_mem_items hvw))
      (child_mem_descendants (field?_mem hw))
  · intro ht
    unfold fieldItems
    cases hw : field? field t.children with
    | none => exact List.Pairwise.nil
    | some w =>
      exact (ht.child (field?_mem hw)).here.apart.sublist (items_sublist _)

/-- The items of a field lie inside the child that fills it. -/
theorem fieldItems_inside {t : ParseTree} (ht : Tidy t) {field : String}
    {v : ParseTree} (hv : v ∈ fieldItems field t.children) :
    ∃ w, field? field t.children = some w ∧ w.span.contains v.span = true := by
  obtain ⟨w, hw, hvw⟩ := mem_fieldItems hv
  exact ⟨w, hw, (ht.child (field?_mem hw)).here.inside v (mem_children_of_mem_items hvw)⟩

theorem otherItems_sublist (field : String) (cs : List ParseTree) :
    (otherItems field cs).Sublist cs :=
  (items_sublist _).trans List.eraseP_sublist

/-- The child that fills a field is apart from every other child. -/
theorem apart_otherItems {t : ParseTree} (ht : Tidy t) {field : String}
    {v w : ParseTree} (hv : field? field t.children = some v)
    (hw : w ∈ otherItems field t.children) : Span.Apart v.span w.span := by
  obtain ⟨hfill, as, bs, hcs, has⟩ := List.find?_eq_some_iff_append.mp hv
  have herase : t.children.eraseP (fills field) = as ++ bs := by
    rw [hcs, List.eraseP_append_right]
    · simp [hfill]
    · simpa using has
  have hmem : w ∈ as ++ bs := by
    rw [← herase]
    exact (items_sublist _).subset hw
  have hpair := ht.here.apart
  rw [hcs] at hpair
  have hcross := List.pairwise_append.mp hpair
  rcases List.mem_append.mp hmem with hwa | hwb
  · exact (hcross.2.2 w hwa v (List.mem_cons_self ..)).symm
  · exact (List.pairwise_cons.mp hcross.2.1).1 w hwb

theorem mem_openList {v w : ParseTree} (hv : v ∈ openList w) : v = w ∨ v ∈ w.children := by
  unfold openList at hv
  split at hv
  · exact Or.inr (mem_children_of_mem_items hv)
  · exact Or.inl (List.mem_singleton.mp hv)

theorem openList_inside {v w : ParseTree} (ht : Tidy w) (hv : v ∈ openList w) :
    w.span.contains v.span = true := by
  rcases mem_openList hv with rfl | hvw
  · exact Span.contains_refl _
  · exact ht.here.inside v hvw

/-- The indices of a subscript. -/
theorem Cut.ofIndices (source : List Char) (field : String) (t : ParseTree) :
    Cut source t
      (((otherItems field t.children).flatMap openList).map (Piece.ofTree source .item)) := by
  refine Cut.ofTrees .item ?_ ?_
  · intro v hv
    obtain ⟨w, hw, hvw⟩ := List.mem_flatMap.mp hv
    have hwt := child_mem_descendants ((otherItems_sublist field _).subset hw)
    rcases mem_openList hvw with rfl | hvw
    · exact hwt
    · exact descendants_trans (child_mem_descendants hvw) hwt
  · intro ht
    refine List.pairwise_flatMap.mpr ⟨?_, ?_⟩
    · intro w hw
      have hwt := ht.child ((otherItems_sublist field _).subset hw)
      unfold openList
      split
      · exact hwt.here.apart.sublist (items_sublist _)
      · exact List.pairwise_singleton ..
    · refine (ht.here.apart.sublist (otherItems_sublist field _)).imp_of_mem ?_
      intro a b ha hb hab x hx y hy
      exact hab.mono (openList_inside (ht.child ((otherItems_sublist field _).subset ha)) hx)
        (openList_inside (ht.child ((otherItems_sublist field _).subset hb)) hy)

theorem defaultValue_mem {source : List Char} {t v : ParseTree}
    (h : defaultValue source t = some v) : v ∈ t.children := by
  unfold defaultValue at h
  split at h
  · obtain ⟨_, _, hv⟩ := Option.bind_eq_some_iff.mp h
    exact field?_mem hv
  · simp at h

theorem mem_signatureValues {source : List Char} {cs : List ParseTree} {v : ParseTree}
    (hv : v ∈ signatureValues source cs) :
    ∃ d list param, field? "declarator" cs = some d ∧ list ∈ d.children ∧
      param ∈ list.children ∧ v ∈ param.children := by
  unfold signatureValues at hv
  cases hd : field? "declarator" cs with
  | none => simp [hd] at hv
  | some d =>
    cases hl : field? "parameters" d.children with
    | none => simp [hd, hl] at hv
    | some list =>
      simp only [hd, hl, Option.bind_some, Option.map_some, Option.getD_some,
        List.mem_filterMap] at hv
      obtain ⟨param, hparam, hval⟩ := hv
      exact ⟨d, list, param, rfl, field?_mem hl, hparam, defaultValue_mem hval⟩

/-- The default values of a lambda's parameters. -/
theorem Cut.ofSignature (source : List Char) (t : ParseTree) :
    Cut source t
      ((signatureValues source t.children).map (Piece.ofTree source .initializer)) := by
  refine Cut.ofTrees .initializer ?_ ?_
  · intro v hv
    obtain ⟨d, list, param, hd, hlist, hparam, hval⟩ := mem_signatureValues hv
    exact descendants_trans (child_mem_descendants hval)
      (descendants_trans (child_mem_descendants hparam)
        (descendants_trans (child_mem_descendants hlist)
          (child_mem_descendants (field?_mem hd))))
  · intro ht
    unfold signatureValues
    cases hd : field? "declarator" t.children with
    | none => exact List.Pairwise.nil
    | some d =>
      cases hl : field? "parameters" d.children with
      | none => simp [hl]
      | some list =>
        have hlist := (ht.child (field?_mem hd)).child (field?_mem hl)
        simp only [Option.bind_some, hl, Option.map_some, Option.getD_some]
        refine List.pairwise_filterMap.mpr (hlist.here.apart.imp_of_mem ?_)
        intro a b ha hb hab x hx y hy
        exact hab.mono ((hlist.child ha).here.inside x (defaultValue_mem hx))
          ((hlist.child hb).here.inside y (defaultValue_mem hy))

/-- A declarator with a value: the value is that of the declaration or stands inside the
declarator. -/
theorem exists_of_declaratorValue {source : List Char} {specifier : TypeRef} {t c : ParseTree}
    (hc : c ∈ t.children) {code : Code}
    (h : declaratorValue source specifier
      (readField source .initializer "value" t.children) c = some code) :
    fills "declarator" c = true ∧ ∃ v, code = read source .initializer v ∧
      v ∈ descendants t ∧ (field? "value" t.children = none → v ∈ descendants c) := by
  unfold declaratorValue at h
  split at h
  · rename_i hdecl
    rw [Bool.and_eq_true] at hdecl
    obtain ⟨_, _, hread⟩ := Option.bind_eq_some_iff.mp h
    refine ⟨hdecl.1, ?_⟩
    rcases readValue_cases source
        (readField source .initializer "value" t.children) c with h | h | ⟨v, hv, h⟩
    · rw [hread, readField_eq] at h
      obtain ⟨v, hv, hcode⟩ := Option.map_eq_some_iff.mp h.symm
      exact ⟨v, hcode.symm, child_mem_descendants (field?_mem hv), by simp [hv]⟩
    · simp [hread] at h
    · rw [hread] at h
      exact ⟨v, Option.some.inj h, descendants_trans hv (child_mem_descendants hc), fun _ => hv⟩
  · simp at h

/-- The values that the declarators among some children give to their variables,
when the declaration itself may have a value. -/
theorem exists_declarator_pieces (source : List Char) {t : ParseTree} (specifier : TypeRef)
    {l : List ParseTree} (hl : l.Sublist t.children) :
    ∃ pieces : List Piece,
      pieces.map Piece.code = l.filterMap
        (declaratorValue source specifier (readField source .initializer "value" t.children)) ∧
      (∀ p ∈ pieces, p.IsOf source t) ∧
      pieces.length ≤ (fieldAll "declarator" l).length ∧
      (Tidy t → field? "value" t.children = none →
        (∀ p ∈ pieces, ∃ c ∈ l, (ParseTree.span c).contains p.extent = true) ∧
        pieces.Pairwise fun p q => Span.Apart p.extent q.extent) := by
  induction l with
  | nil => exact ⟨[], rfl, by simp, by simp, fun _ _ => ⟨by simp, List.Pairwise.nil⟩⟩
  | cons c l ih =>
    obtain ⟨ps, hcode, hof, hlen, hap⟩ := ih ((List.sublist_cons_self c l).trans hl)
    have hc : c ∈ t.children := hl.subset (List.mem_cons_self ..)
    have hmono : (fieldAll "declarator" l).length ≤ (fieldAll "declarator" (c :: l)).length :=
      ((List.sublist_cons_self c l).filter _).length_le
    rw [List.filterMap_cons]
    cases hval : declaratorValue source specifier
        (readField source .initializer "value" t.children) c with
    | none =>
      refine ⟨ps, hcode, hof, Nat.le_trans hlen hmono, ?_⟩
      intro ht hv
      obtain ⟨hin, hpair⟩ := hap ht hv
      refine ⟨fun p hp => ?_, hpair⟩
      obtain ⟨d, hd, hdp⟩ := hin p hp
      exact ⟨d, List.mem_cons_of_mem _ hd, hdp⟩
    | some code =>
      obtain ⟨hfill, v, rfl, hvt, hvc⟩ := exists_of_declaratorValue hc hval
      have hgrow : (fieldAll "declarator" (c :: l)).length =
          (fieldAll "declarator" l).length + 1 := by
        simp [fieldAll, hfill]
      refine ⟨.ofTree source .initializer v :: ps, by simp [hcode, Piece.ofTree], ?_,
        by rw [List.length_cons]; omega, ?_⟩
      · intro p hp
        rcases List.mem_cons.mp hp with rfl | hp
        · exact .ofTree _ v hvt
        · exact hof p hp
      · intro ht hnone
        obtain ⟨hin, hpair⟩ := hap ht hnone
        have hcv : c.span.contains v.span = true :=
          span_contains_of_mem_descendants (ht.child hc) (hvc hnone)
        constructor
        · intro p hp
          rcases List.mem_cons.mp hp with rfl | hp
          · exact ⟨c, List.mem_cons_self .., hcv⟩
          · obtain ⟨d, hd, hdp⟩ := hin p hp
            exact ⟨d, List.mem_cons_of_mem _ hd, hdp⟩
        · refine List.pairwise_cons.mpr ⟨fun p hp => ?_, hpair⟩
          obtain ⟨d, hd, hdp⟩ := hin p hp
          have hcd := (List.pairwise_cons.mp (ht.here.apart.sublist hl)).1 d hd
          exact hcd.mono hcv hdp

/-- The values of a declaration. -/
theorem exists_declaration_pieces (source : List Char) (specifier : TypeRef) {t : ParseTree}
    (hkind : t.kind = "declaration") :
    ∃ pieces : List Piece, Cut source t pieces ∧
      pieces.map Piece.code = t.children.filterMap
        (declaratorValue source specifier
          (readField source .initializer "value" t.children)) := by
  obtain ⟨pieces, hcode, hof, hlen, hap⟩ :=
    exists_declarator_pieces source specifier (List.Sublist.refl t.children)
  refine ⟨pieces, ⟨hof, fun ht => ?_⟩, hcode⟩
  cases hv : field? "value" t.children with
  | none => exact (hap ht hv).2
  | some v =>
    -- a declaration with a value of its own gives it to one variable only
    have hfield : hasField "value" t.children = true := by
      refine List.any_eq_true.mpr ⟨v, field?_mem hv, ?_⟩
      exact List.find?_some hv
    have hone := ht.oneValue.here hkind hfield
    match pieces, hlen with
    | [], _ => exact List.Pairwise.nil
    | [p], _ => exact List.pairwise_singleton ..
    | _ :: _ :: _, hlen =>
      simp only [List.length_cons] at hlen
      omega

theorem kind_of_declaration {kind : String} (h : Construct.ofKind kind = .declaration) :
    kind = "declaration" := by
  unfold Construct.ofKind at h
  split at h
  all_goals first
    | rfl
    | exact absurd h (by decide)
    | (split at h; exact absurd h (by decide); split at h <;> exact absurd h (by decide))

@[simp] theorem code_ofTrees (source : List Char) (role : Role) (ts : List ParseTree) :
    (ts.map (Piece.ofTree source role)).map Piece.code = ts.map (read source role) := by
  simp [Piece.ofTree]

def IsMade (source : List Char) (role : Role) (t : ParseTree) (c : Code) : Prop :=
  ∃ shape pieces, c = .node ⟨role, shape, t.span⟩ (pieces.map Piece.code) ∧
    Cut source t pieces ∧ ∀ n, arity? shape = some n → pieces.length = n

namespace IsMade

variable {source : List Char} {role : Role} {i : ParseNode} {cs : List ParseTree}

theorem leaf {shape : Shape} (har : arity? shape = none) :
    IsMade source role (.node i cs) (.node ⟨role, shape, i.span⟩ []) :=
  ⟨shape, [], rfl, Cut.nil, by simp [har]⟩

theorem items {shape : Shape} (har : arity? shape = none) :
    IsMade source role (.node i cs) (.node ⟨role, shape, i.span⟩ (readItems source .item cs)) := by
  refine ⟨shape, _, ?_, Cut.ofChildren .item (items_sublist cs), by simp [har]⟩
  rw [readItems_eq, code_ofTrees]
  rfl

theorem first {shape : Shape} (har : arity? shape = none) :
    IsMade source role (.node i cs)
      (.node ⟨role, shape, i.span⟩ (readFirst source .item cs).toList) := by
  rw [readFirst_eq]
  cases h : cs.find? isItem with
  | none => exact leaf har
  | some c =>
    exact ⟨shape, [.ofTree source .item c], rfl,
      Cut.singleton .item (child_mem_descendants (List.mem_of_find?_eq_some h)), by simp [har]⟩

theorem fields {shape : Shape} (fs : List FieldPart) {parts : List Code}
    (hparts : parts =
      (fs.flatMap (FieldPart.pieces source (.node i cs))).map Piece.code)
    (hfs : (fs.map FieldPart.name).Nodup)
    (har : ∀ n, arity? shape = some n → parts.length = n) :
    IsMade source role (.node i cs) (.node ⟨role, shape, i.span⟩ parts) := by
  refine ⟨shape, _, by rw [hparts]; rfl, Cut.ofFields hfs, ?_⟩
  intro n hn
  rw [← har n hn, hparts, List.length_map]

/-- The operand of an access, a step or a unary operation. -/
theorem operand {shape : Shape} {v : ParseTree} (hv : field? "argument" cs = some v)
    (har : arity? shape = some 1) :
    IsMade source role (.node i cs)
      (.node ⟨role, shape, i.span⟩ (readField source .item "argument" cs).toList) := by
  refine fields [⟨.item, "argument", false⟩] ?_ (by simp) ?_
  · simp [FieldPart.code_optional]
  · intro n hn
    rw [har] at hn
    simp [readField_eq, hv, ← Option.some.inj hn]

/-- The left and the right operand. -/
theorem sides {shape : Shape} (har : ∀ n, arity? shape = some n → n = 2) :
    IsMade source role (.node i cs) (.node ⟨role, shape, i.span⟩
      [(readField source .left "left" cs).getD (.node ⟨.left, .group, .point i.span.stop⟩ []),
        (readField source .right "right" cs).getD
          (.node ⟨.right, .group, .point i.span.stop⟩ [])]) := by
  refine fields [⟨.left, "left", true⟩, ⟨.right, "right", true⟩] ?_ (by simp) ?_
  · simp [FieldPart.code_required]
  · intro n hn
    exact (har n hn).symm

/-- A loop with a condition and a body. -/
theorem conditionLoop (kind : LoopKind) :
    IsMade source role (.node i cs) (.node ⟨role, .loop kind none, i.span⟩
      ((readField source .condition "condition" cs).toList ++
        [(readField source .body "body" cs).getD
          (.node ⟨.body, .group, .point i.span.stop⟩ [])])) := by
  refine fields [⟨.condition, "condition", false⟩, ⟨.body, "body", true⟩] ?_ (by simp)
    (by simp [arity?])
  simp [FieldPart.code_required, FieldPart.code_optional]

theorem call :
    IsMade source role (.node i cs) (.node ⟨role, .call, i.span⟩
      ((readField source .item "function" cs).getD
          (.node ⟨.item, .group, .point i.span.stop⟩ []) ::
        readFieldItems source .item "arguments" cs)) := by
  rw [readFieldItems_eq]
  refine ⟨.call, FieldPart.pieces source (.node i cs) ⟨.item, "function", true⟩ ++
    (fieldItems "arguments" cs).map (Piece.ofTree source .item), ?_, ?_, by simp [arity?]⟩
  · rw [List.map_append, FieldPart.code_required, code_ofTrees]
    rfl
  · refine (FieldPart.cut source _ _).append (Cut.ofFieldItems source .item "arguments" _) ?_
    intro ht p hp q hq
    obtain ⟨v, hv, rfl⟩ := List.mem_map.mp hq
    obtain ⟨w, hw, hwv⟩ := fieldItems_inside ht hv
    exact FieldPart.apart_of_field ht hp (by simp) hw hwv

/-- A type with a braced list of values. -/
theorem braced {type : ParseTree} (htype : field? "type" cs = some type) :
    IsMade source role (.node i cs) (.node ⟨role, .call, i.span⟩
      (.node ⟨.item, .identifier (text source type), type.span⟩ [] ::
        readFieldItems source .item "value" cs)) := by
  rw [readFieldItems_eq]
  refine ⟨.call, [Piece.typeName source type] ++
    (fieldItems "value" cs).map (Piece.ofTree source .item), ?_, ?_, by simp [arity?]⟩
  · rw [List.map_append, code_ofTrees]
    rfl
  · have hone : Cut source (.node i cs) [.typeName source type] := by
      refine ⟨fun p hp => ?_, fun _ => List.pairwise_singleton ..⟩
      rw [List.mem_singleton.mp hp]
      exact .typeName type (field?_mem htype)
    refine hone.append (Cut.ofFieldItems source .item "value" _) ?_
    intro ht p hp q hq
    rw [List.mem_singleton.mp hp]
    obtain ⟨v, hv, rfl⟩ := List.mem_map.mp hq
    obtain ⟨w, hw, hwv⟩ := fieldItems_inside ht hv
    have hpiece : Piece.ofTree source .item type ∈
        FieldPart.pieces source (.node i cs) ⟨.item, "type", false⟩ := by
      simp [FieldPart.pieces, htype]
    exact FieldPart.apart_of_field ht hpiece (by simp) hw hwv

theorem caseLabel :
    IsMade source role (.node i cs) (.node ⟨role, .caseLabel, i.span⟩
      ((readField source .value "value" cs).toList ++
        readOthers source .body "value" cs)) := by
  rw [readOthers_eq]
  refine ⟨.caseLabel, FieldPart.pieces source (.node i cs) ⟨.value, "value", false⟩ ++
    (otherItems "value" cs).map (Piece.ofTree source .body), ?_, ?_, by simp [arity?]⟩
  · rw [List.map_append, FieldPart.code_optional, code_ofTrees]
    rfl
  · refine (FieldPart.cut source _ _).append
      (Cut.ofChildren .body (otherItems_sublist "value" cs)) ?_
    intro ht p hp q hq
    obtain ⟨w, hw, rfl⟩ := List.mem_map.mp hq
    rcases FieldPart.mem_pieces hp with ⟨v, hv, rfl⟩ | rfl
    · exact apart_otherItems ht hv hw
    · exact (Span.apart_point_stop
        (ht.here.inside w ((otherItems_sublist "value" cs).subset hw))).symm

theorem subscript {v : ParseTree} (hv : field? "argument" cs = some v) :
    IsMade source role (.node i cs) (.node ⟨role, .subscript, i.span⟩
      (read source .item v :: readIndices source "argument" cs)) := by
  rw [readIndices_eq]
  refine ⟨.subscript, [Piece.ofTree source .item v] ++
    ((otherItems "argument" cs).flatMap openList).map (Piece.ofTree source .item), ?_, ?_,
    by simp [arity?]⟩
  · rw [List.map_append, code_ofTrees]
    rfl
  · refine (Cut.singleton .item (child_mem_descendants (field?_mem hv))).append
      (Cut.ofIndices source "argument" (.node i cs)) ?_
    intro ht p hp q hq
    rw [List.mem_singleton.mp hp]
    obtain ⟨x, hx, rfl⟩ := List.mem_map.mp hq
    obtain ⟨w, hw, hxw⟩ := List.mem_flatMap.mp hx
    exact (apart_otherItems ht hv hw).mono (Span.contains_refl _)
      (openList_inside (ht.child ((otherItems_sublist "argument" cs).subset hw)) hxw)

/-- The default values of the parameters stand in the declarator, apart from the body. -/
theorem lambda (params : List Var) :
    IsMade source role (.node i cs) (.node ⟨role, .lambda params, i.span⟩
      (Binding.inits (readSignature source cs) ++
        (readField source .body "body" cs).toList)) := by
  rw [inits_readSignature]
  refine ⟨.lambda params, (signatureValues source cs).map (Piece.ofTree source .initializer) ++
    FieldPart.pieces source (.node i cs) ⟨.body, "body", false⟩, ?_, ?_, by simp [arity?]⟩
  · rw [List.map_append, FieldPart.code_optional, code_ofTrees]
    rfl
  · refine (Cut.ofSignature source (.node i cs)).append (FieldPart.cut source _ _) ?_
    intro ht p hp q hq
    obtain ⟨v, hv, rfl⟩ := List.mem_map.mp hp
    obtain ⟨d, list, param, hd, hlist, hparam, hval⟩ := mem_signatureValues hv
    have hin : d.span.contains v.span = true :=
      span_contains_of_mem_descendants (ht.child (field?_mem hd))
        (descendants_trans (child_mem_descendants hval)
          (descendants_trans (child_mem_descendants hparam) (child_mem_descendants hlist)))
    exact (FieldPart.apart_of_field ht hq (by simp) hd hin).symm

end IsMade

theorem memberParts_argument {source : List Char} {cs : List ParseTree} {parts : Bool × String}
    (h : memberParts source cs = some parts) : ∃ v, field? "argument" cs = some v := by
  unfold memberParts at h
  cases hv : field? "argument" cs with
  | none => simp [hv] at h
  | some v => exact ⟨v, rfl⟩

theorem stepParts_argument {source : List Char} {cs : List ParseTree}
    {parts : StepOp × Fixity} (h : stepParts source cs = some parts) :
    ∃ v, field? "argument" cs = some v := by
  unfold stepParts at h
  cases ho : field? "operator" cs with
  | none => simp [ho] at h
  | some o =>
    cases hv : field? "argument" cs with
    | none => simp [ho, hv] at h
    | some v => exact ⟨v, rfl⟩

theorem unaryOperator_argument {source : List Char} {cs : List ParseTree} {op : UnaryOp}
    (h : unaryOperator source cs = some op) : ∃ v, field? "argument" cs = some v := by
  have hf : hasField "argument" cs = true := by
    unfold unaryOperator at h
    obtain ⟨o, -, h⟩ := Option.bind_eq_some_iff.mp h
    obtain ⟨u, -, h⟩ := Option.bind_eq_some_iff.mp h
    obtain ⟨⟨⟩, hguard, -⟩ := Option.bind_eq_some_iff.mp h
    unfold guard at hguard
    by_contra hn
    rw [if_neg hn] at hguard
    exact absurd hguard (by simp)
  obtain ⟨v, hv, hfill⟩ := List.any_eq_true.mp hf
  cases hfind : field? "argument" cs with
  | none => exact absurd hfill (by simpa using List.find?_eq_none.mp hfind v hv)
  | some w => exact ⟨w, rfl⟩

/-- An `else` is read as the statement in it. -/
theorem read_elseClause (source : List Char) (role : Role) {t : ParseTree}
    (hkind : Construct.ofKind t.kind = .elseClause) :
    read source role t = ((t.children.find? isItem).map (read source role)).getD
      (.node ⟨role, .group, t.span⟩ []) := by
  obtain ⟨i, cs⟩ := t
  change Construct.ofKind i.kind = .elseClause at hkind
  rw [read]
  simp only [hkind, readFirst_eq, children_node]
  rfl

/-- What reading makes of a node: the code of a part of it, or a node that covers it
and whose parts come from it. -/
theorem read_cases (source : List Char) (role : Role) (t : ParseTree) :
    (∃ v ∈ descendants t, read source role t = read source role v) ∨
      IsMade source role t (read source role t) := by
  obtain ⟨i, cs⟩ := t
  rw [read]
  cases hk : Construct.ofKind i.kind with
  | block | otherExpr | otherStmt | group => exact Or.inr (IsMade.items rfl)
  | exprStmt | returnStmt | throwStmt => exact Or.inr (IsMade.first rfl)
  | identifier | this | literal | simpleStmt => exact Or.inr (IsMade.leaf rfl)
  | assign | binary | comma => exact Or.inr (IsMade.sides (by simp [arity?]))
  | call => exact Or.inr IsMade.call
  | caseLabel => exact Or.inr IsMade.caseLabel
  | lambda => exact Or.inr (IsMade.lambda _)
  | elseClause =>
    simp only [readFirst_eq]
    cases h : cs.find? isItem with
    | none => exact Or.inr (IsMade.leaf rfl)
    | some c =>
      exact Or.inl ⟨c, child_mem_descendants (List.mem_of_find?_eq_some h), rfl⟩
  | branch =>
    refine Or.inr (IsMade.fields [⟨.condition, "condition", true⟩,
      ⟨.consequence, "consequence", true⟩, ⟨.alternative, "alternative", false⟩] ?_ (by simp)
      (by simp [arity?]))
    simp [FieldPart.code_required, FieldPart.code_optional]
  | switch =>
    refine Or.inr (IsMade.fields [⟨.condition, "condition", true⟩, ⟨.body, "body", true⟩] ?_
      (by simp) (by simp [arity?]))
    simp [FieldPart.code_required]
  | conditional =>
    refine Or.inr (IsMade.fields [⟨.condition, "condition", true⟩,
      ⟨.consequence, "consequence", false⟩, ⟨.alternative, "alternative", true⟩] ?_ (by simp)
      (by simp [arity?]))
    simp [FieldPart.code_required, FieldPart.code_optional]
  | loop kind =>
    cases kind with
    | testFirst => exact Or.inr (IsMade.conditionLoop .testFirst)
    | testLast => exact Or.inr (IsMade.conditionLoop .testLast)
    | counted =>
      refine Or.inr (IsMade.fields [⟨.init, "initializer", false⟩,
        ⟨.condition, "condition", false⟩, ⟨.update, "update", false⟩, ⟨.body, "body", true⟩] ?_
        (by simp) (by simp [arity?]))
      simp [FieldPart.code_required, FieldPart.code_optional]
    | ranged =>
      refine Or.inr (IsMade.fields [⟨.init, "initializer", false⟩, ⟨.range, "right", false⟩,
        ⟨.body, "body", true⟩] ?_ (by simp) (by simp [arity?]))
      simp [FieldPart.code_required, FieldPart.code_optional]
  | member =>
    simp only
    split
    · rename_i h
      obtain ⟨v, hv⟩ := memberParts_argument h
      exact Or.inr (IsMade.operand hv rfl)
    · exact Or.inr (IsMade.items rfl)
  | step =>
    simp only
    split
    · rename_i h
      obtain ⟨v, hv⟩ := stepParts_argument h
      exact Or.inr (IsMade.operand hv rfl)
    · exact Or.inr (IsMade.items rfl)
  | unary =>
    simp only
    split
    · rename_i h
      obtain ⟨v, hv⟩ := unaryOperator_argument h
      exact Or.inr (IsMade.operand hv rfl)
    · exact Or.inr (IsMade.items rfl)
  | paren =>
    simp only [readFirst_eq]
    cases h : cs.find? isItem with
    | none => exact Or.inr (IsMade.leaf rfl)
    | some c =>
      exact Or.inr ⟨.paren, [.ofTree source .item c], rfl,
        Cut.singleton .item (child_mem_descendants (List.mem_of_find?_eq_some h)),
        by simp [arity?]⟩
  | braced =>
    cases htype : field? "type" cs with
    | none => exact Or.inr (IsMade.items rfl)
    | some type => exact Or.inr (IsMade.braced htype)
  | subscript =>
    simp only [readField_eq]
    cases hv : field? "argument" cs with
    | none => exact Or.inr (IsMade.items rfl)
    | some v => exact Or.inr (IsMade.subscript hv)
  | declaration =>
    obtain ⟨pieces, hcut, hcode⟩ := exists_declaration_pieces source (specifierType source cs)
      (t := .node i cs) (kind_of_declaration hk)
    simp only
    split
    · rw [inits_readDeclarators]
      exact Or.inr ⟨.declaration _, pieces, by rw [hcode]; rfl, hcut, fun n hn => nomatch hn⟩
    · refine Or.inr (IsMade.fields [⟨.initializer, "value", false⟩] ?_ (by simp)
        (by simp [arity?]))
      rw [List.flatMap_singleton, FieldPart.code_optional]
      cases hown : readField source .initializer "value" cs <;> simp [Binding.inits]

/-- A property of all code that is read, from what reading makes of one node. `K` is
what is known of the parse trees. -/
theorem everywhere_read {source : List Char} {K : ParseTree → Prop} {P : Code → Prop}
    (hdown : ∀ t, K t → ∀ v ∈ descendants t, K v)
    (hmade : ∀ role t, K t → IsMade source role t (read source role t) →
      P (read source role t))
    (hleaf : ∀ t i, K t → arity? i.shape = none →
      (i.span = t.span ∨ i.span = .point t.span.stop) → P (.node i []))
    (role : Role) {t : ParseTree} (ht : K t) : Everywhere P (read source role t) := by
  have leaf : ∀ v i, K v → arity? i.shape = none →
      (i.span = v.span ∨ i.span = .point v.span.stop) → Everywhere P (.node i []) := by
    intro v i hv hi hspan
    exact Everywhere.node_iff.mpr ⟨hleaf v i hv hi hspan, by simp⟩
  induction t using induct_descendants generalizing role with
  | h t ih =>
    rcases read_cases source role t with ⟨v, hv, heq⟩ | hm
    · rw [heq]
      exact ih v hv role (hdown t ht v hv)
    · have hP := hmade role t ht hm
      obtain ⟨shape, pieces, hread, ⟨hof, -⟩, -⟩ := hm
      rw [hread] at hP ⊢
      refine Everywhere.node_iff.mpr ⟨hP, ?_⟩
      intro c hc
      obtain ⟨p, hp, rfl⟩ := List.mem_map.mp hc
      cases hof p hp with
      | ofTree role' v hv => exact ih v hv role' (hdown t ht v hv)
      | missing role' => exact leaf t _ ht rfl (Or.inr rfl)
      | typeName v hv =>
        exact leaf v _ (hdown t ht v (child_mem_descendants hv)) rfl (Or.inl rfl)

/-- The code of a tree stands inside the tree. -/
theorem contains_span_read {t : ParseTree} (ht : Tidy t) (source : List Char) (role : Role) :
    t.span.contains (read source role t).span = true := by
  induction t using induct_descendants with
  | h t ih =>
    rcases read_cases source role t with ⟨v, hv, heq⟩ | ⟨shape, pieces, hread, -⟩
    · rw [heq]
      exact Span.contains_trans (span_contains_of_mem_descendants ht hv)
        (ih v hv (ht.of_mem_descendants hv))
    · rw [hread]
      exact Span.contains_refl _

theorem Piece.IsOf.extent_contains {source : List Char} {t : ParseTree} {p : Piece}
    (hp : p.IsOf source t) (ht : Tidy t) : p.extent.contains p.code.span = true := by
  cases hp with
  | ofTree role v hv => exact contains_span_read (ht.of_mem_descendants hv) source role
  | missing role => exact Span.contains_refl _
  | typeName v hv => exact Span.contains_refl _

/-- The parts of a piece of code stand inside it and apart from each other. -/
structure Nested (c : Code) : Prop where
  inside : ∀ d ∈ c.children, c.span.contains (span d) = true
  apart : c.children.Pairwise fun a b : Code => Span.Apart a.span b.span

theorem nested_read {t : ParseTree} (ht : Tidy t) (source : List Char) (role : Role) :
    Everywhere Nested (read source role t) := by
  refine everywhere_read (K := Tidy) (fun _ h _ hv => h.of_mem_descendants hv) ?_ ?_ role ht
  · rintro role t ht ⟨shape, pieces, hread, ⟨hof, hapart⟩, -⟩
    rw [hread]
    constructor
    · intro d hd
      obtain ⟨p, hp, rfl⟩ := List.mem_map.mp hd
      exact Span.contains_trans ((hof p hp).inside ht) ((hof p hp).extent_contains ht)
    · refine List.pairwise_map.mpr ((hapart ht).imp_of_mem ?_)
      intro p q hp hq hpq
      exact hpq.mono ((hof p hp).extent_contains ht) ((hof q hq).extent_contains ht)
  · intro t i _ _ _
    exact ⟨by simp, List.Pairwise.nil⟩

def Full (c : Code) : Prop :=
  ∀ n, arity? c.shape = some n → c.children.length = n

theorem full_read (source : List Char) (role : Role) (t : ParseTree) :
    Everywhere Full (read source role t) := by
  refine everywhere_read (K := fun _ => True) (fun _ _ _ _ => trivial) ?_ ?_ role trivial
  · rintro role t - ⟨shape, pieces, hread, -, hlen⟩
    rw [hread]
    intro n hn
    rw [children_node, List.length_map]
    exact hlen n hn
  · intro t i _ hi _ n hn
    rw [shape, info_node, hi] at hn
    simp at hn

end Code

end Cpp

end Encapsulate
