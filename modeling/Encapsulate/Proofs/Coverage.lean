import Encapsulate.Proofs.Declarations
import Mathlib.Logic.Relation

/-!
Which parts of a body are read. Reading a construct looks at the fields that give the
construct its meaning, at its first item or at all of its items, and passes over the rest:
the captures of a lambda, the size of an array, the declarators without a name, whatever
stands behind the first item. The parts that are read are listed for each construct, and the
nodes of the code are exactly those of the trees that are reached through them.
-/

namespace Encapsulate

namespace Tree

variable {α : Type} {r s t : Tree α}

theorem descendants_subset (h : s ∈ descendants t) : s ∈ subtrees t := by
  obtain ⟨c, hc, hs⟩ := mem_descendants.mp h
  rw [← node_info_children t]
  exact mem_subtrees_node.mpr (Or.inr ⟨c, hc, hs⟩)

theorem mem_descendants_trans (hr : r ∈ subtrees s) (hs : s ∈ descendants t) :
    r ∈ descendants t := by
  obtain ⟨c, hc, hsc⟩ := mem_descendants.mp hs
  exact mem_descendants.mpr ⟨c, hc, mem_subtrees_trans c hr hsc⟩

theorem not_mem_descendants_self (t : Tree α) : t ∉ descendants t := by
  induction t using induct_descendants with
  | h t ih => exact fun ht => ih t ht ht

mutual

def decEq [DecidableEq α] : (s t : Tree α) → Decidable (s = t)
  | node i cs, node j ds =>
    match decidable_of_iff (i = j) Iff.rfl, decEqAll cs ds with
    | isTrue hi, isTrue hcs => isTrue (by rw [hi, hcs])
    | isFalse hi, _ => isFalse fun h => hi (node.inj h).1
    | _, isFalse hcs => isFalse fun h => hcs (node.inj h).2

def decEqAll [DecidableEq α] : (ss ts : List (Tree α)) → Decidable (ss = ts)
  | [], [] => isTrue rfl
  | [], _ :: _ => isFalse (by simp)
  | _ :: _, [] => isFalse (by simp)
  | s :: ss, t :: ts =>
    match decEq s t, decEqAll ss ts with
    | isTrue hs, isTrue hss => isTrue (by rw [hs, hss])
    | isFalse hs, _ => isFalse fun h => hs (List.cons.inj h).1
    | _, isFalse hss => isFalse fun h => hss (List.cons.inj h).2

end

instance [DecidableEq α] : DecidableEq (Tree α) :=
  decEq

end Tree

namespace Cpp

open Encapsulate.Tree ParseTree

def Construct.isExpression : Construct → Bool
  | .member | .assign | .binary | .conditional | .comma | .braced | .step | .unary | .paren
  | .call | .subscript | .lambda | .identifier | .this | .literal | .otherExpr => true
  | _ => false

namespace Code

mutual

def valueTree (own : Option ParseTree) : ParseTree → Option ParseTree
  | .node i cs =>
    match DeclaratorStep.ofKind i.kind with
    | .initialized => innerValueTree (field? "value" cs) cs
    | .pointer | .array => innerValueTree own cs
    | .reference | .parenthesized | .attributed => firstValueTree own cs
    | .function | .name => own

def innerValueTree (own : Option ParseTree) : List ParseTree → Option ParseTree
  | [] => own
  | c :: cs => if fills "declarator" c then valueTree own c else innerValueTree own cs

def firstValueTree (own : Option ParseTree) : List ParseTree → Option ParseTree
  | [] => own
  | c :: cs => if isItem c then valueTree own c else firstValueTree own cs

end

/-- The tree that the value of a variable is read from, if the child of a declaration
introduces one. -/
def variableTree (source : List Char) (specifier : TypeRef) (own : Option ParseTree)
    (t : ParseTree) : Option ParseTree :=
  if fills "declarator" t && !isFunctionDeclarator t then
    (declared source specifier t).name.bind fun _ => valueTree own t
  else
    none

/-- What a part of a piece of code is made from. -/
inductive Slot where
  | tree (role : Role) (t : ParseTree)
  /-- A required part that is left out. -/
  | missing (role : Role)
  /-- A type that is named like a function. -/
  | typeName (t : ParseTree)

namespace Slot

def code (source : List Char) (t : ParseTree) : Slot → Code
  | .tree role v => read source role v
  | .missing role => .node ⟨role, .group, .point t.span.stop⟩ []
  | .typeName v => .node ⟨.item, .identifier (text source v), v.span⟩ []

def tree? : Slot → Option ParseTree
  | .tree _ v => some v
  | _ => none

end Slot

def FieldPart.slots (cs : List ParseTree) (f : FieldPart) : List Slot :=
  match field? f.name cs with
  | some v => [.tree f.role v]
  | none => if f.isRequired then [.missing f.role] else []

def slots (source : List Char) (kind : String) (cs : List ParseTree) : List Slot :=
  let fields (fs : List FieldPart) : List Slot := fs.flatMap (FieldPart.slots cs)
  let trees (role : Role) (ts : List ParseTree) : List Slot := ts.map (.tree role)
  match Construct.ofKind kind with
  | .block | .otherExpr | .otherStmt | .group => trees .item (items cs)
  | .exprStmt | .returnStmt | .throwStmt | .elseClause | .paren =>
    trees .item (cs.find? isItem).toList
  | .declaration =>
    if hasField "declarator" cs then
      trees .initializer
        (cs.filterMap (variableTree source (specifierType source cs) (field? "value" cs)))
    else
      fields [⟨.initializer, "value", false⟩]
  | .branch =>
    fields [⟨.condition, "condition", true⟩, ⟨.consequence, "consequence", true⟩,
      ⟨.alternative, "alternative", false⟩]
  | .switch => fields [⟨.condition, "condition", true⟩, ⟨.body, "body", true⟩]
  | .caseLabel => fields [⟨.value, "value", false⟩] ++ trees .body (otherItems "value" cs)
  | .loop .ranged =>
    fields [⟨.init, "initializer", false⟩, ⟨.range, "right", false⟩, ⟨.body, "body", true⟩]
  | .loop .counted =>
    fields [⟨.init, "initializer", false⟩, ⟨.condition, "condition", false⟩,
      ⟨.update, "update", false⟩, ⟨.body, "body", true⟩]
  | .loop _ => fields [⟨.condition, "condition", false⟩, ⟨.body, "body", true⟩]
  | .member =>
    if (memberParts source cs).isSome then fields [⟨.item, "argument", false⟩]
    else trees .item (items cs)
  | .assign | .binary | .comma => fields [⟨.left, "left", true⟩, ⟨.right, "right", true⟩]
  | .conditional =>
    fields [⟨.condition, "condition", true⟩, ⟨.consequence, "consequence", false⟩,
      ⟨.alternative, "alternative", true⟩]
  | .braced =>
    match field? "type" cs with
    | some type => .typeName type :: trees .item (fieldItems "value" cs)
    | none => trees .item (items cs)
  | .step =>
    if (stepParts source cs).isSome then fields [⟨.item, "argument", false⟩]
    else trees .item (items cs)
  | .unary =>
    if (unaryOperator source cs).isSome then fields [⟨.item, "argument", false⟩]
    else trees .item (items cs)
  | .call => fields [⟨.item, "function", true⟩] ++ trees .item (fieldItems "arguments" cs)
  | .subscript =>
    match field? "argument" cs with
    | some base => .tree .item base :: trees .item ((otherItems "argument" cs).flatMap openList)
    | none => trees .item (items cs)
  | .lambda => trees .initializer (signatureValues source cs) ++ fields [⟨.body, "body", false⟩]
  | .identifier | .this | .literal | .simpleStmt => []

theorem innerValueTree_eq (own : Option ParseTree) (cs : List ParseTree) :
    innerValueTree own cs = ((field? "declarator" cs).map (valueTree own)).getD own := by
  induction cs with
  | nil => simp [innerValueTree, field?]
  | cons c cs ih =>
    rw [innerValueTree, ih]
    by_cases hc : fills "declarator" c <;> simp [field?, hc]

theorem firstValueTree_eq (own : Option ParseTree) (cs : List ParseTree) :
    firstValueTree own cs = ((cs.find? isItem).map (valueTree own)).getD own := by
  induction cs with
  | nil => simp [firstValueTree]
  | cons c cs ih =>
    rw [firstValueTree, ih]
    by_cases hc : isItem c <;> simp [hc]

/-- A declarator's value is read from its tree. -/
theorem readValue_eq (source : List Char) (own : Option ParseTree) (t : ParseTree) :
    readValue source (own.map (read source .initializer)) t =
      (valueTree own t).map (read source .initializer) := by
  induction t using Tree.inductionOn generalizing own with
  | h i cs ih =>
    have hinner : ∀ (o : Option ParseTree) (c : Option ParseTree), (∀ d, c = some d → d ∈ cs) →
        (c.map (readValue source (o.map (read source .initializer)))).getD
            (o.map (read source .initializer)) =
          ((c.map (valueTree o)).getD o).map (read source .initializer) := by
      intro o c hc
      cases c with
      | none => rfl
      | some d => exact ih d (hc d rfl) o
    have hfield : ∀ d, field? "declarator" cs = some d → d ∈ cs := fun d hd => field?_mem hd
    have hfirst : ∀ d, cs.find? isItem = some d → d ∈ cs :=
      fun d hd => List.mem_of_find?_eq_some hd
    rw [readValue, valueTree]
    cases DeclaratorStep.ofKind i.kind with
    | initialized =>
      simp only [readInnerValue_eq, innerValueTree_eq, readField_eq]
      exact hinner _ _ hfield
    | pointer | array =>
      simp only [readInnerValue_eq, innerValueTree_eq]
      exact hinner own _ hfield
    | reference | parenthesized | attributed =>
      simp only [readFirstValue_eq, firstValueTree_eq]
      exact hinner own _ hfirst
    | function | name => rfl

theorem declaratorValue_eq (source : List Char) (specifier : TypeRef) (own : Option ParseTree)
    (t : ParseTree) :
    declaratorValue source specifier (own.map (read source .initializer)) t =
      (variableTree source specifier own t).map (read source .initializer) := by
  unfold declaratorValue variableTree
  split
  · rw [readValue_eq]
    cases (declared source specifier t).name <;> rfl
  · rfl

section Slots

variable {source : List Char} {i : ParseNode} {cs : List ParseTree}

theorem FieldPart.code_slots (f : FieldPart) :
    (f.slots cs).map (Slot.code source (.node i cs)) =
      (f.pieces source (.node i cs)).map Piece.code := by
  unfold FieldPart.slots FieldPart.pieces
  rw [children_node]
  cases field? f.name cs with
  | none => cases f.isRequired <;> rfl
  | some v => rfl

theorem code_trees (role : Role) (ts : List ParseTree) :
    (ts.map (Slot.tree role)).map (Slot.code source (.node i cs)) = ts.map (read source role) := by
  rw [List.map_map]
  rfl

theorem code_required (role : Role) (name : String) :
    (FieldPart.slots cs ⟨role, name, true⟩).map (Slot.code source (.node i cs)) =
      [(readField source role name cs).getD (.node ⟨role, .group, .point i.span.stop⟩ [])] := by
  rw [← FieldPart.code_required]
  exact FieldPart.code_slots _

theorem code_optional (role : Role) (name : String) :
    (FieldPart.slots cs ⟨role, name, false⟩).map (Slot.code source (.node i cs)) =
      (readField source role name cs).toList := by
  rw [← FieldPart.code_optional source i]
  exact FieldPart.code_slots _

/-- The code of a node covers it, is an expression if the construct is one and has the listed
parts. -/
def HasSlots (source : List Char) (role : Role) (i : ParseNode) (cs : List ParseTree) : Prop :=
  ∃ shape, read source role (.node i cs) = .node ⟨role, shape, i.span⟩
      ((slots source i.kind cs).map (Slot.code source (.node i cs))) ∧
    (shape.sort = .expression ↔ (Construct.ofKind i.kind).isExpression = true)

variable {role : Role}

/-- A declaration holds the values of its declarators, or its own. -/
theorem hasSlots_declaration (hk : Construct.ofKind i.kind = .declaration) :
    HasSlots source role i cs := by
  unfold HasSlots
  rw [read]
  simp only [slots, hk]
  split
  · refine ⟨_, congrArg (Tree.node _) ?_, iff_of_false (by simp [Shape.sort]) Bool.false_ne_true⟩
    simp only [inits_readDeclarators, code_trees, readField_eq, declaratorValue_eq]
    exact (List.map_filterMap ..).symm
  · refine ⟨_, congrArg (Tree.node _) ?_, iff_of_false (by simp [Shape.sort]) Bool.false_ne_true⟩
    simp only [List.flatMap_singleton, code_optional]
    cases readField source .initializer "value" cs <;> rfl

theorem hasSlots_braced (hk : Construct.ofKind i.kind = .braced) : HasSlots source role i cs := by
  unfold HasSlots
  rw [read]
  simp only [slots, hk]
  cases field? "type" cs with
  | none =>
    refine ⟨_, congrArg (Tree.node _) ?_, iff_of_true rfl rfl⟩
    simp only [code_trees, readItems_eq]
  | some type =>
    refine ⟨_, congrArg (Tree.node _) ?_, iff_of_true rfl rfl⟩
    simp only [List.map_cons, code_trees, readFieldItems_eq]
    rfl

theorem hasSlots_subscript (hk : Construct.ofKind i.kind = .subscript) :
    HasSlots source role i cs := by
  unfold HasSlots
  rw [read]
  simp only [slots, hk, readField_eq]
  cases field? "argument" cs with
  | none =>
    refine ⟨_, congrArg (Tree.node _) ?_, iff_of_true rfl rfl⟩
    simp only [code_trees, readItems_eq]
  | some v =>
    refine ⟨_, congrArg (Tree.node _) ?_, iff_of_true rfl rfl⟩
    simp only [List.map_cons, code_trees, readIndices_eq]
    rfl

theorem hasSlots_loop {kind : LoopKind} (hk : Construct.ofKind i.kind = .loop kind) :
    HasSlots source role i cs := by
  unfold HasSlots
  rw [read]
  cases kind with
  | testFirst | testLast | counted | ranged =>
    simp only [slots, hk]
    refine ⟨_, congrArg (Tree.node _) ?_, iff_of_false (by simp [Shape.sort]) Bool.false_ne_true⟩
    simp [code_required, code_optional]

/-- What has no operator that is known is kept with all its items. -/
theorem hasSlots_operator
    (hk : Construct.ofKind i.kind = .member ∨ Construct.ofKind i.kind = .step ∨
      Construct.ofKind i.kind = .unary) : HasSlots source role i cs := by
  unfold HasSlots
  rw [read]
  rcases hk with hk | hk | hk
  · simp only [slots, hk]
    cases memberParts source cs with
    | none =>
      refine ⟨_, congrArg (Tree.node _) ?_, iff_of_true rfl rfl⟩
      simp [readItems_eq, Slot.code]
    | some parts =>
      refine ⟨_, congrArg (Tree.node _) ?_, iff_of_true rfl rfl⟩
      simp [code_optional]
  · simp only [slots, hk]
    cases stepParts source cs with
    | none =>
      refine ⟨_, congrArg (Tree.node _) ?_, iff_of_true rfl rfl⟩
      simp [readItems_eq, Slot.code]
    | some parts =>
      refine ⟨_, congrArg (Tree.node _) ?_, iff_of_true rfl rfl⟩
      simp [code_optional]
  · simp only [slots, hk]
    cases unaryOperator source cs with
    | none =>
      refine ⟨_, congrArg (Tree.node _) ?_, iff_of_true rfl rfl⟩
      simp [readItems_eq, Slot.code]
    | some op =>
      refine ⟨_, congrArg (Tree.node _) ?_, iff_of_true rfl rfl⟩
      simp [code_optional]

/-- The code of a node covers it, is an expression if the construct is one and has the listed
parts. Only an `else` is read as the statement inside it. -/
theorem read_eq_slots (source : List Char) (role : Role) {t : ParseTree}
    (hkind : Construct.ofKind t.kind ≠ .elseClause) :
    ∃ shape, read source role t = .node ⟨role, shape, t.span⟩
        ((slots source t.kind t.children).map (Slot.code source t)) ∧
      (shape.sort = .expression ↔ (Construct.ofKind t.kind).isExpression = true) := by
  obtain ⟨i, cs⟩ := t
  change Construct.ofKind i.kind ≠ .elseClause at hkind
  change HasSlots source role i cs
  cases hk : Construct.ofKind i.kind with
  | elseClause => exact absurd hk hkind
  | declaration => exact hasSlots_declaration hk
  | braced => exact hasSlots_braced hk
  | subscript => exact hasSlots_subscript hk
  | member | step | unary => exact hasSlots_operator (by simp [hk])
  | loop kind => exact hasSlots_loop hk
  | block | otherExpr | otherStmt | group =>
    unfold HasSlots
    rw [read]
    simp only [slots, hk, code_trees, readItems_eq]
    exact ⟨_, rfl, by simp [Shape.sort, Construct.isExpression]⟩
  | exprStmt | returnStmt | throwStmt | paren =>
    unfold HasSlots
    rw [read]
    simp only [slots, hk, code_trees, readFirst_eq]
    cases cs.find? isItem <;> exact ⟨_, rfl, by simp [Shape.sort, Construct.isExpression]⟩
  | branch | switch | assign | binary | comma | conditional =>
    unfold HasSlots
    rw [read]
    simp only [slots, hk]
    refine ⟨_, congrArg (Tree.node _) ?_, by simp [Shape.sort, Construct.isExpression]⟩
    simp [code_required, code_optional]
  | caseLabel | call | lambda =>
    unfold HasSlots
    rw [read]
    simp only [slots, hk, List.flatMap_singleton, List.map_append, code_required, code_optional,
      code_trees, readOthers_eq, readFieldItems_eq, inits_readSignature]
    exact ⟨_, rfl, by simp [Shape.sort, Construct.isExpression]⟩
  | identifier | this | literal | simpleStmt =>
    unfold HasSlots
    rw [read]
    simp only [slots, hk]
    exact ⟨_, rfl, by simp [Shape.sort, Construct.isExpression]⟩

end Slots

section Parts

variable {source : List Char} {t v : ParseTree}

theorem mem_valueTree {own : Option ParseTree} (h : valueTree own t = some v) :
    own = some v ∨ v ∈ descendants t := by
  induction t using Tree.inductionOn generalizing own with
  | h i cs ih =>
    have hinner : ∀ (o c : Option ParseTree), (∀ d, c = some d → d ∈ cs) →
        (c.map (valueTree o)).getD o = some v → o = some v ∨ v ∈ descendants (.node i cs) := by
      intro o c hc hv
      cases c with
      | none => exact Or.inl hv
      | some d =>
        have hd := hc d rfl
        exact (ih d hd hv).imp_right fun hvd => descendants_trans hvd (child_mem_descendants hd)
    have hfield : ∀ d, field? "declarator" cs = some d → d ∈ cs := fun d hd => field?_mem hd
    have hfirst : ∀ d, cs.find? isItem = some d → d ∈ cs :=
      fun d hd => List.mem_of_find?_eq_some hd
    rw [valueTree] at h
    cases hstep : DeclaratorStep.ofKind i.kind with
    | initialized =>
      simp only [hstep, innerValueTree_eq] at h
      rcases hinner _ _ hfield h with hvalue | hv
      · exact Or.inr (child_mem_descendants (field?_mem hvalue))
      · exact Or.inr hv
    | pointer | array =>
      simp only [hstep, innerValueTree_eq] at h
      exact hinner own _ hfield h
    | reference | parenthesized | attributed =>
      simp only [hstep, firstValueTree_eq] at h
      exact hinner own _ hfirst h
    | function | name =>
      simp only [hstep] at h
      exact Or.inl h

def Slot.Below (t : ParseTree) : Slot → Prop
  | .tree _ v => v ∈ descendants t
  | .missing _ => True
  | .typeName v => v ∈ descendants t ∧ fills "type" v = true

def BelowAll (t : ParseTree) (ss : List Slot) : Prop :=
  ∀ s ∈ ss, s.Below t

namespace BelowAll

theorem nil : BelowAll t [] :=
  fun _ hs => absurd hs List.not_mem_nil

theorem append {as bs : List Slot} (has : BelowAll t as) (hbs : BelowAll t bs) :
    BelowAll t (as ++ bs) :=
  fun s hs => (List.mem_append.mp hs).elim (has s) (hbs s)

theorem trees (role : Role) {ts : List ParseTree} (h : ∀ v ∈ ts, v ∈ descendants t) :
    BelowAll t (ts.map (.tree role)) := by
  intro s hs
  obtain ⟨v, hv, rfl⟩ := List.mem_map.mp hs
  exact h v hv

theorem children (role : Role) {ts : List ParseTree} (h : ts ⊆ t.children) :
    BelowAll t (ts.map (.tree role)) :=
  trees role fun _ hv => child_mem_descendants (h hv)

theorem items (role : Role) : BelowAll t ((items t.children).map (.tree role)) :=
  children role (items_sublist _).subset

theorem first (role : Role) : BelowAll t ((t.children.find? isItem).toList.map (.tree role)) :=
  children role fun _ hv => List.mem_of_find?_eq_some (Option.mem_toList.mp hv)

theorem fields (fs : List FieldPart) : BelowAll t (fs.flatMap (FieldPart.slots t.children)) := by
  intro s hs
  obtain ⟨f, -, hs⟩ := List.mem_flatMap.mp hs
  unfold FieldPart.slots at hs
  split at hs
  · rename_i v hv
    rw [List.mem_singleton.mp hs]
    exact child_mem_descendants (field?_mem hv)
  · split at hs
    · rw [List.mem_singleton.mp hs]
      exact trivial
    · exact absurd hs List.not_mem_nil

theorem fieldItems (role : Role) (field : String) :
    BelowAll t ((fieldItems field t.children).map (.tree role)) := by
  refine trees role fun v hv => ?_
  obtain ⟨w, hw, hvw⟩ := mem_fieldItems hv
  exact descendants_trans (child_mem_descendants (mem_children_of_mem_items hvw))
    (child_mem_descendants (field?_mem hw))

theorem indices (role : Role) (field : String) :
    BelowAll t (((otherItems field t.children).flatMap openList).map (.tree role)) := by
  refine trees role fun v hv => ?_
  obtain ⟨w, hw, hvw⟩ := List.mem_flatMap.mp hv
  have hmem := child_mem_descendants ((otherItems_sublist field t.children).subset hw)
  rcases mem_openList hvw with rfl | hvw
  · exact hmem
  · exact descendants_trans (child_mem_descendants hvw) hmem

theorem signature (role : Role) :
    BelowAll t ((signatureValues source t.children).map (.tree role)) := by
  refine trees role fun v hv => ?_
  obtain ⟨d, list, param, hd, hlist, hparam, hv⟩ := mem_signatureValues hv
  exact descendants_trans (child_mem_descendants hv)
    (descendants_trans (child_mem_descendants hparam)
      (descendants_trans (child_mem_descendants hlist) (child_mem_descendants (field?_mem hd))))

theorem initializers (role : Role) (specifier : TypeRef) :
    BelowAll t ((t.children.filterMap
      (variableTree source specifier (field? "value" t.children))).map (.tree role)) := by
  refine trees role fun v hv => ?_
  obtain ⟨d, hd, hv⟩ := List.mem_filterMap.mp hv
  unfold variableTree at hv
  split at hv
  · obtain ⟨name, -, hv⟩ := Option.bind_eq_some_iff.mp hv
    rcases mem_valueTree hv with hvalue | hvd
    · exact child_mem_descendants (field?_mem hvalue)
    · exact descendants_trans hvd (child_mem_descendants hd)
  · exact absurd hv (by simp)

end BelowAll

theorem belowAll_slots (source : List Char) (t : ParseTree) :
    BelowAll t (slots source t.kind t.children) := by
  unfold slots
  simp only
  cases Construct.ofKind t.kind with
  | block | otherExpr | otherStmt | group => exact .items _
  | exprStmt | returnStmt | throwStmt | elseClause | paren => exact .first _
  | identifier | this | literal | simpleStmt => exact .nil
  | branch | switch | assign | binary | comma | conditional => exact .fields _
  | loop kind => cases kind <;> exact .fields _
  | caseLabel =>
    exact (BelowAll.fields _).append (.children _ (otherItems_sublist "value" _).subset)
  | call => exact (BelowAll.fields _).append (.fieldItems _ _)
  | lambda => exact (BelowAll.signature _).append (.fields _)
  | declaration =>
    simp only
    split
    · exact .initializers _ _
    · exact .fields _
  | member | step | unary =>
    simp only
    split
    · exact .fields _
    · exact .items _
  | braced =>
    simp only
    split
    · rename_i type htype
      refine List.forall_mem_cons.mpr ⟨⟨child_mem_descendants (field?_mem htype), ?_⟩,
        BelowAll.fieldItems _ _⟩
      simp [fills, field?_fills htype]
    · exact .items _
  | subscript =>
    simp only
    split
    · rename_i base hbase
      exact List.forall_mem_cons.mpr ⟨child_mem_descendants (field?_mem hbase),
        BelowAll.indices _ _⟩
    · exact .items _

def parts (source : List Char) (t : ParseTree) : List ParseTree :=
  (slots source t.kind t.children).filterMap Slot.tree?

/-- Reading `t` goes on to read `v`. -/
def Reached (source : List Char) : ParseTree → ParseTree → Prop :=
  Relation.ReflTransGen fun a b => b ∈ parts source a

instance (source : List Char) : Trans (Reached source) (Reached source) (Reached source) :=
  ⟨Relation.ReflTransGen.trans⟩

theorem mem_parts :
    v ∈ parts source t ↔ ∃ role, Slot.tree role v ∈ slots source t.kind t.children := by
  unfold parts
  rw [List.mem_filterMap]
  constructor
  · rintro ⟨s, hs, hv⟩
    cases s with
    | tree role w =>
      obtain rfl : w = v := Option.some.inj hv
      exact ⟨role, hs⟩
    | missing role => exact absurd hv (by simp [Slot.tree?])
    | typeName w => exact absurd hv (by simp [Slot.tree?])
  · rintro ⟨role, hs⟩
    exact ⟨_, hs, rfl⟩

theorem mem_descendants_of_mem_parts (h : v ∈ parts source t) : v ∈ descendants t := by
  obtain ⟨role, hs⟩ := mem_parts.mp h
  exact belowAll_slots source t _ hs

theorem Reached.mem_subtrees (h : Reached source t v) : v ∈ subtrees t := by
  induction h using Relation.ReflTransGen.head_induction_on with
  | refl => exact self_mem_subtrees v
  | head hstep _ ih =>
    exact descendants_subset (mem_descendants_trans ih (mem_descendants_of_mem_parts hstep))

/-- The code of a part is a part of the code. -/
theorem read_part (h : v ∈ parts source t) (role : Role) :
    ∃ role', read source role' v ∈ subtrees (read source role t) := by
  obtain ⟨i, cs⟩ := t
  obtain ⟨role', hs⟩ := mem_parts.mp h
  by_cases hkind : Construct.ofKind i.kind = .elseClause
  · -- the statement of an `else` takes the role of the `else`
    have hfirst : cs.find? isItem = some v ∧ Role.item = role' := by
      simpa [slots, ParseTree.kind, hkind] using hs
    refine ⟨role, ?_⟩
    have hread : read source role (.node i cs) = read source role v := by
      rw [read]
      simp [hkind, readFirst_eq, hfirst.1]
    rw [hread]
    exact self_mem_subtrees _
  · obtain ⟨shape, hread, -⟩ := read_eq_slots source role (t := .node i cs) hkind
    rw [hread]
    exact ⟨role', mem_subtrees_node.mpr (Or.inr ⟨_, List.mem_map.mpr ⟨_, hs, rfl⟩,
      self_mem_subtrees _⟩)⟩

/-- Whatever is reached is read. -/
theorem Reached.read (h : Reached source t v) (role : Role) :
    ∃ role', Code.read source role' v ∈ subtrees (Code.read source role t) := by
  induction h using Relation.ReflTransGen.head_induction_on generalizing role with
  | refl => exact ⟨role, self_mem_subtrees _⟩
  | head hstep _ ih =>
    obtain ⟨role', hpart⟩ := read_part hstep role
    obtain ⟨role'', hread⟩ := ih role'
    exact ⟨role'', mem_subtrees_trans _ hread hpart⟩

def Accounted (source : List Char) (t : ParseTree) (d : Code) : Prop :=
  (∃ role w, Reached source t w ∧ (Construct.ofKind w.kind).isExpression = true ∧
    d = Code.read source role w) ∨
  ∃ w ∈ descendants t, fills "type" w = true ∧ d.span = ParseTree.span w

theorem Accounted.up {d : Code} (h : Accounted source v d) (hv : v ∈ parts source t) :
    Accounted source t d := by
  rcases h with ⟨role, w, hw, hexpr, hd⟩ | ⟨w, hw, htype, hd⟩
  · exact Or.inl ⟨role, w, Relation.ReflTransGen.head hv hw, hexpr, hd⟩
  · exact Or.inr ⟨w, descendants_trans hw (mem_descendants_of_mem_parts hv), htype, hd⟩

/-- What stands below the code of a node comes from one of its parts. -/
theorem accounted_of_slot {s : Slot} (hs : s ∈ slots source t.kind t.children) {d : Code}
    (hd : d ∈ subtrees (s.code source t)) (hexpr : d.shape.sort = .expression) :
    (∃ role, ∃ w ∈ parts source t, d ∈ subtrees (Code.read source role w)) ∨
      ∃ w ∈ descendants t, fills "type" w = true ∧ d.span = ParseTree.span w := by
  have hbelow := belowAll_slots source t s hs
  cases s with
  | tree role w => exact Or.inl ⟨role, w, mem_parts.mpr ⟨role, hs⟩, hd⟩
  | missing role =>
    rcases mem_subtrees_node.mp hd with rfl | ⟨c, hc, -⟩
    · exact absurd hexpr (by simp [Code.shape, Shape.sort])
    · exact absurd hc List.not_mem_nil
  | typeName w =>
    rcases mem_subtrees_node.mp hd with rfl | ⟨c, hc, -⟩
    · exact Or.inr ⟨w, hbelow.1, hbelow.2, rfl⟩
    · exact absurd hc List.not_mem_nil

theorem accounted_of_mem {role : Role} {d : Code} (hd : d ∈ subtrees (Code.read source role t))
    (hexpr : d.shape.sort = .expression) : Accounted source t d := by
  induction t using induct_descendants generalizing role with
  | h t ih =>
    have hpart : ∀ role', ∀ w ∈ parts source t, d ∈ subtrees (Code.read source role' w) →
        Accounted source t d := fun role' w hw hdw =>
      (ih w (mem_descendants_of_mem_parts hw) hdw).up hw
    obtain ⟨i, cs⟩ := t
    by_cases hkind : Construct.ofKind i.kind = .elseClause
    · cases hfirst : cs.find? isItem with
      | none =>
        rw [read] at hd
        simp only [hkind, readFirst_eq, hfirst, Option.map_none, Option.getD_none] at hd
        rcases mem_subtrees_node.mp hd with rfl | ⟨c, hc, -⟩
        · exact absurd hexpr (by simp [Code.shape, Shape.sort])
        · exact absurd hc List.not_mem_nil
      | some w =>
        rw [read] at hd
        simp only [hkind, readFirst_eq, hfirst, Option.map_some, Option.getD_some] at hd
        refine hpart role w (mem_parts.mpr ⟨.item, ?_⟩) hd
        simp [slots, ParseTree.kind, hkind, hfirst]
    · obtain ⟨shape, hread, hsort⟩ := read_eq_slots source role (t := .node i cs) hkind
      rw [hread] at hd
      rcases mem_subtrees_node.mp hd with rfl | ⟨c, hc, hdc⟩
      · exact Or.inl ⟨role, .node i cs, Relation.ReflTransGen.refl, hsort.mp hexpr, hread.symm⟩
      · obtain ⟨s, hs, rfl⟩ := List.mem_map.mp hc
        rcases accounted_of_slot hs hdc hexpr with ⟨role', w, hw, hdw⟩ | htype
        · exact hpart role' w hw hdw
        · exact Or.inr htype

end Parts

section Represented

variable {source : List Char} {role : Role} {body t v : ParseTree}

theorem Nested.span_contains {c d : Code} (h : Everywhere Nested c) (hd : d ∈ subtrees c) :
    c.span.contains d.span = true := by
  induction c using Tree.inductionOn with
  | h i cs ih =>
    rcases mem_subtrees_node.mp hd with rfl | ⟨c, hc, hdc⟩
    · exact Span.contains_refl _
    · exact Span.contains_trans (h.here.inside c hc) (ih c hc (h.child hc) hdc)

/-- Of two nodes of nested code the earlier one stands apart from the later one or below it. -/
theorem Nested.pairwise_subtrees {c : Code} (h : Everywhere Nested c) :
    (subtrees c).Pairwise fun a b => Span.Apart (span a) (span b) ∨ a ∈ descendants b := by
  induction c using Tree.inductionOn with
  | h i cs ih =>
    have hapart := h.here.apart
    rw [children_node] at hapart
    have hcs : ∀ ds : List Code, ds.Sublist cs → (subtreesOf ds).Pairwise
        fun a b => Span.Apart (span a) (span b) ∨ a ∈ descendants b := by
      intro ds hds
      induction ds with
      | nil => simp [subtreesOf]
      | cons d ds ihds =>
        have hd : d ∈ cs := hds.subset (List.mem_cons_self ..)
        have hrest := (List.sublist_cons_self d ds).trans hds
        rw [subtreesOf, List.pairwise_append]
        refine ⟨ih d hd (h.child hd), ihds hrest, ?_⟩
        intro a ha b hb
        obtain ⟨e, he, hbe⟩ := mem_subtreesOf.mp hb
        have hde := List.rel_of_pairwise_cons (hapart.sublist hds) he
        exact Or.inl (hde.mono (Nested.span_contains (h.child hd) ha)
          (Nested.span_contains (h.child (hrest.subset he)) hbe))
    rw [subtrees_node, List.pairwise_append]
    refine ⟨hcs cs (List.Sublist.refl cs), List.pairwise_singleton _ _, ?_⟩
    intro a ha b hb
    rw [List.mem_singleton.mp hb]
    exact Or.inr ha

def expressionsAt (span : Span) (c : Code) : List Code :=
  (subtrees c).filter fun d => d.shape.sort = .expression ∧ d.span = span

theorem mem_expressionsAt {span : Span} {c d : Code} :
    d ∈ expressionsAt span c ↔
      d ∈ subtrees c ∧ d.shape.sort = .expression ∧ d.span = span := by
  simp [expressionsAt]

/-- Expressions of nested code that cover the same text, none of them below another, are at
most one. -/
theorem length_expressionsAt_le {span : Span} (hspan : span.start < span.stop) {c : Code}
    (hnest : Everywhere Nested c)
    (hbelow : ∀ d ∈ expressionsAt span c, ∀ e ∈ expressionsAt span c, e ∉ descendants d) :
    (expressionsAt span c).length ≤ 1 := by
  have hpair : (expressionsAt span c).Pairwise fun _ _ => False := by
    refine ((Nested.pairwise_subtrees hnest).sublist List.filter_sublist).imp_of_mem ?_
    intro a b ha hb hab
    have haspan := (mem_expressionsAt.mp ha).2.2
    have hbspan := (mem_expressionsAt.mp hb).2.2
    rcases hab with hapart | hdesc
    · rw [haspan, hbspan] at hapart
      unfold Span.Apart at hapart
      omega
    · exact hbelow b hb a ha hdesc
  match hlist : expressionsAt span c with
  | [] => simp
  | [_] => simp
  | a :: b :: rest =>
    rw [hlist] at hpair
    exact absurd (List.rel_of_pairwise_cons hpair (List.mem_cons_self ..)) id

/-- No other expression in the body covers the text of `v`, nor does the name of a type. -/
structure Alone (body v : ParseTree) : Prop where
  expression : ∀ w ∈ subtrees body, ParseTree.span w = v.span →
    (Construct.ofKind (ParseTree.kind w)).isExpression = true → w = v
  type : ∀ w ∈ subtrees body, ParseTree.span w = v.span → fills "type" w = false

instance (body v : ParseTree) : Decidable (Alone body v) :=
  decidable_of_iff
    ((∀ w ∈ subtrees body, ParseTree.span w = v.span →
        (Construct.ofKind (ParseTree.kind w)).isExpression = true → w = v) ∧
      ∀ w ∈ subtrees body, ParseTree.span w = v.span → fills "type" w = false)
    ⟨fun h => ⟨h.1, h.2⟩, fun h => ⟨h.1, h.2⟩⟩

theorem ne_elseClause_of_isExpression {k : Construct} (h : k.isExpression = true) :
    k ≠ .elseClause := by
  rintro rfl
  exact absurd h (by simp [Construct.isExpression])

/-- An expression is read as one that covers it. -/
theorem read_isExpression (source : List Char) (role : Role)
    (h : (Construct.ofKind v.kind).isExpression = true) :
    (Code.read source role v).shape.sort = .expression ∧
      (Code.read source role v).span = v.span := by
  obtain ⟨shape, hread, hsort⟩ := read_eq_slots source role (ne_elseClause_of_isExpression h)
  rw [hread]
  exact ⟨hsort.mpr h, rfl⟩

/-- What covers the text of a lone expression is read from it. -/
theorem Alone.eq_read (halone : Alone body v) (ht : t ∈ subtrees body) {d : Code}
    (hd : d ∈ expressionsAt v.span (Code.read source role t)) :
    Reached source t v ∧ ∃ role', d = Code.read source role' v := by
  obtain ⟨hmem, hexpr, hspan⟩ := mem_expressionsAt.mp hd
  rcases accounted_of_mem hmem hexpr with ⟨role', w, hw, hwexpr, rfl⟩ | ⟨w, hw, htype, hdw⟩
  · have hwspan := (read_isExpression source role' hwexpr).2
    obtain rfl := halone.expression w (mem_subtrees_trans body hw.mem_subtrees ht)
      (hwspan.symm.trans hspan) hwexpr
    exact ⟨hw, role', rfl⟩
  · have hfills := halone.type w (mem_subtrees_trans body (descendants_subset hw) ht)
      (hdw.symm.trans hspan)
    exact absurd htype (by simp [hfills])

/-- Nothing below the code of a lone expression covers the same text. -/
theorem Alone.not_mem_descendants (halone : Alone body v) (hv : v ∈ subtrees body)
    (hexpr : (Construct.ofKind v.kind).isExpression = true) {e : Code}
    (hsort : e.shape.sort = .expression) (hspan : e.span = v.span) :
    e ∉ descendants (Code.read source role v) := by
  intro he
  obtain ⟨shape, hread, -⟩ := read_eq_slots source role (ne_elseClause_of_isExpression hexpr)
  rw [hread] at he
  obtain ⟨c, hc, hec⟩ := mem_descendants.mp he
  obtain ⟨s, hs, rfl⟩ := List.mem_map.mp hc
  rcases accounted_of_slot hs hec hsort with ⟨role', w, hw, hew⟩ | ⟨w, hw, htype, hew⟩
  · have hwv := mem_descendants_of_mem_parts hw
    have hreach := (halone.eq_read (mem_subtrees_trans body (descendants_subset hwv) hv)
      (mem_expressionsAt.mpr ⟨hew, hsort, hspan⟩)).1
    exact not_mem_descendants_self _ (mem_descendants_trans hreach.mem_subtrees hwv)
  · have hfills := halone.type w (mem_subtrees_trans body (descendants_subset hw) hv)
      (hew.symm.trans hspan)
    exact absurd htype (by simp [hfills])

/-- A lone expression is read once if it is reached and not at all if it is not. -/
theorem Alone.expressionsAt_cases (halone : Alone body v) (htidy : Tidy body)
    (hv : v ∈ subtrees body) (hexpr : (Construct.ofKind v.kind).isExpression = true)
    (hspan : v.span.start < v.span.stop) (source : List Char) (role : Role) :
    (Reached source body v ∧
      ∃ role', expressionsAt v.span (Code.read source role body) = [Code.read source role' v]) ∨
    (¬ Reached source body v ∧ expressionsAt v.span (Code.read source role body) = []) := by
  have hself := self_mem_subtrees body
  by_cases hreach : Reached source body v
  · refine Or.inl ⟨hreach, ?_⟩
    obtain ⟨role', hread⟩ := hreach.read role
    have hmem : Code.read source role' v ∈ expressionsAt v.span (Code.read source role body) :=
      mem_expressionsAt.mpr ⟨hread, read_isExpression source role' hexpr⟩
    have hle : (expressionsAt v.span (Code.read source role body)).length ≤ 1 := by
      refine length_expressionsAt_le hspan (nested_read htidy source role) ?_
      intro d hd e he
      obtain ⟨-, role'', rfl⟩ := halone.eq_read hself hd
      obtain ⟨-, hsort, hespan⟩ := mem_expressionsAt.mp he
      exact halone.not_mem_descendants hv hexpr hsort hespan
    obtain ⟨d, hd⟩ := List.length_eq_one_iff.mp
      (Nat.le_antisymm hle (List.length_pos_of_mem hmem))
    rw [hd, List.mem_singleton] at hmem
    exact ⟨role', by rw [hd, hmem]⟩
  · refine Or.inr ⟨hreach, List.eq_nil_iff_forall_not_mem.mpr fun d hd => ?_⟩
    exact hreach (halone.eq_read hself hd).1

end Represented

end Code

namespace Decl

theorem functionsOf_flatMap (l : List ParseTree) (g : ParseTree → List Decl) :
    functionsOf (l.flatMap g) = l.flatMap fun c => functionsOf (g c) := by
  induction l with
  | nil => rfl
  | cons c l ih => rw [List.flatMap_cons, functionsOf_append, ih, List.flatMap_cons]

def DefinedIn (source : List Char) (t : ParseTree) (f : Function) : Prop :=
  ∃ d ∈ subtrees t, ∃ scope owner, readFunction source scope owner d = some f

theorem DefinedIn.up {source : List Char} {t v : ParseTree} {f : Function}
    (h : DefinedIn source v f) (hv : v ∈ descendants t) : DefinedIn source t f := by
  obtain ⟨d, hd, hread⟩ := h
  exact ⟨d, mem_subtrees_trans t hd (descendants_subset hv), hread⟩

/-- Every function with a body is read from a definition. -/
theorem kept_definedIn (source : List Char) :
    Kept source fun _ t _ ds => ∀ f ∈ functionsOf ds, ∀ b, f.body = some b →
      DefinedIn source t f where
  up hv h f hf b hb := (h f hf b hb).up hv
  children hl hg f hf b hb := by
    rw [functionsOf_flatMap] at hf
    obtain ⟨c, hc, hfc⟩ := List.mem_flatMap.mp hf
    exact (hg c hc f hfc b hb).up (child_mem_descendants (hl.subset hc))
  methods _ h := h
  nest h f hf := h f (by rwa [functionsOf_nest] at hf)
  record _ _ hof hitems f hf b hb := by
    rw [functionsOf, functions, functionsOf, List.append_nil, hof.decls_eq,
      functionsOf_flatMap] at hf
    obtain ⟨c, hc, hfc⟩ := List.mem_flatMap.mp hf
    exact (hitems c hc f hfc b hb).up
      (descendants_trans (child_mem_descendants (Code.mem_children_of_mem_items hc))
        (child_mem_descendants (field?_mem hof.body_eq)))
  function {_ _ t _} hread f hf b hb := by
    rw [functionsOf, functions, functionsOf, List.append_nil, List.mem_singleton] at hf
    subst hf
    exact ⟨t, self_mem_subtrees t, _, _, hread⟩
  declarators {scope t _} h f hf b hb := by
    rw [functionsOf_append] at hf
    rcases List.mem_append.mp hf with hf | hf
    · exact h f hf b hb
    · -- a declarator without a definition gives a function no body
      have hnone := (readDeclarators_empty source scope t (fieldAll "declarator" t.children)).1
      have hmem := List.mem_filterMap.mpr ⟨f, hf, hb⟩
      exact absurd hmem (List.eq_nil_iff_forall_not_mem.mp hnone b)

theorem readFunction_parts {source : List Char} {scope : List String} {owner : Option String}
    {t : ParseTree} {f : Function} (h : readFunction source scope owner t = some f) :
    f.span = t.span ∧ f.body = (field? "body" t.children).map (Code.read source .body) := by
  unfold readFunction at h
  obtain ⟨declarator, -, h⟩ := Option.bind_eq_some_iff.mp h
  obtain ⟨signature, -, h⟩ := Option.bind_eq_some_iff.mp h
  obtain ⟨g, hg, h⟩ := Option.bind_eq_some_iff.mp h
  unfold readPrototype at hg
  obtain ⟨written, -, hg⟩ := Option.bind_eq_some_iff.mp hg
  simp only [Option.pure_def, Option.some.injEq] at h hg
  rw [← h, ← hg, ← Code.readField_eq]
  exact ⟨rfl, rfl⟩

end Decl

namespace Code

/-- The body of a function is the code of the body of its definition. An access in it that
no other expression covers is read as one expression with its span if it is reached from the
body, and as none if it is not. -/
theorem access_read_iff_reached (path : String) (source : List Char) {parsed : Parsed}
    (htidy : Tidy parsed.tree) {f : Function}
    (hf : f ∈ (SourceFile.ofParsed path source parsed).functions) {b : Code}
    (hb : f.body = some b) :
    ∃ d ∈ subtrees parsed.tree, ∃ body, ParseTree.span d = f.span ∧
      field? "body" d.children = some body ∧ b = Code.read source .body body ∧
      ∀ v ∈ subtrees body, ParseTree.kind v = "field_expression" →
        (ParseTree.span v).start < (ParseTree.span v).stop → Alone body v →
        ((∃ role, expressionsAt (ParseTree.span v) b = [Code.read source role v]) ↔
            Reached source body v) ∧
          (expressionsAt (ParseTree.span v) b = [] ↔ ¬ Reached source body v) := by
  obtain ⟨d, hd, scope, owner, hread⟩ :=
    (Decl.kept_definedIn source).ofParsed path parsed f hf b hb
  obtain ⟨hspan, hbody⟩ := Decl.readFunction_parts hread
  rw [hb] at hbody
  obtain ⟨body, hfield, rfl⟩ := Option.map_eq_some_iff.mp hbody.symm
  refine ⟨d, hd, body, hspan.symm, hfield, rfl, ?_⟩
  intro v hv hkind hnonempty halone
  have hmem : body ∈ subtrees parsed.tree :=
    mem_subtrees_trans _ (descendants_subset (child_mem_descendants (field?_mem hfield))) hd
  have hexpr : (Construct.ofKind (ParseTree.kind v)).isExpression = true := by
    rw [hkind]
    rfl
  have hbodyTidy : Tidy body := ⟨htidy.orderly.of_mem hmem, htidy.oneValue.of_mem hmem⟩
  rcases halone.expressionsAt_cases hbodyTidy hv hexpr hnonempty source .body with
    ⟨hreach, role, hone⟩ | ⟨hreach, hnone⟩
  · exact ⟨⟨fun _ => hreach, fun _ => ⟨role, hone⟩⟩, by simp [hone, hreach]⟩
  · exact ⟨by simp [hnone, hreach], by simp [hnone, hreach]⟩

/-- Statements with a lambda that copies `a.x` into a capture and returns `a.x`. -/
def captureText : List Char :=
  unitText "[v=(a.x)]\x7breturn a.x;\x7d;"

def bareAccess (start : Nat) : ParseTree :=
  named "field_expression" start (start + 3)
    [filling "argument" "identifier" start (start + 1) [],
     filling "field" "field_identifier" (start + 2) (start + 3) []]

def returnTree : ParseTree :=
  named "return_statement" 39 50 [bareAccess 46]

def lambdaBody : ParseTree :=
  filling "body" "compound_statement" 38 51 [returnTree]

def lambdaTree : ParseTree :=
  named "lambda_expression" 29 51
    [filling "captures" "lambda_capture_specifier" 29 38
       [named "lambda_capture_initializer" 30 37
          [filling "left" "identifier" 30 31 [],
           filling "right" "parenthesized_expression" 32 37 [bareAccess 33]]],
     lambdaBody]

def captureStatement : ParseTree :=
  named "expression_statement" 29 52 [lambdaTree]

def captureBody : ParseTree :=
  filling "body" "compound_statement" 28 53 [captureStatement]

def captureTree : ParseTree :=
  unitTree 52 [captureStatement]

theorem exists_captureFunction :
    ∃ f ∈ (SourceFile.ofParsed "a.cpp" captureText ⟨captureTree, false⟩).functions,
      f.span = ⟨17, 53⟩ ∧ f.body = some (Code.read captureText .body captureBody) := by
  decide

theorem reached_returned : Reached captureText captureBody (bareAccess 46) :=
  calc
    Reached captureText captureBody captureStatement := .single (by decide)
    Reached captureText captureStatement lambdaTree := .single (by decide)
    Reached captureText lambdaTree lambdaBody := .single (by decide)
    Reached captureText lambdaBody returnTree := .single (by decide)
    Reached captureText returnTree (bareAccess 46) := .single (by decide)

/-- The access that the lambda returns is read once. -/
theorem returned_access_read :
    Tidy captureTree ∧ Alone captureBody (bareAccess 46) ∧
      ∃ f ∈ (SourceFile.ofParsed "a.cpp" captureText ⟨captureTree, false⟩).functions,
        ∃ b role, f.body = some b ∧
          expressionsAt ⟨46, 49⟩ b = [Code.read captureText role (bareAccess 46)] := by
  have htidy : Tidy captureTree := by decide
  have halone : Alone captureBody (bareAccess 46) := by decide
  obtain ⟨f, hf, hspan, hb⟩ := exists_captureFunction
  obtain ⟨d, hd, body, hdspan, hfield, hread, hall⟩ :=
    access_read_iff_reached "a.cpp" captureText htidy hf hb
  have hunique : ∀ d ∈ subtrees captureTree, ParseTree.span d = ⟨17, 53⟩ →
      field? "body" d.children = some captureBody := by
    decide
  obtain rfl : captureBody = body := by
    rw [hunique d hd (hdspan.trans hspan)] at hfield
    exact Option.some.inj hfield
  obtain ⟨role, hone⟩ := (hall (bareAccess 46) (by decide) rfl (by decide) halone).1.mpr
    reached_returned
  exact ⟨htidy, halone, f, hf, _, role, hb, hone⟩

/-- The body of the function has no expression for the access in the capture. -/
theorem captured_access_not_read :
    bareAccess 33 ∈ subtrees captureBody ∧
      ∃ f ∈ (SourceFile.ofParsed "a.cpp" captureText ⟨captureTree, false⟩).functions,
        f.body = some (Code.read captureText .body captureBody) ∧
          expressionsAt ⟨33, 36⟩ (Code.read captureText .body captureBody) = [] := by
  obtain ⟨f, hf, -, hb⟩ := exists_captureFunction
  exact ⟨by decide, f, hf, hb, by decide⟩

end Code

end Cpp

end Encapsulate
