import Encapsulate.Proofs.Outline
import Mathlib.Data.Option.Basic

/-!
Trees without their comments. A comment that fills no field is passed over by every reader
of names, types and code, so the code of a tree is that of the tree without its comments. The
one reader that stops at a comment is the search for the function declarator behind a
reference or an attribute: what it finds is found without comments as well, but not the
other way round.
-/

namespace Encapsulate.Cpp

open Encapsulate.Tree

namespace ParseTree

def isComment (t : ParseTree) : Bool :=
  t.kind == "comment"

mutual

def withoutComments : ParseTree → ParseTree
  | .node i cs => .node i (dropComments cs)

def dropComments : List ParseTree → List ParseTree
  | [] => []
  | c :: cs => if isComment c then dropComments cs else withoutComments c :: dropComments cs

end

def BareComment (t : ParseTree) : Prop :=
  isComment t = true → t.info.field = none

instance (t : ParseTree) : Decidable (BareComment t) :=
  inferInstanceAs (Decidable (isComment t = true → t.info.field = none))

section Selection

variable {t : ParseTree} {cs : List ParseTree}

@[simp] theorem info_withoutComments (t : ParseTree) : (withoutComments t).info = t.info := by
  cases t
  rw [withoutComments, info_node, info_node]

@[simp] theorem children_withoutComments (t : ParseTree) :
    (withoutComments t).children = dropComments t.children := by
  cases t
  rw [withoutComments, children_node, children_node]

@[simp] theorem kind_withoutComments (t : ParseTree) : (withoutComments t).kind = t.kind := by
  simp [kind]

@[simp] theorem span_withoutComments (t : ParseTree) : (withoutComments t).span = t.span := by
  simp [span]

@[simp] theorem text_withoutComments (source : List Char) (t : ParseTree) :
    text source (withoutComments t) = text source t := by
  simp [text]

@[simp] theorem fills_withoutComments (field : String) (t : ParseTree) :
    fills field (withoutComments t) = fills field t := by
  simp [fills]

@[simp] theorem isItem_withoutComments (t : ParseTree) :
    isItem (withoutComments t) = isItem t := by
  simp [isItem]

/-- What is selected among the children stays selected, if the selection neither looks below
a child nor takes a comment. -/
theorem filter_dropComments {p : ParseTree → Bool} (hp : ∀ c, p (withoutComments c) = p c)
    (hcs : ∀ c ∈ cs, isComment c = true → p c = false) :
    (dropComments cs).filter p = (cs.filter p).map withoutComments := by
  induction cs with
  | nil => simp [dropComments]
  | cons c cs ih =>
    have hrest := ih fun d hd => hcs d (List.mem_cons_of_mem _ hd)
    rw [dropComments]
    by_cases hc : isComment c = true
    · have hpc := hcs c (List.mem_cons_self ..) hc
      simp [hc, hpc, hrest]
    · by_cases hpc : p c = true <;> simp [hc, hp, hpc, hrest]

theorem find?_dropComments {p : ParseTree → Bool} (hp : ∀ c, p (withoutComments c) = p c)
    (hcs : ∀ c ∈ cs, isComment c = true → p c = false) :
    (dropComments cs).find? p = (cs.find? p).map withoutComments := by
  rw [← List.head?_filter, ← List.head?_filter, filter_dropComments hp hcs, List.head?_map]

theorem any_dropComments {p : ParseTree → Bool} (hp : ∀ c, p (withoutComments c) = p c)
    (hcs : ∀ c ∈ cs, isComment c = true → p c = false) :
    (dropComments cs).any p = cs.any p := by
  rw [← List.isSome_find?, ← List.isSome_find?, find?_dropComments hp hcs, Option.isSome_map]

theorem filterMap_dropComments {β : Type} {f : ParseTree → Option β}
    (hf : ∀ c ∈ cs, f (withoutComments c) = f c)
    (hcs : ∀ c ∈ cs, isComment c = true → f c = none) :
    (dropComments cs).filterMap f = cs.filterMap f := by
  induction cs with
  | nil => simp [dropComments]
  | cons c cs ih =>
    have hrest := ih (fun d hd => hf d (List.mem_cons_of_mem _ hd))
      fun d hd => hcs d (List.mem_cons_of_mem _ hd)
    have hc := hf c (List.mem_cons_self ..)
    rw [dropComments]
    by_cases hcomment : isComment c = true
    · simp [hcomment, hcs c (List.mem_cons_self ..) hcomment, hrest]
    · simp [hcomment, List.filterMap_cons, hc, hrest]

theorem isItem_of_isComment (h : isComment t = true) : isItem t = false := by
  simp only [isComment, beq_iff_eq] at h
  simp [isItem, h]

theorem items_dropComments (cs : List ParseTree) :
    items (dropComments cs) = (items cs).map withoutComments :=
  filter_dropComments isItem_withoutComments fun _ _ => isItem_of_isComment

theorem find?_isItem_dropComments (cs : List ParseTree) :
    (dropComments cs).find? isItem = (cs.find? isItem).map withoutComments :=
  find?_dropComments isItem_withoutComments fun _ _ => isItem_of_isComment

theorem BareComment.not_fills (h : BareComment t) (hc : isComment t = true) (field : String) :
    fills field t = false := by
  simp [fills, h hc]

variable (hcs : ∀ c ∈ cs, BareComment c)

include hcs

theorem field?_dropComments (field : String) :
    field? field (dropComments cs) = (field? field cs).map withoutComments :=
  find?_dropComments (fills_withoutComments field) fun c hc h => (hcs c hc).not_fills h field

theorem fieldAll_dropComments (field : String) :
    fieldAll field (dropComments cs) = (fieldAll field cs).map withoutComments :=
  filter_dropComments (fills_withoutComments field) fun c hc h => (hcs c hc).not_fills h field

theorem hasField_dropComments (field : String) :
    hasField field (dropComments cs) = hasField field cs :=
  any_dropComments (fills_withoutComments field) fun c hc h => (hcs c hc).not_fills h field

end Selection

end ParseTree

open ParseTree

section Declarators

variable {source : List Char} {t : ParseTree} {cs : List ParseTree}

theorem bare_children (h : Everywhere BareComment t) : ∀ c ∈ t.children, BareComment c :=
  fun _ hc => (h.child hc).here

theorem nameInDeclarator_eq (source : List Char) (cs : List ParseTree) :
    nameInDeclarator source cs = (field? "declarator" cs).bind (declaredName source) := by
  induction cs with
  | nil => simp [nameInDeclarator, field?]
  | cons c cs ih =>
    rw [nameInDeclarator, ih]
    by_cases hc : fills "declarator" c <;> simp [field?, hc]

theorem nameInFirst_eq (source : List Char) (cs : List ParseTree) :
    nameInFirst source cs = (cs.find? isItem).bind (declaredName source) := by
  induction cs with
  | nil => simp [nameInFirst]
  | cons c cs ih =>
    rw [nameInFirst, ih]
    by_cases hc : isItem c <;> simp [hc]

theorem declaredInner_eq (source : List Char) (type : TypeRef) (cs : List ParseTree) :
    declaredInner source type cs =
      ((field? "declarator" cs).map (declared source type)).getD ⟨none, type⟩ := by
  induction cs with
  | nil => simp [declaredInner, field?]
  | cons c cs ih =>
    rw [declaredInner, ih]
    by_cases hc : fills "declarator" c <;> simp [field?, hc]

theorem declaredFirst_eq (source : List Char) (type : TypeRef) (cs : List ParseTree) :
    declaredFirst source type cs =
      ((cs.find? isItem).map (declared source type)).getD ⟨none, type⟩ := by
  induction cs with
  | nil => simp [declaredFirst]
  | cons c cs ih =>
    rw [declaredFirst, ih]
    by_cases hc : isItem c <;> simp [hc]

theorem functionInDeclarator_eq (cs : List ParseTree) :
    functionInDeclarator cs = (field? "declarator" cs).bind functionDeclarator := by
  induction cs with
  | nil => simp [functionInDeclarator, field?]
  | cons c cs ih =>
    rw [functionInDeclarator, ih]
    by_cases hc : fills "declarator" c <;> simp [field?, hc]

theorem functionInNamed_eq (cs : List ParseTree) :
    functionInNamed cs = (cs.find? (·.info.isNamed)).bind functionDeclarator := by
  induction cs with
  | nil => simp [functionInNamed]
  | cons c cs ih =>
    rw [functionInNamed, ih]
    by_cases hc : c.info.isNamed <;> simp [hc]

/-- A function of trees that gives the same for some child with and without comments, if it
does so for every child. -/
theorem bind_withoutComments {β : Type} {f : ParseTree → Option β} {o : Option ParseTree}
    (h : ∀ c, o = some c → f (withoutComments c) = f c) :
    (o.map withoutComments).bind f = o.bind f := by
  cases o with
  | none => rfl
  | some c => exact h c rfl

theorem map_withoutComments {β : Type} {f : ParseTree → β} {o : Option ParseTree}
    (h : ∀ c, o = some c → f (withoutComments c) = f c) :
    (o.map withoutComments).map f = o.map f := by
  cases o with
  | none => rfl
  | some c => exact congrArg some (h c rfl)

theorem declaredName_withoutComments (source : List Char) (h : Everywhere BareComment t) :
    declaredName source (withoutComments t) = declaredName source t := by
  induction t using Tree.inductionOn with
  | h i cs ih =>
    have hbare : ∀ c ∈ cs, BareComment c := bare_children h
    have hchild : ∀ c ∈ cs, declaredName source (withoutComments c) = declaredName source c :=
      fun c hc => ih c hc (h.child hc)
    rw [withoutComments, declaredName, declaredName, hasField_dropComments hbare,
      field?_dropComments hbare, nameInDeclarator_eq, nameInDeclarator_eq,
      field?_dropComments hbare, nameInFirst_eq, nameInFirst_eq, find?_isItem_dropComments,
      map_withoutComments fun c _ => text_withoutComments source c,
      bind_withoutComments fun c hc => hchild c (field?_mem hc),
      bind_withoutComments fun c hc => hchild c (List.mem_of_find?_eq_some hc)]

theorem declared_withoutComments (source : List Char) (type : TypeRef)
    (h : Everywhere BareComment t) :
    declared source type (withoutComments t) = declared source type t := by
  induction t using Tree.inductionOn generalizing type with
  | h i cs ih =>
    have hbare : ∀ c ∈ cs, BareComment c := bare_children h
    have hinner : ∀ type, declaredInner source type (dropComments cs) =
        declaredInner source type cs := by
      intro type
      rw [declaredInner_eq, declaredInner_eq, field?_dropComments hbare,
        map_withoutComments fun c hc => ih c (field?_mem hc) type (h.child (field?_mem hc))]
    have hfirst : ∀ type, declaredFirst source type (dropComments cs) =
        declaredFirst source type cs := by
      intro type
      rw [declaredFirst_eq, declaredFirst_eq, find?_isItem_dropComments,
        map_withoutComments fun c hc => ih c (List.mem_of_find?_eq_some hc) type
          (h.child (List.mem_of_find?_eq_some hc))]
    have hname := declaredName_withoutComments source h
    rw [withoutComments] at hname ⊢
    rw [declared, declared, hname]
    simp only [hinner, hfirst, items_dropComments, List.any_map, Function.comp_def,
      kind_withoutComments, text_withoutComments]

theorem isRecordSpecifier_withoutComments (h : Everywhere BareComment t) :
    isRecordSpecifier (withoutComments t) = isRecordSpecifier t := by
  simp [isRecordSpecifier, hasField_dropComments (bare_children h)]

theorem specifierType_dropComments (source : List Char)
    (h : ∀ c ∈ cs, Everywhere BareComment c) :
    specifierType source (dropComments cs) = specifierType source cs := by
  have hbare : ∀ c ∈ cs, BareComment c := fun c hc => (h c hc).here
  have hqualifiers : ((items (dropComments cs)).filter (·.kind == "type_qualifier")).map
      (text source) = ((items cs).filter (·.kind == "type_qualifier")).map (text source) := by
    simp [items_dropComments, List.filter_map, Function.comp_def]
  unfold specifierType
  simp only [hqualifiers, field?_dropComments hbare]
  cases hspec : field? "type" cs with
  | none => rfl
  | some spec =>
    have hspecBare := h spec (field?_mem hspec)
    simp [isRecordSpecifier_withoutComments hspecBare,
      field?_dropComments (bare_children hspecBare), Function.comp_def]

theorem declaredBy_withoutComments (source : List Char)
    (h : ∀ c ∈ cs, Everywhere BareComment c) {o : Option ParseTree}
    (ho : ∀ d, o = some d → Everywhere BareComment d) :
    declaredBy source (dropComments cs) (o.map withoutComments) = declaredBy source cs o := by
  cases o with
  | none => simp [declaredBy, specifierType_dropComments source h]
  | some d =>
    simp [declaredBy, specifierType_dropComments source h,
      declared_withoutComments source _ (ho d rfl)]

/-- Without comments the first named child is the first item. -/
theorem find?_isNamed_dropComments (cs : List ParseTree) :
    (dropComments cs).find? (·.info.isNamed) = (cs.find? isItem).map withoutComments := by
  induction cs with
  | nil => rfl
  | cons c cs ih =>
    rw [dropComments]
    by_cases hc : isComment c = true
    · simp [hc, ih, isItem_of_isComment hc]
    · have hitem : isItem c = c.info.isNamed := by
        simp only [isComment, beq_iff_eq] at hc
        simp [isItem, hc]
      by_cases hnamed : c.info.isNamed = true <;> simp [hc, ih, hitem, hnamed]

theorem functionDeclarator_of_function (h : DeclaratorStep.ofKind t.kind = .function) :
    functionDeclarator t = (field? "declarator" t.children).bind fun inner =>
      if inner.kind == "parenthesized_declarator" then none else some t := by
  obtain ⟨i, cs⟩ := t
  change DeclaratorStep.ofKind i.kind = .function at h
  rw [functionDeclarator, h, children_node]
  cases field? "declarator" cs <;> rfl

theorem functionDeclarator_of_pointer (h : DeclaratorStep.ofKind t.kind = .pointer) :
    functionDeclarator t = (field? "declarator" t.children).bind functionDeclarator := by
  obtain ⟨i, cs⟩ := t
  change DeclaratorStep.ofKind i.kind = .pointer at h
  rw [functionDeclarator, h, children_node]
  exact functionInDeclarator_eq cs

theorem functionDeclarator_of_reference (h : DeclaratorStep.ofKind t.kind = .reference ∨
      DeclaratorStep.ofKind t.kind = .attributed) :
    functionDeclarator t = (t.children.find? (·.info.isNamed)).bind functionDeclarator := by
  obtain ⟨i, cs⟩ := t
  change DeclaratorStep.ofKind i.kind = .reference ∨ DeclaratorStep.ofKind i.kind = .attributed at h
  rw [functionDeclarator, children_node]
  rcases h with h | h
  · rw [h]
    exact functionInNamed_eq cs
  · rw [h]
    exact functionInNamed_eq cs

/-- Nothing else leads to a function declarator. -/
theorem step_of_functionDeclarator {s : ParseTree} (h : functionDeclarator t = some s) :
    DeclaratorStep.ofKind t.kind = .function ∨ DeclaratorStep.ofKind t.kind = .pointer ∨
      (DeclaratorStep.ofKind t.kind = .reference ∨ DeclaratorStep.ofKind t.kind = .attributed) := by
  obtain ⟨i, cs⟩ := t
  change DeclaratorStep.ofKind i.kind = _ ∨ DeclaratorStep.ofKind i.kind = _ ∨
    (DeclaratorStep.ofKind i.kind = _ ∨ DeclaratorStep.ofKind i.kind = _)
  rw [functionDeclarator] at h
  cases hstep : DeclaratorStep.ofKind i.kind <;> simp [hstep] at h ⊢

theorem functionDeclarator_of_isComment (h : isComment t = true) :
    functionDeclarator t = none := by
  obtain ⟨i, cs⟩ := t
  have hkind : i.kind = "comment" := by simpa [isComment, ParseTree.kind] using h
  rw [functionDeclarator, hkind]
  rfl

theorem isComment_of_functionDeclarator {s : ParseTree} (h : functionDeclarator t = some s) :
    isComment t = false := by
  refine Bool.eq_false_iff.mpr fun hcomment => ?_
  exact absurd ((functionDeclarator_of_isComment hcomment).symm.trans h) (by simp)

/-- The first named child is the first item unless it is a comment. -/
theorem find?_isItem_of_isNamed {c : ParseTree}
    (hc : cs.find? (·.info.isNamed) = some c) (hcomment : isComment c = false) :
    cs.find? isItem = some c := by
  induction cs with
  | nil => simp at hc
  | cons d cs ih =>
    by_cases hnamed : d.info.isNamed = true
    · obtain rfl : d = c := by simpa [hnamed] using hc
      have hkind : d.kind ≠ "comment" := by simpa [isComment] using hcomment
      simp [isItem, hnamed, hkind]
    · simp only [List.find?_cons, hnamed] at hc
      simp [isItem, hnamed, ih hc]

/-- A function declarator introduces no variable. -/
theorem name_of_functionDeclarator {s : ParseTree} (h : functionDeclarator t = some s)
    (source : List Char) (type : TypeRef) : (declared source type t).name = none := by
  induction t using Tree.inductionOn generalizing type with
  | h i cs ih =>
    rw [functionDeclarator] at h
    rw [declared]
    cases hstep : DeclaratorStep.ofKind i.kind with
    | function => rfl
    | pointer =>
      simp only [hstep, functionInDeclarator_eq] at h
      obtain ⟨c, hc, hs⟩ := Option.bind_eq_some_iff.mp h
      simp only [declaredInner_eq, hc, Option.map_some, Option.getD_some]
      exact ih c (field?_mem hc) hs _
    | reference | attributed =>
      simp only [hstep, functionInNamed_eq] at h
      obtain ⟨c, hc, hs⟩ := Option.bind_eq_some_iff.mp h
      have hitem := find?_isItem_of_isNamed hc (isComment_of_functionDeclarator hs)
      simp only [declaredFirst_eq, hitem, Option.map_some, Option.getD_some]
      exact ih c (List.mem_of_find?_eq_some hc) hs _
    | initialized | array | parenthesized | name => simp [hstep] at h

end Declarators

namespace Code

variable {source : List Char} {t : ParseTree} {cs : List ParseTree}

def ReadAlike (source : List Char) (t : ParseTree) : Prop :=
  ∀ v ∈ subtrees t, ∀ role, read source role (withoutComments v) = read source role v

theorem ReadAlike.here (h : ReadAlike source t) (role : Role) :
    read source role (withoutComments t) = read source role t :=
  h t (self_mem_subtrees t) role

theorem ReadAlike.child (h : ReadAlike source t) {c : ParseTree} (hc : c ∈ t.children) :
    ReadAlike source c := by
  intro v hv
  refine h v ?_
  rw [← node_info_children t]
  exact mem_subtrees_node.mpr (Or.inr ⟨c, hc, hv⟩)

def declaratorBinding (source : List Char) (specifier : TypeRef) (own : Option Code)
    (t : ParseTree) : Option Binding :=
  (declared source specifier t).bind? (readValue source own t) t.span

/-- It takes no check to pass over function declarators, since they name no variable. -/
theorem readDeclarators_eq (source : List Char) (specifier : TypeRef) (own : Option Code)
    (cs : List ParseTree) :
    readDeclarators source specifier own cs =
      (fieldAll "declarator" cs).filterMap (declaratorBinding source specifier own) := by
  induction cs with
  | nil => simp [readDeclarators, fieldAll]
  | cons c cs ih =>
    rw [readDeclarators, ih]
    by_cases hfills : fills "declarator" c = true
    · cases hs : functionDeclarator c with
      | none =>
        cases hv : declaratorBinding source specifier own c <;>
          simp_all [declaratorBinding, fieldAll, isFunctionDeclarator]
      | some s =>
        have hname := name_of_functionDeclarator hs source specifier
        simp [fieldAll, hfills, isFunctionDeclarator, hs, declaratorBinding, Declared.bind?, hname]
    · simp [fieldAll, hfills]

def paramBinding (source : List Char) (t : ParseTree) : Option Binding :=
  if parameterKinds.contains t.kind && isItem t then
    (declaredBy source t.children (field? "declarator" t.children)).bind?
      (readField source .initializer "default_value" t.children) t.span
  else
    none

theorem readParams_eq (source : List Char) (cs : List ParseTree) :
    readParams source cs = cs.filterMap (paramBinding source) := by
  induction cs with
  | nil => simp [readParams]
  | cons c cs ih =>
    obtain ⟨i, ks⟩ := c
    rw [readParams, ih, List.filterMap_cons]
    by_cases hc : (parameterKinds.contains i.kind && isItem (.node i ks)) = true
    · have hparam : paramBinding source (.node i ks) =
          (declaredBy source ks (field? "declarator" ks)).bind?
            (readField source .initializer "default_value" ks) i.span := if_pos hc
      rw [if_pos hc, hparam]
      generalize Declared.bind? _ _ _ = binding
      cases binding <;> rfl
    · have hparam : paramBinding source (.node i ks) = none := if_neg hc
      rw [if_neg hc, hparam]

theorem readParamsField_eq (source : List Char) (cs : List ParseTree) :
    readParamsField source cs =
      ((field? "parameters" cs).map fun list => readParams source list.children).getD [] := by
  induction cs with
  | nil => simp [readParamsField, field?]
  | cons c cs ih =>
    obtain ⟨i, ks⟩ := c
    rw [readParamsField, ih]
    by_cases hc : fills "parameters" (.node i ks) <;> simp [field?, hc]

theorem readSignature_eq (source : List Char) (cs : List ParseTree) :
    readSignature source cs =
      ((field? "declarator" cs).map fun d => readParamsField source d.children).getD [] := by
  induction cs with
  | nil => simp [readSignature, field?]
  | cons c cs ih =>
    obtain ⟨i, ks⟩ := c
    rw [readSignature, ih]
    by_cases hc : fills "declarator" (.node i ks) <;> simp [field?, hc]

section Children

variable (hbare : ∀ c ∈ cs, Everywhere BareComment c) (hread : ∀ c ∈ cs, ReadAlike source c)

include hbare hread

theorem readField_dropComments (role : Role) (field : String) :
    readField source role field (dropComments cs) = readField source role field cs := by
  rw [readField_eq, readField_eq, field?_dropComments fun c hc => (hbare c hc).here,
    map_withoutComments fun c hc => (hread c (field?_mem hc)).here role]

omit hbare hread in
theorem readValue_withoutComments (hbare : Everywhere BareComment t) (hread : ReadAlike source t)
    (own : Option Code) :
    readValue source own (withoutComments t) = readValue source own t := by
  induction t using Tree.inductionOn generalizing own with
  | h i cs ih =>
    have hcs : ∀ c ∈ cs, BareComment c := bare_children hbare
    have hchild : ∀ c ∈ cs, ∀ own, readValue source own (withoutComments c) =
        readValue source own c := fun c hc => ih c hc (hbare.child hc) (hread.child hc)
    have hinner : ∀ own, readInnerValue source own (dropComments cs) =
        readInnerValue source own cs := by
      intro own
      rw [readInnerValue_eq, readInnerValue_eq, field?_dropComments hcs,
        map_withoutComments fun c hc => hchild c (field?_mem hc) own]
    have hfirst : ∀ own, readFirstValue source own (dropComments cs) =
        readFirstValue source own cs := by
      intro own
      rw [readFirstValue_eq, readFirstValue_eq, find?_isItem_dropComments,
        map_withoutComments fun c hc => hchild c (List.mem_of_find?_eq_some hc) own]
    have hvalue := readField_dropComments (fun c hc => hbare.child hc)
      (fun c hc => hread.child hc) .initializer "value"
    rw [children_node] at hvalue
    rw [withoutComments, readValue, readValue]
    simp only [hinner, hfirst, hvalue]

omit hbare in
theorem readFirst_dropComments (role : Role) :
    readFirst source role (dropComments cs) = readFirst source role cs := by
  rw [readFirst_eq, readFirst_eq, find?_isItem_dropComments,
    map_withoutComments fun c hc => (hread c (List.mem_of_find?_eq_some hc)).here role]

omit hbare in
theorem readItems_dropComments (role : Role) :
    readItems source role (dropComments cs) = readItems source role cs := by
  rw [readItems_eq, readItems_eq, items_dropComments, List.map_map]
  exact List.map_congr_left fun c hc => (hread c ((items_sublist cs).subset hc)).here role

theorem readFieldItems_dropComments (role : Role) (field : String) :
    readFieldItems source role field (dropComments cs) = readFieldItems source role field cs := by
  rw [readFieldItems_eq, readFieldItems_eq, fieldItems, fieldItems,
    field?_dropComments fun c hc => (hbare c hc).here]
  cases hf : field? field cs with
  | none => rfl
  | some list =>
    have hlist := hread list (field?_mem hf)
    have hitems : readItems source role (dropComments list.children) =
        readItems source role list.children :=
      readItems_dropComments (fun c hc => hlist.child hc) role
    rw [readItems_eq, readItems_eq] at hitems
    simpa using hitems

theorem readDeclarators_dropComments (specifier : TypeRef) (own : Option Code) :
    readDeclarators source specifier own (dropComments cs) =
      readDeclarators source specifier own cs := by
  rw [readDeclarators_eq, readDeclarators_eq,
    fieldAll_dropComments fun c hc => (hbare c hc).here, List.filterMap_map]
  refine List.filterMap_congr fun c hc => ?_
  have hmem := List.mem_of_mem_filter hc
  simp [declaratorBinding, declared_withoutComments source _ (hbare c hmem),
    readValue_withoutComments (hbare c hmem) (hread c hmem)]

omit hbare hread in
theorem otherItems_dropComments (h : ∀ c ∈ cs, BareComment c) (field : String) :
    otherItems field (dropComments cs) = (otherItems field cs).map withoutComments := by
  have herase : (dropComments cs).eraseP (fills field) =
      dropComments (cs.eraseP (fills field)) := by
    induction cs with
    | nil => rfl
    | cons c cs ih =>
      have hrest := ih fun d hd => h d (List.mem_cons_of_mem _ hd)
      by_cases hcomment : isComment c = true
      · have hfills := (h c (List.mem_cons_self ..)).not_fills hcomment field
        simp [dropComments, hcomment, hfills, hrest]
      · by_cases hfills : fills field c = true <;>
          simp [dropComments, hcomment, hfills, hrest]
  rw [otherItems, otherItems, herase, items_dropComments]

theorem readOthers_dropComments (role : Role) (field : String) :
    readOthers source role field (dropComments cs) = readOthers source role field cs := by
  rw [readOthers_eq, readOthers_eq, otherItems_dropComments (fun c hc => (hbare c hc).here),
    List.map_map]
  exact List.map_congr_left fun c hc =>
    (hread c ((otherItems_sublist field cs).subset hc)).here role

theorem readIndices_dropComments (field : String) :
    readIndices source field (dropComments cs) = readIndices source field cs := by
  rw [readIndices_eq, readIndices_eq, otherItems_dropComments (fun c hc => (hbare c hc).here),
    List.flatMap_map, List.map_flatMap, List.map_flatMap]
  refine List.flatMap_congr fun c hc => ?_
  have hc := hread c ((otherItems_sublist field cs).subset hc)
  have hitems : readItems source .item (dropComments c.children) =
      readItems source .item c.children :=
    readItems_dropComments (fun d hd => hc.child hd) .item
  rw [readItems_eq, readItems_eq] at hitems
  unfold openList
  rw [kind_withoutComments, children_withoutComments]
  split
  · exact hitems
  · simp [hc.here]

omit hbare hread in
theorem paramBinding_withoutComments (hbare : Everywhere BareComment t)
    (hread : ReadAlike source t) :
    paramBinding source (withoutComments t) = paramBinding source t := by
  have hcs : ∀ c ∈ t.children, Everywhere BareComment c := fun c hc => hbare.child hc
  have hvalue := readField_dropComments hcs (fun c hc => hread.child hc) .initializer
    "default_value"
  have hdeclared := declaredBy_withoutComments source hcs
    fun d (hd : field? "declarator" t.children = some d) => hcs d (field?_mem hd)
  unfold paramBinding
  simp [field?_dropComments (bare_children hbare), hvalue, hdeclared]

theorem readParams_dropComments : readParams source (dropComments cs) = readParams source cs := by
  rw [readParams_eq, readParams_eq]
  refine filterMap_dropComments
    (fun c hc => paramBinding_withoutComments (hbare c hc) (hread c hc)) fun c _ hcomment => ?_
  simp [paramBinding, isItem_of_isComment hcomment]

theorem readParamsField_dropComments :
    readParamsField source (dropComments cs) = readParamsField source cs := by
  rw [readParamsField_eq, readParamsField_eq, field?_dropComments fun c hc => (hbare c hc).here]
  cases hf : field? "parameters" cs with
  | none => rfl
  | some list =>
    have hlist := field?_mem hf
    simpa using readParams_dropComments (fun c hc => (hbare list hlist).child hc)
      fun c hc => (hread list hlist).child hc

theorem readSignature_dropComments :
    readSignature source (dropComments cs) = readSignature source cs := by
  rw [readSignature_eq, readSignature_eq, field?_dropComments fun c hc => (hbare c hc).here]
  cases hf : field? "declarator" cs with
  | none => rfl
  | some d =>
    have hd := field?_mem hf
    simpa using readParamsField_dropComments (fun c hc => (hbare d hd).child hc)
      fun c hc => (hread d hd).child hc

end Children

theorem loopElement_dropComments (source : List Char) (hbare : ∀ c ∈ cs, Everywhere BareComment c)
    (span : Span) : loopElement source span (dropComments cs) = loopElement source span cs := by
  have hdeclared := declaredBy_withoutComments source hbare
    fun d (hd : field? "declarator" cs = some d) => hbare d (field?_mem hd)
  unfold loopElement
  rw [field?_dropComments fun c hc => (hbare c hc).here, hdeclared]

section Tokens

variable (hcs : ∀ c ∈ cs, BareComment c)

include hcs

theorem memberParts_dropComments :
    memberParts source (dropComments cs) = memberParts source cs := by
  unfold memberParts
  simp only [field?_dropComments hcs]
  cases field? "argument" cs <;> cases field? "field" cs <;> simp

theorem assignOperator_dropComments :
    assignOperator source (dropComments cs) = assignOperator source cs := by
  unfold assignOperator
  simp only [field?_dropComments hcs]
  cases field? "operator" cs <;> simp

theorem binaryOperator_dropComments :
    binaryOperator source (dropComments cs) = binaryOperator source cs := by
  unfold binaryOperator
  simp only [field?_dropComments hcs]
  cases field? "operator" cs <;> simp

theorem stepParts_dropComments : stepParts source (dropComments cs) = stepParts source cs := by
  unfold stepParts
  simp only [field?_dropComments hcs]
  cases field? "operator" cs <;> cases field? "argument" cs <;> simp

theorem unaryOperator_dropComments :
    unaryOperator source (dropComments cs) = unaryOperator source cs := by
  unfold unaryOperator
  rw [field?_dropComments hcs, hasField_dropComments hcs]
  cases field? "operator" cs with
  | none => rfl
  | some token =>
    rw [Option.map_some, Option.bind_eq_bind, Option.bind_some, text_withoutComments]
    rfl

end Tokens

/-- Code is the same without comments. -/
theorem read_withoutComments (hbare : Everywhere BareComment t) (source : List Char)
    (role : Role) : read source role (withoutComments t) = read source role t := by
  induction t using induct_descendants generalizing role with
  | h t ih =>
    have hread : ∀ c ∈ t.children, ReadAlike source c := by
      intro c hc v hv role
      have hmem := mem_descendants.mpr ⟨c, hc, hv⟩
      exact ih v hmem (hbare.of_mem_descendants hmem) role
    have hcs : ∀ c ∈ t.children, Everywhere BareComment c := fun c hc => hbare.child hc
    have hhere := bare_children hbare
    obtain ⟨i, cs⟩ := t
    rw [children_node] at hread hcs hhere
    rw [withoutComments, read, read]
    simp only [readItems_dropComments hread, readFirst_dropComments hread,
      readField_dropComments hcs hread, readFieldItems_dropComments hcs hread,
      readOthers_dropComments hcs hread, readIndices_dropComments hcs hread,
      readDeclarators_dropComments hcs hread, readSignature_dropComments hcs hread,
      specifierType_dropComments source hcs, loopElement_dropComments source hcs,
      hasField_dropComments hhere, memberParts_dropComments hhere,
      assignOperator_dropComments hhere, binaryOperator_dropComments hhere,
      stepParts_dropComments hhere, unaryOperator_dropComments hhere,
      field?_dropComments hhere]
    -- only the type of a braced construction is still looked at by itself
    cases field? "type" cs with
    | none => rfl
    | some type => simp only [Option.map_some, text_withoutComments, span_withoutComments]

end Code

end Encapsulate.Cpp
