import Encapsulate.Cpp.Code.Reading
import Encapsulate.Proofs.Trees

/-!
Which parse trees the parts of a piece of code are read from. Every reader of a
list of children selects some of them, or of their own children, and reads each
selected tree by itself. The number of parts of an access, an assignment, a step,
a unary operation and a pair of parentheses is fixed by the shape.
-/

namespace Encapsulate.Cpp.Code

open ParseTree Encapsulate.Tree

theorem readItems_eq (source : List Char) (role : Role) (cs : List ParseTree) :
    readItems source role cs = (items cs).map (read source role) := by
  induction cs with
  | nil => simp [readItems, items]
  | cons c cs ih =>
    rw [readItems, ih]
    by_cases hc : isItem c <;> simp [items, hc]

theorem readFirst_eq (source : List Char) (role : Role) (cs : List ParseTree) :
    readFirst source role cs = (cs.find? isItem).map (read source role) := by
  induction cs with
  | nil => simp [readFirst]
  | cons c cs ih =>
    rw [readFirst, ih]
    by_cases hc : isItem c <;> simp [hc]

theorem readField_eq (source : List Char) (role : Role) (field : String) (cs : List ParseTree) :
    readField source role field cs = (field? field cs).map (read source role) := by
  induction cs with
  | nil => simp [readField, field?]
  | cons c cs ih =>
    rw [readField, ih]
    by_cases hc : fills field c <;> simp [field?, hc]

def fieldItems (field : String) (cs : List ParseTree) : List ParseTree :=
  ((field? field cs).map fun t => items t.children).getD []

theorem readFieldItems_eq (source : List Char) (role : Role) (field : String)
    (cs : List ParseTree) :
    readFieldItems source role field cs = (fieldItems field cs).map (read source role) := by
  induction cs with
  | nil => simp [readFieldItems, fieldItems, field?]
  | cons c cs ih =>
    obtain ⟨i, ks⟩ := c
    rw [readFieldItems, ih]
    by_cases hc : fills field (.node i ks)
    · simp [fieldItems, field?, hc, readItems_eq]
    · simp [fieldItems, field?, hc]

def otherItems (field : String) (cs : List ParseTree) : List ParseTree :=
  items (cs.eraseP (fills field))

theorem readOthers_eq (source : List Char) (role : Role) (field : String)
    (cs : List ParseTree) :
    readOthers source role field cs = (otherItems field cs).map (read source role) := by
  induction cs with
  | nil => simp [readOthers, otherItems, items]
  | cons c cs ih =>
    rw [readOthers, ih, readItems_eq]
    by_cases hf : fills field c
    · simp [otherItems, hf]
    · by_cases hc : isItem c <;> simp [otherItems, items, hf, hc]

def openList (t : ParseTree) : List ParseTree :=
  if t.kind == "subscript_argument_list" then items t.children else [t]

theorem readIndexItems_eq (source : List Char) (cs : List ParseTree) :
    readIndexItems source cs = ((items cs).flatMap openList).map (read source .item) := by
  induction cs with
  | nil => simp [readIndexItems, items]
  | cons c cs ih =>
    obtain ⟨i, ks⟩ := c
    rw [readIndexItems, ih, readItems_eq]
    by_cases hc : isItem (.node i ks)
    · by_cases hk : i.kind = "subscript_argument_list" <;>
        simp [items, hc, hk, openList, kind]
    · simp [items, hc]

theorem readIndices_eq (source : List Char) (field : String) (cs : List ParseTree) :
    readIndices source field cs =
      ((otherItems field cs).flatMap openList).map (read source .item) := by
  induction cs with
  | nil => simp [readIndices, otherItems, items]
  | cons c cs ih =>
    obtain ⟨i, ks⟩ := c
    rw [readIndices, ih, readItems_eq, readIndexItems_eq]
    by_cases hf : fills field (.node i ks)
    · simp [otherItems, hf]
    · by_cases hc : isItem (.node i ks)
      · by_cases hk : i.kind = "subscript_argument_list" <;>
          simp [otherItems, items, hf, hc, hk, openList, kind]
      · simp [otherItems, items, hf, hc]

def defaultValue (source : List Char) (t : ParseTree) : Option ParseTree :=
  if parameterKinds.contains t.kind && isItem t then
    (declaredBy source t.children (field? "declarator" t.children)).name.bind fun _ =>
      field? "default_value" t.children
  else
    none

theorem inits_bind? (d : Declared) (init : Option Code) (span : Span) :
    Binding.inits (d.bind? init span).toList = (d.name.bind fun _ => init).toList := by
  cases hn : d.name <;> cases init <;> simp [Declared.bind?, Binding.inits, hn]

theorem inits_append (as bs : List Binding) :
    Binding.inits (as ++ bs) = Binding.inits as ++ Binding.inits bs := by
  simp [Binding.inits]

theorem inits_readParams (source : List Char) (cs : List ParseTree) :
    Binding.inits (readParams source cs) =
      (cs.filterMap (defaultValue source)).map (read source .initializer) := by
  induction cs with
  | nil => simp [readParams, Binding.inits]
  | cons c cs ih =>
    obtain ⟨i, ks⟩ := c
    rw [readParams]
    by_cases hc : parameterKinds.contains i.kind && isItem (.node i ks)
    · rw [if_pos hc, inits_append, ih, inits_bind?, readField_eq]
      have hd : defaultValue source (.node i ks) =
          (declaredBy source ks (field? "declarator" ks)).name.bind fun _ =>
            field? "default_value" ks := by
        rw [defaultValue]
        exact if_pos hc
      rw [List.filterMap_cons, hd]
      cases (declaredBy source ks (field? "declarator" ks)).name with
      | none => simp
      | some name => cases field? "default_value" ks <;> simp
    · have hd : defaultValue source (.node i ks) = none := by
        rw [defaultValue]
        exact if_neg hc
      rw [if_neg hc, ih, List.filterMap_cons, hd]

def signatureValues (source : List Char) (cs : List ParseTree) : List ParseTree :=
  (((field? "declarator" cs).bind fun d => field? "parameters" d.children).map
    fun list => list.children.filterMap (defaultValue source)).getD []

theorem inits_readParamsField (source : List Char) (cs : List ParseTree) :
    Binding.inits (readParamsField source cs) =
      (((field? "parameters" cs).map
        fun list => list.children.filterMap (defaultValue source)).getD []).map
          (read source .initializer) := by
  induction cs with
  | nil => simp [readParamsField, field?, Binding.inits]
  | cons c cs ih =>
    obtain ⟨i, ks⟩ := c
    rw [readParamsField]
    by_cases hc : fills "parameters" (.node i ks)
    · simp [field?, hc, inits_readParams]
    · simp [field?, hc] at ih ⊢
      exact ih

theorem inits_readSignature (source : List Char) (cs : List ParseTree) :
    Binding.inits (readSignature source cs) =
      (signatureValues source cs).map (read source .initializer) := by
  induction cs with
  | nil => simp [readSignature, signatureValues, field?, Binding.inits]
  | cons c cs ih =>
    obtain ⟨i, ks⟩ := c
    rw [readSignature]
    by_cases hc : fills "declarator" (.node i ks)
    · simp [signatureValues, field?, hc, inits_readParamsField]
    · simp [signatureValues, field?, hc] at ih ⊢
      exact ih

theorem readInnerValue_eq (source : List Char) (own : Option Code) (cs : List ParseTree) :
    readInnerValue source own cs =
      ((field? "declarator" cs).map (readValue source own)).getD own := by
  induction cs with
  | nil => simp [readInnerValue, field?]
  | cons c cs ih =>
    rw [readInnerValue, ih]
    by_cases hc : fills "declarator" c <;> simp [field?, hc]

theorem readFirstValue_eq (source : List Char) (own : Option Code) (cs : List ParseTree) :
    readFirstValue source own cs = ((cs.find? isItem).map (readValue source own)).getD own := by
  induction cs with
  | nil => simp [readFirstValue]
  | cons c cs ih =>
    rw [readFirstValue, ih]
    by_cases hc : isItem c <;> simp [hc]

/-- A declarator gives the value it was handed, none, or one that is read from a
part of it. -/
theorem readValue_cases (source : List Char) (own : Option Code) (t : ParseTree) :
    readValue source own t = own ∨ readValue source own t = none ∨
      ∃ v ∈ descendants t, readValue source own t = some (read source .initializer v) := by
  induction t using Tree.inductionOn generalizing own with
  | h i cs ih =>
    have inner : ∀ (o : Option Code) (c : Option ParseTree), (∀ d, c = some d → d ∈ cs) →
        (c.map (readValue source o)).getD o = o ∨ (c.map (readValue source o)).getD o = none ∨
          ∃ v ∈ descendants (.node i cs),
            (c.map (readValue source o)).getD o = some (read source .initializer v) := by
      intro o c hc
      cases c with
      | none => exact Or.inl rfl
      | some d =>
        have hd := hc d rfl
        rcases ih d hd o with h | h | ⟨v, hv, h⟩
        · exact Or.inl h
        · exact Or.inr (Or.inl h)
        · exact Or.inr (Or.inr ⟨v, descendants_trans hv (child_mem_descendants hd), h⟩)
    have hfield : ∀ d, field? "declarator" cs = some d → d ∈ cs := by
      intro d hd
      exact List.mem_of_find?_eq_some hd
    have hfirst : ∀ d, cs.find? isItem = some d → d ∈ cs := by
      intro d hd
      exact List.mem_of_find?_eq_some hd
    rw [readValue]
    cases DeclaratorStep.ofKind i.kind with
    | initialized =>
      simp only [readInnerValue_eq, readField_eq]
      -- the declarator's own initializer takes the place of the value handed down
      rcases inner ((field? "value" cs).map (read source .initializer)) _ hfield with h | h | h
      · rw [h]
        cases hv : field? "value" cs with
        | none => exact Or.inr (Or.inl rfl)
        | some v =>
          have hmem : v ∈ cs := List.mem_of_find?_eq_some hv
          exact Or.inr (Or.inr ⟨v, child_mem_descendants hmem, rfl⟩)
      · exact Or.inr (Or.inl h)
      · exact Or.inr (Or.inr h)
    | pointer => simpa only [readInnerValue_eq] using inner own _ hfield
    | array => simpa only [readInnerValue_eq] using inner own _ hfield
    | reference => simpa only [readFirstValue_eq] using inner own _ hfirst
    | parenthesized => simpa only [readFirstValue_eq] using inner own _ hfirst
    | attributed => simpa only [readFirstValue_eq] using inner own _ hfirst
    | function => exact Or.inl rfl
    | name => exact Or.inl rfl

def declaratorValue (source : List Char) (specifier : TypeRef) (own : Option Code)
    (t : ParseTree) : Option Code :=
  if fills "declarator" t && !isFunctionDeclarator t then
    (declared source specifier t).name.bind fun _ => readValue source own t
  else
    none

theorem inits_readDeclarators (source : List Char) (specifier : TypeRef) (own : Option Code)
    (cs : List ParseTree) :
    Binding.inits (readDeclarators source specifier own cs) =
      cs.filterMap (declaratorValue source specifier own) := by
  induction cs with
  | nil => simp [readDeclarators, Binding.inits]
  | cons c cs ih =>
    rw [readDeclarators, List.filterMap_cons]
    by_cases hc : fills "declarator" c && !isFunctionDeclarator c
    · have hd : declaratorValue source specifier own c =
          (declared source specifier c).name.bind fun _ => readValue source own c := by
        rw [declaratorValue]
        exact if_pos hc
      simp only [if_pos hc, inits_append, ih, inits_bind?, hd]
      cases (declared source specifier c).name.bind fun _ => readValue source own c <;> rfl
    · have hd : declaratorValue source specifier own c = none := by
        rw [declaratorValue]
        exact if_neg hc
      simp only [if_neg hc, ih, hd]

end Encapsulate.Cpp.Code
