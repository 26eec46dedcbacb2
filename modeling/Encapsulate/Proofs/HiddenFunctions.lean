import Encapsulate.Proofs.Comments
import Encapsulate.Proofs.Numbering
import Encapsulate.Proofs.Declarations

/-!
Functions that a comment hides. A comment in front of the declarator behind a reference or an
attribute keeps a function from being read as one. Which trees hide a function is said for
each way on which a declarator is read: of a declaration, of a definition, of a member, and
through namespaces, records and what else holds declarations. A tree that hides none reads the
same without its comments; from any other fewer functions are read than without them, so a
file reads the same without its comments exactly if it hides no function.
-/

namespace Encapsulate.Cpp

open Encapsulate.Tree ParseTree

/-- Two readings of which the second has more functions if some are hidden from the first and
that are the same if none are. -/
structure Differs {α : Type} (weight : α → Nat) (hides : Prop) (x y : α) : Prop where
  same : ¬ hides → y = x
  more : hides → weight x < weight y

namespace Differs

variable {α β : Type} {weight : α → Nat} {p q : Prop} {x y x' y' : α}

theorem le (h : Differs weight p x y) : weight x ≤ weight y := by
  by_cases hp : p
  · exact Nat.le_of_lt (h.more hp)
  · exact Nat.le_of_eq (congrArg weight (h.same hp).symm)

theorem eq_iff (h : Differs weight p x y) : y = x ↔ ¬ p := by
  constructor
  · intro heq hp
    have hlt := h.more hp
    rw [heq] at hlt
    omega
  · exact h.same

theorem of_eq (hp : ¬ p) (h : y = x) : Differs weight p x y :=
  ⟨fun _ => h, fun h => absurd h hp⟩

theorem of_none (o : Option β) : Differs (·.toList.length) (o.isSome = true) none o := by
  cases o with
  | none => exact of_eq (by simp) rfl
  | some b => exact ⟨by simp, by simp⟩

theorem congr (h : Differs weight p x y) (hpq : p ↔ q) : Differs weight q x y :=
  ⟨fun hq => h.same fun hp => hq (hpq.mp hp), fun hq => h.more (hpq.mpr hq)⟩

theorem map {weight' : β → Nat} (h : Differs weight p x y) (f : α → β)
    (hf : ∀ a b, weight a < weight b → weight' (f a) < weight' (f b)) :
    Differs weight' p (f x) (f y) :=
  ⟨fun hp => by rw [h.same hp], fun hp => hf _ _ (h.more hp)⟩

theorem append [Append α] (hw : ∀ a b : α, weight (a ++ b) = weight a + weight b)
    (h : Differs weight p x y) (h' : Differs weight q x' y') :
    Differs weight (p ∨ q) (x ++ x') (y ++ y') := by
  constructor
  · intro hpq
    rw [h.same fun hp => hpq (Or.inl hp), h'.same fun hq => hpq (Or.inr hq)]
  · intro hpq
    have hle := h.le
    have hle' := h'.le
    rw [hw, hw]
    rcases hpq with hp | hq
    · have hlt := h.more hp
      omega
    · have hlt := h'.more hq
      omega

/-- What several trees contribute, one after the other. -/
theorem foldr [Append α] (hw : ∀ a b : α, weight (a ++ b) = weight a + weight b)
    {l : List ParseTree} {hides : ParseTree → Prop} {f g : ParseTree → α} (e : α)
    (h : ∀ c ∈ l, Differs weight (hides c) (f c) (g c)) :
    Differs weight (∃ c ∈ l, hides c) (l.foldr (fun c a => f c ++ a) e)
      (l.foldr (fun c a => g c ++ a) e) := by
  induction l with
  | nil => exact of_eq (by simp) rfl
  | cons c l ih =>
    have hrest := ih fun d hd => h d (List.mem_cons_of_mem _ hd)
    exact ((h c (List.mem_cons_self ..)).append hw hrest).congr (by simp)

end Differs

namespace Decl

def functionCount (ds : List Decl) : Nat :=
  (functionsOf ds).length + ((recordsOf ds).flatMap (·.methods)).length

theorem functionCount_append (as bs : List Decl) :
    functionCount (as ++ bs) = functionCount as + functionCount bs := by
  simp only [functionCount, functionsOf_append, recordsOf_append, List.flatMap_append,
    List.length_append]
  omega

theorem functionCount_nest (segments : List String) (ds : List Decl) :
    functionCount (nest segments ds) = functionCount ds := by
  rw [functionCount, functionsOf_nest, recordsOf_nest, functionCount]

theorem functionCount_function (f : Option Function) :
    functionCount (f.map Decl.function).toList = f.toList.length := by
  cases f <;> simp [functionCount, functionsOf, functions, recordsOf, records]

def memberCount (ms : Members) : Nat :=
  ms.methods.length + functionCount ms.decls

theorem memberCount_append (a b : Members) :
    memberCount (a ++ b) = memberCount a + memberCount b := by
  simp only [memberCount, methods_append, decls_append, List.length_append, functionCount_append]
  omega

def recordCount (r : Option (Record × List Decl)) : Nat :=
  functionCount (r.map ofRecord).toList

theorem flatMap_eq_foldr (l : List ParseTree) (f : ParseTree → List Decl) :
    l.flatMap f = l.foldr (fun c a => f c ++ a) [] := by
  induction l with
  | nil => rfl
  | cons c l ih => rw [List.flatMap_cons, ih, List.foldr_cons]

theorem concat_eq_foldr (l : List ParseTree) (f : ParseTree → Members) :
    Members.concat (l.map f) = l.foldr (fun c a => f c ++ a) {} :=
  List.foldr_map ..

def startsWithComment (t : ParseTree) : Bool :=
  (t.children.find? (·.info.isNamed)).any isComment

/-- The function declarator `s` stands behind the pointers, references and attributes of a
declarator; the flag says whether a comment comes first in one of the references or
attributes. -/
inductive FunctionBehind : Bool → ParseTree → ParseTree → Prop
  | function {t inner} : DeclaratorStep.ofKind t.kind = .function →
      field? "declarator" t.children = some inner →
      inner.kind ≠ "parenthesized_declarator" → FunctionBehind false t t
  | pointer {t c s b} : DeclaratorStep.ofKind t.kind = .pointer →
      field? "declarator" t.children = some c → FunctionBehind b c s → FunctionBehind b t s
  | reference {t c s b} : DeclaratorStep.ofKind t.kind = .reference ∨
      DeclaratorStep.ofKind t.kind = .attributed → t.children.find? isItem = some c →
      FunctionBehind b c s → FunctionBehind (b || startsWithComment t) t s

/-- A comment keeps the declarator from being read as the function that it declares. -/
def HidesFunction (source : List Char) (d : ParseTree) : Prop :=
  ∃ s, FunctionBehind true d s ∧ (declaredName source s).isSome = true

def HidesMethod (source : List Char) (d : ParseTree) : Prop :=
  (∃ s, FunctionBehind true d s) ∧ (declaredName source d).isSome = true

def DefinesRecord (t c : ParseTree) : Prop :=
  field? "type" t.children = some c ∧ isRecordSpecifier c = true

def recordName (source : List Char) (hint : Option String) (t : ParseTree) : Option String :=
  ((field? "name" t.children).map fun name => lookupName (text source name)).orElse fun _ => hint

/-- What a tree is read as. -/
inductive Place where
  | file
  | record (hint : Option String)
  | member

/-- Some function is hidden from the reading of a tree. -/
inductive Hides (source : List Char) : Place → ParseTree → Prop
  | declarator {t d} : DeclConstruct.ofKind t.kind = .declaration →
      d ∈ fieldAll "declarator" t.children → HidesFunction source d → Hides source .file t
  | definition {t d} : DeclConstruct.ofKind t.kind = .function →
      field? "declarator" t.children = some d → HidesFunction source d → Hides source .file t
  | space {t body c} : DeclConstruct.ofKind t.kind = .space →
      field? "body" t.children = some body → c ∈ items body.children → Hides source .file c →
      Hides source .file t
  | container {t c} : DeclConstruct.ofKind t.kind = .container → c ∈ items t.children →
      Hides source .file c → Hides source .file t
  | specifier {t} : DeclConstruct.ofKind t.kind = .record → Hides source (.record none) t →
      Hides source .file t
  | declaredType {t c} : DeclConstruct.ofKind t.kind = .declaration → DefinesRecord t c →
      Hides source (.record none) c → Hides source .file t
  | typedef {t c} : DeclConstruct.ofKind t.kind = .typedef → DefinesRecord t c →
      Hides source (.record ((field? "declarator" t.children).bind (declaredName source))) c →
      Hides source .file t
  | body {t body c hint} : field? "body" t.children = some body →
      (recordName source hint t).isSome = true → c ∈ items body.children →
      Hides source .member c → Hides source (.record hint) t
  | method {t d} : MemberConstruct.ofKind t.kind = .field ∨
      MemberConstruct.ofKind t.kind = .declaration →
      d ∈ fieldAll "declarator" t.children → HidesMethod source d → Hides source .member t
  | inline {t d} : MemberConstruct.ofKind t.kind = .function →
      field? "declarator" t.children = some d → HidesFunction source d → Hides source .member t
  | nested {t c} : MemberConstruct.ofKind t.kind = .field → DefinesRecord t c →
      Hides source (.record none) c → Hides source .member t
  | memberContainer {t c} : MemberConstruct.ofKind t.kind = .container →
      c ∈ items t.children → Hides source .member c → Hides source .member t

section Hiding

variable {source : List Char} {t : ParseTree}

theorem hides_file_iff : Hides source .file t ↔
    match DeclConstruct.ofKind t.kind with
    | .space => ∃ body, field? "body" t.children = some body ∧
        ∃ c ∈ items body.children, Hides source .file c
    | .record => Hides source (.record none) t
    | .function => ∃ d, field? "declarator" t.children = some d ∧ HidesFunction source d
    | .declaration => (∃ c, DefinesRecord t c ∧ Hides source (.record none) c) ∨
        ∃ d ∈ fieldAll "declarator" t.children, HidesFunction source d
    | .typedef => ∃ c, DefinesRecord t c ∧
        Hides source (.record ((field? "declarator" t.children).bind (declaredName source))) c
    | .container => ∃ c ∈ items t.children, Hides source .file c
    | .include | .other => False := by
  constructor
  · intro h
    cases h with
    | declarator hk hd h => rw [hk]; exact Or.inr ⟨_, hd, h⟩
    | definition hk hd h => rw [hk]; exact ⟨_, hd, h⟩
    | space hk hbody hc h => rw [hk]; exact ⟨_, hbody, _, hc, h⟩
    | container hk hc h => rw [hk]; exact ⟨_, hc, h⟩
    | specifier hk h => rw [hk]; exact h
    | declaredType hk hc h => rw [hk]; exact Or.inl ⟨_, hc, h⟩
    | typedef hk hc h => rw [hk]; exact ⟨_, hc, h⟩
  · intro h
    cases hk : DeclConstruct.ofKind t.kind with
    | space =>
      rw [hk] at h
      obtain ⟨body, hbody, c, hc, h⟩ := h
      exact .space hk hbody hc h
    | record =>
      rw [hk] at h
      exact .specifier hk h
    | function =>
      rw [hk] at h
      obtain ⟨d, hd, h⟩ := h
      exact .definition hk hd h
    | declaration =>
      rw [hk] at h
      rcases h with ⟨c, hc, h⟩ | ⟨d, hd, h⟩
      · exact .declaredType hk hc h
      · exact .declarator hk hd h
    | typedef =>
      rw [hk] at h
      obtain ⟨c, hc, h⟩ := h
      exact .typedef hk hc h
    | container =>
      rw [hk] at h
      obtain ⟨c, hc, h⟩ := h
      exact .container hk hc h
    | _ =>
      rw [hk] at h
      exact h.elim

theorem hides_record_iff {hint : Option String} : Hides source (.record hint) t ↔
    ∃ body, field? "body" t.children = some body ∧ (recordName source hint t).isSome = true ∧
      ∃ c ∈ items body.children, Hides source .member c := by
  constructor
  · intro h
    cases h with
    | body hbody hname hc h => exact ⟨_, hbody, hname, _, hc, h⟩
  · rintro ⟨body, hbody, hname, c, hc, h⟩
    exact .body hbody hname hc h

theorem hides_member_iff : Hides source .member t ↔
    match MemberConstruct.ofKind t.kind with
    | .field => (∃ c, DefinesRecord t c ∧ Hides source (.record none) c) ∨
        ∃ d ∈ fieldAll "declarator" t.children, HidesMethod source d
    | .function => ∃ d, field? "declarator" t.children = some d ∧ HidesFunction source d
    | .declaration => ∃ d ∈ fieldAll "declarator" t.children, HidesMethod source d
    | .container => ∃ c ∈ items t.children, Hides source .member c
    | .typedef | .alias | .other => False := by
  constructor
  · intro h
    cases h with
    | method hk hd h =>
      rcases hk with hk | hk
      · rw [hk]; exact Or.inr ⟨_, hd, h⟩
      · rw [hk]; exact ⟨_, hd, h⟩
    | inline hk hd h => rw [hk]; exact ⟨_, hd, h⟩
    | nested hk hc h => rw [hk]; exact Or.inl ⟨_, hc, h⟩
    | memberContainer hk hc h => rw [hk]; exact ⟨_, hc, h⟩
  · intro h
    cases hk : MemberConstruct.ofKind t.kind with
    | field =>
      rw [hk] at h
      rcases h with ⟨c, hc, h⟩ | ⟨d, hd, h⟩
      · exact .nested hk hc h
      · exact .method (Or.inl hk) hd h
    | function =>
      rw [hk] at h
      obtain ⟨d, hd, h⟩ := h
      exact .inline hk hd h
    | declaration =>
      rw [hk] at h
      obtain ⟨d, hd, h⟩ := h
      exact .method (Or.inr hk) hd h
    | container =>
      rw [hk] at h
      obtain ⟨c, hc, h⟩ := h
      exact .memberContainer hk hc h
    | _ =>
      rw [hk] at h
      exact h.elim

end Hiding

section Declarators

variable {source : List Char} {scope : List String} {t d s : ParseTree}

theorem readAlike (source : List Char) (h : Everywhere BareComment t) :
    Code.ReadAlike source t :=
  fun _ hv role => Code.read_withoutComments (h.of_mem hv) source role

theorem readField_withoutComments (h : Everywhere BareComment t) (role : Role) (field : String) :
    Code.readField source role field (dropComments t.children) =
      Code.readField source role field t.children :=
  Code.readField_dropComments (fun _ hc => h.child hc) (fun _ hc => readAlike source (h.child hc))
    role field

theorem declaredBy_some_withoutComments (ht : Everywhere BareComment t)
    (hd : Everywhere BareComment d) :
    declaredBy source (dropComments t.children) (some (withoutComments d)) =
      declaredBy source t.children (some d) := by
  refine declaredBy_withoutComments (o := some d) source (fun _ hc => ht.child hc) ?_
  intro e he
  rwa [← Option.some.inj he]

theorem resultType_withoutComments (ht : Everywhere BareComment t)
    (hd : Everywhere BareComment d) :
    resultType source (dropComments t.children) (withoutComments d) =
      resultType source t.children d := by
  unfold resultType
  rw [declaredBy_some_withoutComments ht hd]

theorem readPrototype_withoutComments (ht : Everywhere BareComment t)
    (hd : Everywhere BareComment d) (hs : Everywhere BareComment s) :
    readPrototype source scope (withoutComments t) (withoutComments d) (withoutComments s) =
      readPrototype source scope t d s := by
  have hparams := Code.readParamsField_dropComments (fun _ hc => hs.child hc)
    (fun _ hc => readAlike source (hs.child hc))
  unfold readPrototype
  simp only [declaredName_withoutComments source hs, children_withoutComments, hparams,
    resultType_withoutComments ht hd, span_withoutComments]

theorem readPrototype_isSome : (readPrototype source scope t d s).isSome =
    (declaredName source s).isSome := by
  unfold readPrototype
  cases declaredName source s <;> rfl

/-- The function behind a comment gives a variable no name. -/
theorem name_of_functionDeclarator_withoutComments (hd : Everywhere BareComment d)
    (h : functionDeclarator (withoutComments d) = some s) (source : List Char)
    (cs : List ParseTree) : (declaredBy source cs (some d)).name = none := by
  rw [declaredBy, ← declared_withoutComments source _ hd]
  exact name_of_functionDeclarator h source _

theorem FunctionBehind.bare {b : Bool} (h : FunctionBehind b d s)
    (hd : Everywhere BareComment d) : Everywhere BareComment s := by
  induction h with
  | function => exact hd
  | pointer _ hc _ ih => exact ih (hd.child (field?_mem hc))
  | reference _ hc _ ih => exact ih (hd.child (List.mem_of_find?_eq_some hc))

/-- Without comments the function declarator is found. -/
theorem FunctionBehind.found_withoutComments {b : Bool} (h : FunctionBehind b d s)
    (hd : Everywhere BareComment d) :
    functionDeclarator (withoutComments d) = some (withoutComments s) := by
  induction h with
  | function hstep hinner hkind =>
    rw [functionDeclarator_of_function (by simpa using hstep), children_withoutComments,
      field?_dropComments (bare_children hd), hinner]
    simp [hkind]
  | pointer hstep hc _ ih =>
    rw [functionDeclarator_of_pointer (by simpa using hstep), children_withoutComments,
      field?_dropComments (bare_children hd), hc]
    exact ih (hd.child (field?_mem hc))
  | reference hstep hc _ ih =>
    rw [functionDeclarator_of_reference (by simpa using hstep), children_withoutComments,
      find?_isNamed_dropComments, hc]
    exact ih (hd.child (List.mem_of_find?_eq_some hc))

/-- With comments it is found unless one of them stands in the way. -/
theorem FunctionBehind.found {b : Bool} (h : FunctionBehind b d s) :
    functionDeclarator d = if b then none else some s := by
  induction h with
  | function hstep hinner hkind =>
    rw [functionDeclarator_of_function hstep, hinner]
    simp [hkind]
  | pointer hstep hc _ ih =>
    rw [functionDeclarator_of_pointer hstep, hc]
    exact ih
  | @reference t c s b hstep hc _ ih =>
    rw [functionDeclarator_of_reference hstep]
    cases hfirst : t.children.find? (·.info.isNamed) with
    | none =>
      -- an item is named
      have hitem : isItem c = true := List.find?_some hc
      have hnamed : c.info.isNamed = true := (Bool.and_eq_true_iff.mp hitem).1
      have hc := List.find?_eq_none.mp hfirst c (List.mem_of_find?_eq_some hc)
      exact absurd hnamed hc
    | some e =>
      by_cases hcomment : isComment e = true
      · simp [startsWithComment, hfirst, hcomment, functionDeclarator_of_isComment hcomment]
      · have hitem := find?_isItem_of_isNamed hfirst (Bool.eq_false_iff.mpr hcomment)
        obtain rfl : e = c := Option.some.inj (hitem.symm.trans hc)
        simp [startsWithComment, hfirst, hcomment, ih]

theorem functionBehind_of_found (h : functionDeclarator d = some s) : FunctionBehind false d s := by
  induction d using Tree.inductionOn with
  | h i cs ih =>
    rcases step_of_functionDeclarator h with hstep | hstep | hstep
    · rw [functionDeclarator_of_function hstep] at h
      obtain ⟨inner, hinner, hs⟩ := Option.bind_eq_some_iff.mp h
      split at hs
      · exact absurd hs (by simp)
      · rename_i hkind
        obtain rfl := Option.some.inj hs
        exact .function hstep hinner (by simpa using hkind)
    · rw [functionDeclarator_of_pointer hstep] at h
      obtain ⟨c, hc, hs⟩ := Option.bind_eq_some_iff.mp h
      exact .pointer hstep hc (ih c (field?_mem hc) hs)
    · rw [functionDeclarator_of_reference hstep] at h
      obtain ⟨c, hc, hs⟩ := Option.bind_eq_some_iff.mp h
      have hcomment := isComment_of_functionDeclarator hs
      have hflag : startsWithComment (.node i cs) = false := by
        rw [startsWithComment, hc]
        exact hcomment
      have hbehind := FunctionBehind.reference hstep (find?_isItem_of_isNamed hc hcomment)
        (ih c (List.mem_of_find?_eq_some hc) hs)
      rwa [hflag] at hbehind

theorem exists_functionBehind (hd : Everywhere BareComment d)
    (h : functionDeclarator (withoutComments d) = some s) :
    ∃ b r, FunctionBehind b d r := by
  induction d using Tree.inductionOn with
  | h i cs ih =>
    have hstep := step_of_functionDeclarator h
    rw [kind_withoutComments] at hstep
    rcases hstep with hstep | hstep | hstep
    · rw [functionDeclarator_of_function (by simpa using hstep), children_withoutComments,
        field?_dropComments (bare_children hd)] at h
      obtain ⟨inner, hinner, hs⟩ := Option.bind_eq_some_iff.mp h
      obtain ⟨r, hr, rfl⟩ := Option.map_eq_some_iff.mp hinner
      rw [kind_withoutComments] at hs
      split at hs
      · exact absurd hs (by simp)
      · rename_i hkind
        exact ⟨false, _, .function hstep hr (by simpa using hkind)⟩
    · rw [functionDeclarator_of_pointer (by simpa using hstep), children_withoutComments,
        field?_dropComments (bare_children hd)] at h
      obtain ⟨c', hc', hs⟩ := Option.bind_eq_some_iff.mp h
      obtain ⟨c, hc, rfl⟩ := Option.map_eq_some_iff.mp hc'
      obtain ⟨b, r, hbehind⟩ := ih c (field?_mem hc) (hd.child (field?_mem hc)) hs
      exact ⟨b, r, .pointer hstep hc hbehind⟩
    · rw [functionDeclarator_of_reference (by simpa using hstep), children_withoutComments,
        find?_isNamed_dropComments] at h
      obtain ⟨c', hc', hs⟩ := Option.bind_eq_some_iff.mp h
      obtain ⟨c, hc, rfl⟩ := Option.map_eq_some_iff.mp hc'
      have hmem := List.mem_of_find?_eq_some hc
      obtain ⟨b, r, hbehind⟩ := ih c hmem (hd.child hmem) hs
      exact ⟨_, r, .reference hstep hc hbehind⟩

/-- A function declarator is found with and without comments, or only without, or not at all. -/
theorem functionDeclarator_cases (hd : Everywhere BareComment d) :
    (∃ s, Everywhere BareComment s ∧ functionDeclarator d = some s ∧
      functionDeclarator (withoutComments d) = some (withoutComments s)) ∨
    (functionDeclarator d = none ∧ functionDeclarator (withoutComments d) = none) ∨
    ∃ s, functionDeclarator d = none ∧ functionDeclarator (withoutComments d) = some s := by
  cases hs : functionDeclarator d with
  | some s =>
    have hbehind := functionBehind_of_found hs
    exact Or.inl ⟨s, hbehind.bare hd, rfl, hbehind.found_withoutComments hd⟩
  | none =>
    cases hs' : functionDeclarator (withoutComments d) with
    | none => exact Or.inr (Or.inl ⟨rfl, rfl⟩)
    | some s => exact Or.inr (Or.inr ⟨s, rfl, rfl⟩)

theorem hidesFunction_iff (hd : Everywhere BareComment d) :
    HidesFunction source d ↔ functionDeclarator d = none ∧
      ∃ s, functionDeclarator (withoutComments d) = some s ∧
        (declaredName source s).isSome = true := by
  constructor
  · rintro ⟨s, hbehind, hname⟩
    refine ⟨hbehind.found, withoutComments s, hbehind.found_withoutComments hd, ?_⟩
    rwa [declaredName_withoutComments source (hbehind.bare hd)]
  · rintro ⟨hnone, s, hs, hname⟩
    obtain ⟨b, r, hbehind⟩ := exists_functionBehind hd hs
    obtain rfl : withoutComments r = s :=
      Option.some.inj ((hbehind.found_withoutComments hd).symm.trans hs)
    rw [declaredName_withoutComments source (hbehind.bare hd)] at hname
    cases b with
    | false => exact absurd (hbehind.found.symm.trans hnone) (by simp)
    | true => exact ⟨r, hbehind, hname⟩

theorem hidesMethod_iff (hd : Everywhere BareComment d) :
    HidesMethod source d ↔ functionDeclarator d = none ∧
      isFunctionDeclarator (withoutComments d) = true ∧ (declaredName source d).isSome = true := by
  constructor
  · rintro ⟨⟨s, hbehind⟩, hname⟩
    refine ⟨hbehind.found, ?_, hname⟩
    simp [isFunctionDeclarator, hbehind.found_withoutComments hd]
  · rintro ⟨hnone, hsome, hname⟩
    obtain ⟨s, hs⟩ := Option.isSome_iff_exists.mp hsome
    obtain ⟨b, r, hbehind⟩ := exists_functionBehind hd hs
    cases b with
    | false => exact absurd (hbehind.found.symm.trans hnone) (by simp)
    | true => exact ⟨⟨r, hbehind⟩, hname⟩

theorem differs_readFunction (ht : Everywhere BareComment t) (owner : Option String) :
    Differs (·.toList.length)
      (∃ d, field? "declarator" t.children = some d ∧ HidesFunction source d)
      (readFunction source scope owner t)
      (readFunction source scope owner (withoutComments t)) := by
  unfold readFunction
  rw [children_withoutComments, field?_dropComments (bare_children ht),
    readField_withoutComments ht]
  cases hfield : field? "declarator" t.children with
  | none => exact .of_eq (by simp) rfl
  | some d =>
    have hd : Everywhere BareComment d := ht.child (field?_mem hfield)
    refine Differs.congr (p := HidesFunction source d) ?_ (by simp)
    rcases functionDeclarator_cases hd with ⟨s, hs, hfound, hfound'⟩ | ⟨hnone, hnone'⟩ |
      ⟨s, hnone, hfound'⟩
    · refine .of_eq (by simp [hidesFunction_iff hd, hfound]) ?_
      simp [hfound, hfound', readPrototype_withoutComments ht hd hs]
    · refine .of_eq ?_ (by simp [hnone, hnone'])
      simp [hidesFunction_iff hd, hnone']
    · simp only [hnone, hfound', Option.map_some, Option.bind_eq_bind, Option.bind_some,
        Option.bind_none]
      refine (Differs.of_none _).congr ?_
      simp [hidesFunction_iff hd, hnone, hfound', Option.isSome_bind, readPrototype_isSome]

theorem differs_readDeclarator (ht : Everywhere BareComment t) (hd : Everywhere BareComment d) :
    Differs functionCount (HidesFunction source d) (readDeclarator source scope t d)
      (readDeclarator source scope (withoutComments t) (withoutComments d)) := by
  unfold readDeclarator
  rcases functionDeclarator_cases hd with ⟨s, hs, hfound, hfound'⟩ | ⟨hnone, hnone'⟩ |
    ⟨s, hnone, hfound'⟩
  · refine .of_eq (by simp [hidesFunction_iff hd, hfound]) ?_
    simp only [hfound, hfound', readPrototype_withoutComments ht hd hs]
  · refine .of_eq (by simp [hidesFunction_iff hd, hnone']) ?_
    simp only [hnone, hnone', children_withoutComments, readField_withoutComments ht,
      declaredBy_some_withoutComments ht hd, span_withoutComments,
      Code.readValue_withoutComments hd (readAlike source hd)]
  · have hname := name_of_functionDeclarator_withoutComments hd hfound' source t.children
    have hfunction : Differs functionCount _ _ _ :=
      (Differs.of_none (readPrototype source scope (withoutComments t) (withoutComments d) s)).map
        (fun f => (f.map Decl.function).toList)
        fun f g hlt => by simpa only [functionCount_function] using hlt
    simp only [hnone, hfound', Declared.bind?, hname, Option.map_none] at hfunction ⊢
    refine hfunction.congr ?_
    simp [hidesFunction_iff hd, hnone, hfound', readPrototype_isSome]

theorem isUserProvided_withoutComments (source : List Char) (t : ParseTree) :
    isUserProvided source (withoutComments t) = isUserProvided source t := by
  have hclause : (dropComments t.children).any (fun (c : ParseTree) =>
      c.kind == "default_method_clause" || c.kind == "delete_method_clause") =
      t.children.any fun (c : ParseTree) =>
        c.kind == "default_method_clause" || c.kind == "delete_method_clause" := by
    refine any_dropComments (by simp) fun c _ hc => ?_
    simp only [isComment, beq_iff_eq] at hc
    simp [hc]
  unfold isUserProvided
  rw [children_withoutComments, hclause, span_withoutComments]

theorem methodOf_withoutComments (owner : Owner) (name : String) (result : Option TypeRef) :
    methodOf source owner (withoutComments t) name result =
      methodOf source owner t name result := by
  simp [methodOf, isUserProvided_withoutComments]

theorem differs_memberOfDeclaration (ht : Everywhere BareComment t)
    (hd : Everywhere BareComment d) (owner : Owner) :
    Differs memberCount (HidesMethod source d) (memberOfDeclaration source owner t d)
      (memberOfDeclaration source owner (withoutComments t) (withoutComments d)) := by
  unfold memberOfDeclaration
  simp only [declaredName_withoutComments source hd, methodOf_withoutComments,
    children_withoutComments, resultType_withoutComments ht hd]
  cases hname : declaredName source d with
  | none => exact .of_eq (by simp [HidesMethod, hname]) rfl
  | some name =>
    rcases functionDeclarator_cases hd with ⟨s, -, hfound, hfound'⟩ | ⟨hnone, hnone'⟩ |
      ⟨s, hnone, hfound'⟩
    · refine .of_eq (by simp [hidesMethod_iff hd, hfound]) ?_
      simp [isFunctionDeclarator, hfound, hfound']
    · refine .of_eq (by simp [hidesMethod_iff hd, isFunctionDeclarator, hnone']) ?_
      simp [isFunctionDeclarator, hnone, hnone']
    · have hhides : HidesMethod source d := by
        simp [hidesMethod_iff hd, isFunctionDeclarator, hnone, hfound', hname]
      refine ⟨fun h => absurd hhides h, fun _ => ?_⟩
      simp [isFunctionDeclarator, hnone, hfound', memberCount, functionCount, functionsOf,
        recordsOf]

def inlineMembers (source : List Char) (owner : Owner) (t : ParseTree) : Option Function → Members
  | none => {}
  | some f => { methods := [methodOf source owner t f.name f.resultType], decls := [.function f] }

theorem memberCount_inlineMembers (owner : Owner) (f : Option Function) :
    memberCount (inlineMembers source owner t f) = 2 * f.toList.length := by
  cases f <;> simp [inlineMembers, memberCount, functionCount, functionsOf, functions, recordsOf,
    records]

theorem differs_memberOfFunction (ht : Everywhere BareComment t) (owner : Owner) :
    Differs memberCount
      (∃ d, field? "declarator" t.children = some d ∧ HidesFunction source d)
      (memberOfFunction source owner t) (memberOfFunction source owner (withoutComments t)) := by
  unfold memberOfFunction
  simp only [methodOf_withoutComments]
  refine (differs_readFunction ht (some owner.qualifiedName)).map
    (inlineMembers source owner t) fun a b hlt => ?_
  rw [memberCount_inlineMembers, memberCount_inlineMembers]
  omega

theorem isStatic_withoutComments (source : List Char) (t : ParseTree) :
    ((dropComments t.children).any fun (c : ParseTree) =>
        c.kind == "storage_class_specifier" && text source c == "static") =
      t.children.any fun (c : ParseTree) =>
        c.kind == "storage_class_specifier" && text source c == "static" := by
  refine any_dropComments (by simp) fun c _ hc => ?_
  simp only [isComment, beq_iff_eq] at hc
  simp [hc]

theorem differs_memberOfField (ht : Everywhere BareComment t) (hd : Everywhere BareComment d)
    (owner : Owner) :
    Differs memberCount (HidesMethod source d) (memberOfField source owner t d)
      (memberOfField source owner (withoutComments t) (withoutComments d)) := by
  rcases functionDeclarator_cases hd with ⟨s, -, hfound, hfound'⟩ | ⟨hnone, hnone'⟩ |
    ⟨s, hnone, hfound'⟩
  · unfold memberOfField
    simpa [isFunctionDeclarator, hfound, hfound'] using differs_memberOfDeclaration ht hd owner
  · refine .of_eq (by simp [hidesMethod_iff hd, isFunctionDeclarator, hnone']) ?_
    unfold memberOfField
    simp only [isFunctionDeclarator, hnone, hnone', Option.isSome_none, Bool.false_eq_true,
      if_false, children_withoutComments, declaredBy_some_withoutComments ht hd,
      isStatic_withoutComments, span_withoutComments]
  · have hname := name_of_functionDeclarator_withoutComments hd hfound' source t.children
    have hread : memberOfField source owner t d = {} := by
      simp [memberOfField, isFunctionDeclarator, hnone, hname]
    have hread' : memberOfField source owner (withoutComments t) (withoutComments d) =
        memberOfDeclaration source owner (withoutComments t) (withoutComments d) := by
      simp [memberOfField, isFunctionDeclarator, hfound']
    rw [hread, hread', memberOfDeclaration, declaredName_withoutComments source hd]
    cases hdeclared : declaredName source d with
    | none => exact .of_eq (by simp [HidesMethod, hdeclared]) rfl
    | some name =>
      have hhides : HidesMethod source d := by
        simp [hidesMethod_iff hd, isFunctionDeclarator, hnone, hfound', hdeclared]
      refine ⟨fun h => absurd hhides h, fun _ => ?_⟩
      simp [isFunctionDeclarator, hfound', memberCount, functionCount, functionsOf, recordsOf]

end Declarators

theorem readMembers_eq (source : List Char) (owner : Owner) (cs : List ParseTree) :
    readMembers source owner cs =
      (items cs).foldr (fun c a => readMember source owner c ++ a) {} := by
  induction cs with
  | nil => simp [readMembers, items]
  | cons c cs ih =>
    rw [readMembers, ih]
    by_cases hc : isItem c <;> simp [items, hc]

def recordWith (source : List Char) (scope : List String) (t body : ParseTree) (name : String)
    (members : Members) : Record × List Decl :=
  ({ kind := .ofKind t.kind, name, qualifiedName := Name.qualify scope name, scope
     bases := baseNames source t.children
     fields := members.fields, methods := members.methods, otherMembers := members.others
     span := t.span, closeBrace := closeBrace body },
    members.decls)

theorem readRecord_eq (source : List Char) (scope : List String) (hint : Option String)
    (t : ParseTree) :
    readRecord source scope hint t = (field? "body" t.children).bind fun body =>
      (recordName source hint t).map fun name => recordWith source scope t body name
        (readMembers source ⟨name, Name.qualify scope name, scope ++ [name]⟩ body.children) := by
  obtain ⟨i, cs⟩ := t
  rw [readRecord, children_node]
  cases hbody : field? "body" cs with
  | none => rfl
  | some body =>
    simp only [readMembersBody_eq, hbody, Option.map_some, Option.getD_some]
    unfold recordName
    rw [children_node]
    cases ((field? "name" cs).map fun name => lookupName (text source name)).orElse
      fun _ => hint <;> rfl

theorem recordCount_recordWith (source : List Char) (scope : List String) (t body : ParseTree)
    (name : String) (members : Members) :
    recordCount (some (recordWith source scope t body name members)) = memberCount members := by
  simp [recordCount, recordWith, ofRecord, memberCount, functionCount, functionsOf, functions,
    recordsOf, records]
  omega

theorem baseNames_dropComments (source : List Char) (cs : List ParseTree) :
    baseNames source (dropComments cs) = baseNames source cs := by
  have hclause : (dropComments cs).find? (·.kind == "base_class_clause") =
      (cs.find? (·.kind == "base_class_clause")).map withoutComments := by
    refine find?_dropComments (by simp) fun c _ hc => ?_
    simp only [isComment, beq_iff_eq] at hc
    simp [hc]
  unfold baseNames
  rw [hclause]
  cases cs.find? (·.kind == "base_class_clause") with
  | none => rfl
  | some clause => simp [items_dropComments, List.filter_map, Function.comp_def]

theorem closeBrace_withoutComments (body : ParseTree) :
    closeBrace (withoutComments body) = closeBrace body := by
  have hbraces : (dropComments body.children).filter (·.info.kind == "\x7d") =
      (body.children.filter (·.info.kind == "\x7d")).map withoutComments := by
    refine filter_dropComments (by simp) fun c _ hc => ?_
    simp only [isComment, ParseTree.kind, beq_iff_eq] at hc
    simp [hc]
  unfold closeBrace
  rw [children_withoutComments, hbraces, List.getLast?_map, span_withoutComments]
  cases (body.children.filter (·.info.kind == "\x7d")).getLast? <;> simp

theorem recordWith_withoutComments (source : List Char) (scope : List String)
    (t body : ParseTree) (name : String) (members : Members) :
    recordWith source scope (withoutComments t) (withoutComments body) name members =
      recordWith source scope t body name members := by
  simp [recordWith, baseNames_dropComments, closeBrace_withoutComments]

theorem recordName_withoutComments {t : ParseTree} (ht : Everywhere BareComment t)
    (source : List Char) (hint : Option String) :
    recordName source hint (withoutComments t) = recordName source hint t := by
  unfold recordName
  rw [children_withoutComments, field?_dropComments (bare_children ht)]
  simp [Function.comp_def]

theorem enumName_dropComments {t : ParseTree} (ht : Everywhere BareComment t)
    (source : List Char) :
    enumName source (dropComments t.children) = enumName source t.children := by
  unfold enumName
  rw [field?_dropComments (bare_children ht)]
  cases htype : field? "type" t.children with
  | none => rfl
  | some type =>
    have hbare : Everywhere BareComment type := ht.child (field?_mem htype)
    simp only [Option.map_some, Option.bind_eq_bind, Option.bind_some,
      isRecordSpecifier_withoutComments hbare, kind_withoutComments, children_withoutComments,
      field?_dropComments (bare_children hbare)]
    cases field? "name" (children type) <;> simp

/-- What hides from one tree as each of the things it may be read as. -/
structure ReadsDiffer (source : List Char) (t : ParseTree) : Prop where
  decls : ∀ scope, Differs functionCount (Hides source .file t) (read source scope t)
    (read source scope (withoutComments t))
  record : ∀ scope hint, Differs recordCount (Hides source (.record hint) t)
    (readRecord source scope hint t) (readRecord source scope hint (withoutComments t))
  members : ∀ owner, Differs memberCount (Hides source .member t) (readMember source owner t)
    (readMember source owner (withoutComments t))

section Reading

variable {source : List Char} {t : ParseTree} {cs : List ParseTree}

theorem differs_readItems (h : ∀ c ∈ cs, ReadsDiffer source c) (scope : List String) :
    Differs functionCount (∃ c ∈ items cs, Hides source .file c) (readItems source scope cs)
      (readItems source scope (dropComments cs)) := by
  rw [readItems_eq, readItems_eq, items_dropComments, List.flatMap_map, flatMap_eq_foldr,
    flatMap_eq_foldr]
  exact .foldr functionCount_append [] fun c hc => (h c ((items_sublist cs).subset hc)).decls scope

theorem differs_readMembers (h : ∀ c ∈ cs, ReadsDiffer source c) (owner : Owner) :
    Differs memberCount (∃ c ∈ items cs, Hides source .member c) (readMembers source owner cs)
      (readMembers source owner (dropComments cs)) := by
  rw [readMembers_eq, readMembers_eq, items_dropComments, List.foldr_map]
  exact .foldr memberCount_append {} fun c hc => (h c ((items_sublist cs).subset hc)).members owner

theorem differs_readTypeRecord (ht : Everywhere BareComment t)
    (h : ∀ c ∈ t.children, ReadsDiffer source c) (scope : List String) (hint : Option String) :
    Differs recordCount (∃ c, DefinesRecord t c ∧ Hides source (.record hint) c)
      (readTypeRecord source scope hint t.children)
      (readTypeRecord source scope hint (dropComments t.children)) := by
  rw [readTypeRecord_eq, readTypeRecord_eq, field?_dropComments (bare_children ht)]
  cases htype : field? "type" t.children with
  | none => exact .of_eq (by simp [DefinesRecord, htype]) rfl
  | some c =>
    have hmem := field?_mem htype
    simp only [Option.map_some, Option.bind_some,
      isRecordSpecifier_withoutComments (ht.child hmem)]
    by_cases hspec : isRecordSpecifier c = true
    · simp only [hspec, if_true]
      exact ((h c hmem).record scope hint).congr (by simp [DefinesRecord, htype, hspec])
    · simp only [hspec]
      exact .of_eq (by simp [DefinesRecord, htype, hspec]) rfl

theorem differs_readRecord (ht : Everywhere BareComment t)
    (h : ∀ v ∈ descendants t, ReadsDiffer source v) (scope : List String)
    (hint : Option String) :
    Differs recordCount (Hides source (.record hint) t) (readRecord source scope hint t)
      (readRecord source scope hint (withoutComments t)) := by
  rw [readRecord_eq, readRecord_eq, children_withoutComments,
    field?_dropComments (bare_children ht), recordName_withoutComments ht]
  refine Differs.congr ?_ hides_record_iff.symm
  cases hbody : field? "body" t.children with
  | none => exact .of_eq (by simp) rfl
  | some body =>
    cases hname : recordName source hint t with
    | none => exact .of_eq (by simp) rfl
    | some name =>
      have hchild : ∀ c ∈ body.children, ReadsDiffer source c := fun c hc =>
        h c (descendants_trans (child_mem_descendants hc)
          (child_mem_descendants (field?_mem hbody)))
      simp only [Option.map_some, Option.bind_some, children_withoutComments,
        recordWith_withoutComments]
      refine ((differs_readMembers hchild _).map
        (fun ms => some (recordWith source scope t body name ms)) fun a b hlt => ?_).congr
          (by simp)
      rwa [recordCount_recordWith, recordCount_recordWith]

theorem differs_read (ht : Everywhere BareComment t)
    (h : ∀ v ∈ descendants t, ReadsDiffer source v) (scope : List String) :
    Differs functionCount (Hides source .file t) (read source scope t)
      (read source scope (withoutComments t)) := by
  have hchild : ∀ c ∈ t.children, ReadsDiffer source c := fun c hc => h c (child_mem_descendants hc)
  have htype : ∀ hint, Differs functionCount
      (∃ c, DefinesRecord t c ∧ Hides source (.record hint) c)
      ((readTypeRecord source scope hint t.children).map ofRecord).toList
      ((readTypeRecord source scope hint (dropComments t.children)).map ofRecord).toList :=
    fun hint => (differs_readTypeRecord ht hchild scope hint).map
      (fun r => (r.map ofRecord).toList) fun _ _ hlt => hlt
  have hrecord := (differs_readRecord ht h scope none).map
      (fun r => (r.map ofRecord).toList) fun _ _ hlt => hlt
  refine Differs.congr ?_ hides_file_iff.symm
  obtain ⟨i, cs⟩ := t
  have hbare : ∀ c ∈ cs, BareComment c := bare_children ht
  have hkind : ParseTree.kind (.node i cs) = i.kind := rfl
  rw [children_node] at hchild htype
  rw [withoutComments] at hrecord
  rw [withoutComments, read, read, hkind, children_node]
  cases hk : DeclConstruct.ofKind i.kind with
  | space =>
    have hsegments : ((field? "name" (dropComments cs)).map fun name =>
        namespaceSegments (Text.slice source name.span)) =
        (field? "name" cs).map fun name => namespaceSegments (Text.slice source name.span) := by
      rw [field?_dropComments hbare, map_withoutComments fun c _ => by rw [span_withoutComments]]
    simp only [hsegments]
    simp only [readBody_eq, field?_dropComments hbare]
    cases hbody : field? "body" cs with
    | none => exact .of_eq (by simp) rfl
    | some body =>
      have hitems : ∀ c ∈ body.children, ReadsDiffer source c := fun c hc =>
        h c (descendants_trans (child_mem_descendants hc)
          (child_mem_descendants (field?_mem hbody)))
      simp only [Option.map_some, Option.getD_some, children_withoutComments]
      refine ((differs_readItems hitems _).map (nest _) fun a b hlt => ?_).congr (by simp)
      rwa [functionCount_nest, functionCount_nest]
  | record => exact hrecord
  | function =>
    refine (differs_readFunction ht none).map (fun f => (f.map Decl.function).toList) ?_
    intro a b hlt
    rwa [functionCount_function, functionCount_function]
  | declaration =>
    refine (htype none).append functionCount_append ?_
    rw [fieldAll_dropComments hbare, List.flatMap_map, flatMap_eq_foldr, flatMap_eq_foldr]
    exact .foldr functionCount_append [] fun d hd =>
      differs_readDeclarator ht (ht.child (List.mem_of_mem_filter hd))
  | typedef =>
    have hname : (field? "declarator" (dropComments cs)).bind (declaredName source) =
        (field? "declarator" cs).bind (declaredName source) := by
      rw [field?_dropComments hbare]
      exact bind_withoutComments fun d hd =>
        declaredName_withoutComments source (ht.child (field?_mem hd))
    simp only [hname]
    exact htype _
  | container => exact differs_readItems hchild scope
  | _ => exact .of_eq (by simp) rfl

def nestedMembers (source : List Char) (cs : List ParseTree) :
    Option (Record × List Decl) → Members
  | some (r, ds) => { others := [r.name], decls := [.record r ds] }
  | none => { others := (enumName source cs).toList }

theorem memberCount_nestedMembers (source : List Char) (cs : List ParseTree)
    (r : Option (Record × List Decl)) :
    memberCount (nestedMembers source cs r) = recordCount r := by
  cases r <;> simp [nestedMembers, memberCount, recordCount, ofRecord, functionCount,
    functionsOf, recordsOf]

theorem differs_readMember (ht : Everywhere BareComment t)
    (h : ∀ v ∈ descendants t, ReadsDiffer source v) (owner : Owner) :
    Differs memberCount (Hides source .member t) (readMember source owner t)
      (readMember source owner (withoutComments t)) := by
  have hchild : ∀ c ∈ t.children, ReadsDiffer source c := fun c hc => h c (child_mem_descendants hc)
  have htype := differs_readTypeRecord ht hchild owner.innerScope none
  have henum := enumName_dropComments ht source
  refine Differs.congr ?_ hides_member_iff.symm
  obtain ⟨i, cs⟩ := t
  have hbare : ∀ c ∈ cs, BareComment c := bare_children ht
  have hkind : ParseTree.kind (.node i cs) = i.kind := rfl
  have hdeclarators : ∀ {f : ParseTree → ParseTree → Members},
      (∀ d, Everywhere BareComment d → Differs memberCount (HidesMethod source d)
        (f (.node i cs) d) (f (withoutComments (.node i cs)) (withoutComments d))) →
      Differs memberCount (∃ d ∈ fieldAll "declarator" cs, HidesMethod source d)
        (Members.concat ((fieldAll "declarator" cs).map (f (.node i cs))))
        (Members.concat ((fieldAll "declarator" (dropComments cs)).map
          (f (withoutComments (.node i cs))))) := by
    intro f hf
    rw [fieldAll_dropComments hbare, List.map_map, concat_eq_foldr, concat_eq_foldr]
    exact .foldr memberCount_append {} fun d hd => hf d (ht.child (List.mem_of_mem_filter hd))
  rw [children_node] at hchild htype henum
  rw [withoutComments] at hdeclarators ⊢
  rw [readMember, readMember, hkind, children_node]
  cases hk : MemberConstruct.ofKind i.kind with
  | field =>
    simp only [henum]
    refine Differs.append memberCount_append ?_
      (hdeclarators fun d hd => differs_memberOfField ht hd owner)
    refine htype.map (nestedMembers source cs) fun a b hlt => ?_
    rwa [memberCount_nestedMembers, memberCount_nestedMembers]
  | function => exact differs_memberOfFunction ht owner
  | declaration => exact hdeclarators fun d hd => differs_memberOfDeclaration ht hd owner
  | container => exact differs_readMembers hchild owner
  | typedef =>
    refine .of_eq (by simp) ?_
    simp only [fieldAll_dropComments hbare, List.filterMap_map]
    refine congrArg (fun names => ({ others := names } : Members)) (List.filterMap_congr ?_)
    intro d hd
    exact declaredName_withoutComments source (ht.child (List.mem_of_mem_filter hd))
  | _ =>
    refine .of_eq (by simp) ?_
    simp [field?_dropComments hbare, Function.comp_def]

/-- Every tree reads the same without its comments, or hides a function. -/
theorem readsDiffer (ht : Everywhere BareComment t) (source : List Char) :
    ReadsDiffer source t := by
  induction t using induct_descendants with
  | h t ih =>
    have hbelow : ∀ v ∈ descendants t, ReadsDiffer source v := fun v hv =>
      ih v hv (ht.of_mem_descendants hv)
    exact ⟨differs_read ht hbelow, differs_readRecord ht hbelow, differs_readMember ht hbelow⟩

end Reading

end Decl

section Includes

variable {source : List Char} {t : ParseTree} {cs : List ParseTree}

theorem includesOfItems_eq (source : List Char) (cs : List ParseTree) :
    includesOfItems source cs = (items cs).flatMap (includesOf source) := by
  induction cs with
  | nil => simp [includesOfItems, items]
  | cons c cs ih =>
    rw [includesOfItems, ih]
    by_cases hc : isItem c <;> simp [items, hc]

theorem includesOfBody_eq (source : List Char) (cs : List ParseTree) :
    includesOfBody source cs =
      ((field? "body" cs).map fun body => includesOfItems source body.children).getD [] := by
  induction cs with
  | nil => simp [includesOfBody, field?]
  | cons c cs ih =>
    obtain ⟨i, ks⟩ := c
    rw [includesOfBody, ih]
    by_cases hc : fills "body" (.node i ks) <;> simp [field?, hc]

theorem includesOfItems_dropComments
    (h : ∀ c ∈ cs, includesOf source (withoutComments c) = includesOf source c) :
    includesOfItems source (dropComments cs) = includesOfItems source cs := by
  rw [includesOfItems_eq, includesOfItems_eq, items_dropComments, List.flatMap_map]
  exact List.flatMap_congr fun c hc => h c ((items_sublist cs).subset hc)

theorem includesOf_withoutComments (ht : Everywhere BareComment t) (source : List Char) :
    includesOf source (withoutComments t) = includesOf source t := by
  induction t using induct_descendants with
  | h t ih =>
    have hbelow : ∀ v ∈ descendants t, includesOf source (withoutComments v) =
        includesOf source v := fun v hv => ih v hv (ht.of_mem_descendants hv)
    obtain ⟨i, cs⟩ := t
    have hbare : ∀ c ∈ cs, BareComment c := bare_children ht
    rw [withoutComments, includesOf, includesOf]
    cases DeclConstruct.ofKind i.kind with
    | space =>
      simp only [includesOfBody_eq, field?_dropComments hbare]
      cases hbody : field? "body" cs with
      | none => rfl
      | some body =>
        simp only [Option.map_some, Option.getD_some, children_withoutComments]
        exact includesOfItems_dropComments fun c hc => hbelow c
          (descendants_trans (child_mem_descendants hc) (child_mem_descendants (field?_mem hbody)))
    | container =>
      exact includesOfItems_dropComments fun c hc => hbelow c (child_mem_descendants hc)
    | record | function | declaration | typedef | other => rfl
    | _ =>
      simp only [field?_dropComments hbare]
      cases field? "path" cs <;> simp

end Includes

namespace SourceFile

/-- The includes of a file are the same without its comments. The file is the same exactly if
no function is hidden by a comment. -/
theorem ofParsed_withoutComments_iff (path : String) (source : List Char) {tree : ParseTree}
    (hasErrors : Bool) (hbare : Everywhere BareComment tree) :
    (ofParsed path source ⟨withoutComments tree, hasErrors⟩).includes =
        (ofParsed path source ⟨tree, hasErrors⟩).includes ∧
      (ofParsed path source ⟨withoutComments tree, hasErrors⟩ =
          ofParsed path source ⟨tree, hasErrors⟩ ↔
        ∀ c ∈ items tree.children, ¬ Decl.Hides source .file c) := by
  have hincludes : includesOfItems source (dropComments tree.children) =
      includesOfItems source tree.children :=
    includesOfItems_dropComments fun c hc => includesOf_withoutComments (hbare.child hc) source
  have hdecls := Decl.differs_readItems (fun c hc => Decl.readsDiffer (hbare.child hc) source) []
  unfold ofParsed
  simp [hincludes, hdecls.eq_iff]

/-- A record with a member function that returns a reference; the comment stands in front of
the reference. -/
def commentText : List Char :=
  "struct R \x7b int /* c */&f(); \x7d;\n".toList

def commentTree : ParseTree :=
  named "translation_unit" 0 31
    [named "struct_specifier" 0 29
       [filling "name" "type_identifier" 7 8 [],
        filling "body" "field_declaration_list" 9 29
          [named "field_declaration" 11 27
             [filling "type" "primitive_type" 11 14 [],
              named "comment" 15 22 [],
              filling "declarator" "reference_declarator" 22 26
                [named "function_declarator" 23 26
                   [filling "declarator" "field_identifier" 23 24 [],
                    filling "parameters" "parameter_list" 24 26 []]]],
           mark none "\x7d" 28 29]]]

/-- Read with its comment or without it, the record is the same. -/
theorem ofParsed_commentTree :
    Everywhere BareComment commentTree ∧
      ofParsed "r.h" commentText ⟨withoutComments commentTree, false⟩ =
        ofParsed "r.h" commentText ⟨commentTree, false⟩ ∧
      ∀ c ∈ items commentTree.children, ¬ Decl.Hides commentText .file c := by
  have hbare : Everywhere BareComment commentTree := by decide
  have hsame : ofParsed "r.h" commentText ⟨withoutComments commentTree, false⟩ =
      ofParsed "r.h" commentText ⟨commentTree, false⟩ := rfl
  exact ⟨hbare, hsame, (ofParsed_withoutComments_iff "r.h" commentText false hbare).2.mp hsame⟩

def hiddenText : List Char :=
  "struct R \x7b int &/* c */f(); \x7d;\n".toList

def hiddenTree : ParseTree :=
  named "translation_unit" 0 31
    [named "struct_specifier" 0 29
       [filling "name" "type_identifier" 7 8 [],
        filling "body" "field_declaration_list" 9 29
          [named "field_declaration" 11 27
             [filling "type" "primitive_type" 11 14 [],
              filling "declarator" "reference_declarator" 15 26
                [named "comment" 16 23 [],
                 named "function_declarator" 23 26
                   [filling "declarator" "field_identifier" 23 24 [],
                    filling "parameters" "parameter_list" 24 26 []]]],
           mark none "\x7d" 28 29]]]

theorem methods_hiddenTree :
    (ofParsed "r.h" hiddenText ⟨hiddenTree, false⟩).records.map (·.methods.map (·.name)) = [[]] ∧
      (ofParsed "r.h" hiddenText ⟨withoutComments hiddenTree, false⟩).records.map
        (·.methods.map (·.name)) = [["f"]] := by
  decide

/-- The member function is only read without the comment. -/
theorem comment_hides_method :
    Everywhere BareComment hiddenTree ∧
      ofParsed "r.h" hiddenText ⟨withoutComments hiddenTree, false⟩ ≠
        ofParsed "r.h" hiddenText ⟨hiddenTree, false⟩ := by
  refine ⟨by decide, fun heq => ?_⟩
  obtain ⟨hwith, hwithout⟩ := methods_hiddenTree
  rw [heq, hwith] at hwithout
  exact absurd hwithout (by decide)

end SourceFile

end Encapsulate.Cpp
