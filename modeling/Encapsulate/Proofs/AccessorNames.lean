import Encapsulate.Accessors.Member
import Encapsulate.Proofs.Outline
import Mathlib.Data.List.Forall2

/-!
The names of inserted accessors. An accessor is left out where the record already has a
member of its name, so no name of an earlier member is taken again. The accessors of
different targets of one record are not compared with each other: they have the same names
exactly when the fields' names differ in the case of their first letter at most.
-/

namespace Encapsulate

namespace Cpp.Name

theorem getter_eq_iff {a b : String} :
    getter a = getter b ↔ Text.capitalize a.toList = Text.capitalize b.toList := by
  simp [getter, String.ofList_inj]

theorem setter_eq_iff {a b : String} :
    setter a = setter b ↔ Text.capitalize a.toList = Text.capitalize b.toList := by
  simp [setter, String.ofList_inj]

theorem getter_ne_setter (a b : String) : getter a ≠ setter b := by
  intro h
  have hchars := congrArg String.toList h
  simp [getter, setter] at hchars

end Cpp.Name

namespace Accessors

open Cpp ParseTree

namespace AccessorSpec

def names (spec : AccessorSpec) : List String :=
  (if spec.hasGetters then [spec.getter, spec.getter] else [])
    ++ (if spec.hasSetter then [spec.setter] else [])

/-- Whether a text is that of a function of the given name with one of the result types of
accessors. -/
def Defines (spec : AccessorSpec) (text name : String) : Prop :=
  ∃ result ∈ [referenceTo spec.constType, referenceTo spec.valueType, "void "],
    ∃ rest, text = result ++ name ++ rest ∧ rest.toList.head? = some '('

theorem forall₂_defines (spec : AccessorSpec) :
    List.Forall₂ spec.Defines spec.members spec.names := by
  have hconst : spec.Defines spec.constGetterText spec.getter :=
    ⟨_, .head _, "() const \x7b return " ++ spec.field ++ "; \x7d",
      by unfold constGetterText; simp only [← String.append_assoc], by simp⟩
  have hplain : spec.Defines spec.getterText spec.getter :=
    ⟨_, .tail _ (.head _), "() \x7b return " ++ spec.field ++ "; \x7d",
      by unfold getterText; simp only [← String.append_assoc], by simp⟩
  have hset : spec.Defines spec.setterText spec.setter :=
    ⟨_, .tail _ (.tail _ (.head _)), "(" ++ referenceTo spec.constType ++ "_" ++ spec.field
      ++ ") \x7b " ++ spec.field ++ " = _" ++ spec.field ++ "; \x7d",
      by unfold setterText; simp only [← String.append_assoc], by simp⟩
  unfold members names
  refine List.rel_append ?_ ?_
  · cases spec.hasGetters
    · exact .nil
    · exact .cons hconst (.cons hplain .nil)
  · cases spec.hasSetter
    · exact .nil
    · exact .cons hset .nil

theorem mem_names {spec : AccessorSpec} {name : String} :
    name ∈ spec.names ↔ (spec.hasGetters = true ∧ name = spec.getter) ∨
      (spec.hasSetter = true ∧ name = spec.setter) := by
  unfold names
  cases spec.hasGetters <;> cases spec.hasSetter <;> simp

theorem mem_names_ofTarget {t : Target} {r : Record} {name : String} :
    name ∈ (ofTarget t r).names ↔
      (name = Name.getter t.name ∨ name = Name.setter t.name) ∧ r.hasMember name = false := by
  rw [mem_names]
  simp only [ofTarget, Bool.not_eq_true']
  constructor
  · rintro (⟨h, rfl⟩ | ⟨h, rfl⟩)
    · exact ⟨Or.inl rfl, h⟩
    · exact ⟨Or.inr rfl, h⟩
  · rintro ⟨rfl | rfl, h⟩
    · exact Or.inl ⟨h, rfl⟩
    · exact Or.inr ⟨h, rfl⟩

/-- The accessors of two fields of one record have all their names in common or none. -/
theorem disjoint_names_iff {s t : Target} {r : Record} :
    List.Disjoint (ofTarget s r).names (ofTarget t r).names ↔
      (Text.capitalize s.name.toList = Text.capitalize t.name.toList →
        r.hasMember (Name.getter s.name) = true ∧ r.hasMember (Name.setter s.name) = true) := by
  constructor
  · intro hdisj hcap
    have hgetter := Name.getter_eq_iff.mpr hcap
    have hsetter := Name.setter_eq_iff.mpr hcap
    constructor
    · by_contra hnew
      rw [Bool.not_eq_true] at hnew
      exact hdisj (mem_names_ofTarget.mpr ⟨Or.inl rfl, hnew⟩)
        (mem_names_ofTarget.mpr ⟨Or.inl hgetter, hnew⟩)
    · by_contra hnew
      rw [Bool.not_eq_true] at hnew
      exact hdisj (mem_names_ofTarget.mpr ⟨Or.inr rfl, hnew⟩)
        (mem_names_ofTarget.mpr ⟨Or.inr hsetter, hnew⟩)
  · intro h name hs ht
    obtain ⟨hsname, hfresh⟩ := mem_names_ofTarget.mp hs
    obtain ⟨htname, -⟩ := mem_names_ofTarget.mp ht
    have hcap : Text.capitalize s.name.toList = Text.capitalize t.name.toList := by
      rcases hsname with rfl | rfl <;> rcases htname with htname | htname
      · exact Name.getter_eq_iff.mp htname
      · exact absurd htname (Name.getter_ne_setter _ _)
      · exact absurd htname.symm (Name.getter_ne_setter _ _)
      · exact Name.setter_eq_iff.mp htname
    obtain ⟨hgetter, hsetter⟩ := h hcap
    rcases hsname with rfl | rfl
    · exact absurd hgetter (by simp [hfresh])
    · exact absurd hsetter (by simp [hfresh])

end AccessorSpec

/-- No two members inserted into one record have the same name, apart from the two getters
of one field. -/
structure NoDuplicates (specs : List AccessorSpec) : Prop where
  within : ∀ spec ∈ specs, spec.getter ≠ spec.setter
  between : specs.Pairwise fun a b => a.owner = b.owner → List.Disjoint a.names b.names

section Owned

variable {file : SourceFile} {targets : List Target}

theorem findRecord_of_mem_ownedTargets {t : Target} {r : Record}
    (h : (t, r) ∈ ownedTargets file targets) : file.findRecord r.qualifiedName = some r := by
  obtain ⟨s, -, hs⟩ := List.mem_filterMap.mp h
  obtain ⟨q, hq, heq⟩ := Option.map_eq_some_iff.mp hs
  obtain ⟨-, rfl⟩ := Prod.mk.inj heq
  rw [(SourceFile.mem_of_findRecord hq).2, hq]

/-- An inserted accessor takes the name of no member of its record. -/
theorem names_fresh {spec : AccessorSpec} (h : spec ∈ specs file targets) :
    ∃ r, file.findRecord spec.owner = some r ∧ ∀ name ∈ spec.names, r.hasMember name = false := by
  obtain ⟨⟨t, r⟩, hmem, rfl⟩ := List.mem_map.mp h
  refine ⟨r, findRecord_of_mem_ownedTargets hmem, fun name hname => ?_⟩
  exact (AccessorSpec.mem_names_ofTarget.mp hname).2

/-- Two targets of one record whose accessors have the same names, not all of which the
record has already. -/
def Clash (a b : Target × Record) : Prop :=
  a.2 = b.2 ∧ Text.capitalize a.1.name.toList = Text.capitalize b.1.name.toList ∧
    (a.2.hasMember (Name.getter a.1.name) && a.2.hasMember (Name.setter a.1.name)) = false

instance (a b : Target × Record) : Decidable (Clash a b) :=
  inferInstanceAs (Decidable (_ ∧ _ ∧ _))

theorem noDuplicates_iff :
    NoDuplicates (specs file targets) ↔
      (ownedTargets file targets).Pairwise fun a b => ¬ Clash a b := by
  have hwithin : ∀ spec ∈ specs file targets, spec.getter ≠ spec.setter := by
    intro spec hspec
    obtain ⟨⟨t, r⟩, -, rfl⟩ := List.mem_map.mp hspec
    exact Name.getter_ne_setter _ _
  have hpair : ∀ {a b : Target × Record}, a ∈ ownedTargets file targets →
      b ∈ ownedTargets file targets →
      (((AccessorSpec.ofTarget a.1 a.2).owner = (AccessorSpec.ofTarget b.1 b.2).owner →
        List.Disjoint (AccessorSpec.ofTarget a.1 a.2).names (AccessorSpec.ofTarget b.1 b.2).names) ↔
      ¬ Clash a b) := by
    rintro ⟨s, q⟩ ⟨t, r⟩ ha hb
    -- a name finds one record, so accessors with one owner go to one record
    have howner : q.qualifiedName = r.qualifiedName ↔ q = r := by
      constructor
      · intro hname
        have hq := findRecord_of_mem_ownedTargets ha
        rw [hname, findRecord_of_mem_ownedTargets hb] at hq
        exact (Option.some.inj hq).symm
      · rintro rfl
        rfl
    simp only [Clash, not_and, Bool.not_eq_false, Bool.and_eq_true]
    change (q.qualifiedName = r.qualifiedName → _) ↔ _
    rw [howner]
    constructor
    · rintro h rfl
      exact AccessorSpec.disjoint_names_iff.mp (h rfl)
    · rintro h rfl
      exact AccessorSpec.disjoint_names_iff.mpr (h rfl)
  constructor
  · rintro ⟨-, hbetween⟩
    exact (List.pairwise_map.mp hbetween).imp_of_mem fun ha hb h => (hpair ha hb).mp h
  · intro h
    exact ⟨hwithin, List.pairwise_map.mpr (h.imp_of_mem fun ha hb h => (hpair ha hb).mpr h)⟩

end Owned

/-- Inserted members have names that their record does not have, and no two of them have the
same name unless two targets of the record clash. -/
theorem accessors_distinct_iff (file : SourceFile) (targets : List Target) :
    (∀ spec ∈ specs file targets, List.Forall₂ spec.Defines spec.members spec.names ∧
      ∃ r, file.findRecord spec.owner = some r ∧
        ∀ name ∈ spec.names, r.hasMember name = false) ∧
    (NoDuplicates (specs file targets) ↔
      (ownedTargets file targets).Pairwise fun a b => ¬ Clash a b) :=
  ⟨fun spec hspec => ⟨spec.forall₂_defines, names_fresh hspec⟩, noDuplicates_iff⟩

def twoCasesFile : SourceFile :=
  .ofParsed "F" "struct F\x7bint x;int X;\x7d;".toList
    ⟨named "translation_unit" 0 23
      [named "struct_specifier" 0 22
        [filling "name" "type_identifier" 7 8 [],
         filling "body" "field_declaration_list" 8 22
          [named "field_declaration" 9 15
            [filling "type" "primitive_type" 9 12 [],
             filling "declarator" "field_identifier" 13 14 []],
           named "field_declaration" 15 21
            [filling "type" "primitive_type" 15 18 [],
             filling "declarator" "field_identifier" 19 20 []],
           mark none "\x7d" 21 22]]], false⟩

/-- Both fields of this record get the accessors `getX` and `setX`. -/
theorem twoCases_duplicates :
    let targets := (select ["F::x", "F::X"] ⟨twoCasesFile, []⟩).targets
    (specs twoCasesFile targets).map AccessorSpec.owner = ["F", "F"] ∧
      (specs twoCasesFile targets).map AccessorSpec.names =
        [["getX", "getX", "setX"], ["getX", "getX", "setX"]] ∧
      ¬ NoDuplicates (specs twoCasesFile targets) := by
  refine ⟨by decide, by decide, ?_⟩
  rw [noDuplicates_iff]
  decide

end Accessors

end Encapsulate
