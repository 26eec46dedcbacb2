import Encapsulate.Accessors.Target
import Encapsulate.Proofs.EnclosingRecord

/-!
Names of namespaces. The written name is cut at its separators, and each segment is taken
without blanks and without the word `inline` in front of it. The word is taken off as often as
the text begins with it, whether or not a blank follows, so a name that itself begins with these
letters loses them; it keeps them only behind the word, since the blank in between ends the
removal. What is declared in the namespace has the segments that are left on its path.
-/

namespace Encapsulate.Cpp

open Encapsulate.Tree ParseTree

/-- One segment of the name of a namespace as it is written. -/
structure WrittenSegment where
  name : String
  /-- The blanks behind the word `inline`, if the word stands in front of the name. -/
  gap : Option String := none

namespace WrittenSegment

def text (s : WrittenSegment) : String :=
  match s.gap with
  | none => s.name
  | some blanks => "inline" ++ blanks ++ s.name

/-- The name is looked up as it is written, as every identifier is, and blanks stand between
it and the word. -/
structure WellFormed (s : WrittenSegment) : Prop where
  plain : Name.Plain s.name
  blanks : ∀ blanks, s.gap = some blanks →
    blanks ≠ "" ∧ ∀ c ∈ blanks.toList, Text.isBlank c = true

def readName (s : WrittenSegment) : List Char :=
  Text.trim (Name.dropInline (Text.trim s.text.toList))

/-- Whether the name is told from the word `inline`: it stands behind the word or does not begin
with its letters. -/
def IsKept (s : WrittenSegment) : Prop :=
  s.gap.isSome = true ∨ ¬ "inline".toList <+: s.name.toList

end WrittenSegment

namespace Name

theorem segments_eq_singleton {s : List Char} (hs : ':' ∉ s) : segments s = [s] := by
  induction s with
  | nil => rfl
  | cons c s ih =>
    simp only [List.mem_cons, not_or] at hs
    rw [segments.eq_3 c s fun _ hc _ => hs.1 hc.symm, ih hs.2]
    rfl

theorem segments_append {s : List Char} (hs : ':' ∉ s) (cs : List Char) :
    segments (s ++ ':' :: ':' :: cs) = s :: segments cs := by
  induction s with
  | nil => rfl
  | cons c s ih =>
    simp only [List.mem_cons, not_or] at hs
    rw [List.cons_append, segments.eq_3 c _ fun _ hc _ => hs.1 hc.symm, ih hs.2]
    rfl

/-- A text is cut where it was joined, if there is no colon in its parts. -/
theorem segments_join {path : List String} (hne : path ≠ [])
    (hpath : ∀ s ∈ path, ':' ∉ s.toList) :
    segments (join path).toList = path.map String.toList := by
  induction path with
  | nil => exact absurd rfl hne
  | cons s path ih =>
    obtain ⟨hs, hpath⟩ := List.forall_mem_cons.mp hpath
    cases path with
    | nil =>
      rw [join, String.intercalate_singleton, segments_eq_singleton hs]
      rfl
    | cons t path =>
      rw [join_cons_cons, segments_append hs, ih (List.cons_ne_nil t path) hpath]
      rfl

theorem dropInline_of_not_prefix {cs : List Char} (h : ¬ "inline".toList <+: cs) :
    dropInline cs = cs :=
  dropInline.eq_2 cs fun rest heq => h ⟨rest, heq.symm⟩

theorem length_dropInline_le (cs : List Char) : (dropInline cs).length ≤ cs.length := by
  fun_induction dropInline cs with
  | case1 cs ih =>
    simp only [List.length_cons]
    omega
  | case2 cs => exact Nat.le_refl _

theorem length_dropInline_lt {cs : List Char} (h : "inline".toList <+: cs) :
    (dropInline cs).length < cs.length := by
  obtain ⟨rest, rfl⟩ := h
  have hdrop : dropInline ("inline".toList ++ rest) = dropInline rest := dropInline.eq_1 rest
  have hle := length_dropInline_le rest
  rw [hdrop, List.length_append]
  exact Nat.lt_of_le_of_lt hle (Nat.lt_add_of_pos_left (by decide))

end Name

section Trimming

open Text

theorem length_trim_le (cs : List Char) : (trim cs).length ≤ cs.length := by
  have hdrop : ∀ cs : List Char, (cs.dropWhile isBlank).length ≤ cs.length :=
    fun cs => (List.dropWhile_sublist isBlank).length_le
  rw [trim, trimEnd, dropEndWhile, List.length_reverse]
  refine Nat.le_trans (hdrop _) ?_
  rw [List.length_reverse]
  exact hdrop cs

theorem trimEnd_append {name : List Char} (hne : name ≠ [])
    (hname : ∀ c ∈ name, isBlank c = false) (cs : List Char) :
    trimEnd (cs ++ name) = cs ++ name := by
  obtain ⟨init, last, rfl⟩ := (List.eq_nil_or_concat name).resolve_left hne
  have hlast : ¬ isBlank last = true := by simp [hname last]
  rw [trimEnd, dropEndWhile, List.concat_eq_append, ← List.append_assoc, List.reverse_append,
    List.reverse_singleton, List.singleton_append, List.dropWhile_cons_of_neg hlast,
    List.reverse_cons, List.reverse_reverse]

/-- Blanks in front of a name without blanks are trimmed off, and nothing else. -/
theorem trim_append (blanks : List Char) {name : List Char}
    (hblanks : ∀ c ∈ blanks, isBlank c = true) (hne : name ≠ []) (hname : ∀ c ∈ name, isBlank c = false) : trim (blanks ++ name) = name := by
  obtain ⟨c, cs, rfl⟩ := List.exists_cons_of_ne_nil hne
  have hc : ¬ isBlank c = true := by simp [hname c]
  rw [trim, trimStart, List.dropWhile_append_of_pos hblanks, List.dropWhile_cons_of_neg hc]
  exact trimEnd_append hne hname []

end Trimming

namespace WrittenSegment

variable {s : WrittenSegment}

theorem WellFormed.not_colon (h : s.WellFormed) : ':' ∉ s.text.toList := by
  have hname : ':' ∉ s.name.toList := fun hc => (h.plain.chars ':' hc).2.1 rfl
  unfold text
  cases hgap : s.gap with
  | none => exact hname
  | some blanks =>
    have hblanks : ':' ∉ blanks.toList := fun hc =>
      absurd ((h.blanks blanks hgap).2 ':' hc) (by decide)
    have hinline : ':' ∉ "inline".toList := by decide
    simp only [String.toList_append, List.mem_append, not_or]
    exact ⟨⟨hinline, hblanks⟩, hname⟩

/-- A segment is read as its name exactly if its name is told from the word `inline`. -/
theorem WellFormed.readName_eq_iff (h : s.WellFormed) :
    s.readName = s.name.toList ↔ s.IsKept := by
  have hplain : ∀ c ∈ s.name.toList, Text.isBlank c = false := fun c hc => (h.plain.chars c hc).1
  have hname : Text.trim s.name.toList = s.name.toList :=
    trim_append [] (by simp) h.plain.nonempty hplain
  unfold readName IsKept text
  cases hgap : s.gap with
  | none =>
    simp only [hname, Option.isSome_none, Bool.false_eq_true, false_or]
    constructor
    · intro heq hprefix
      have hlt := Nat.lt_of_le_of_lt (length_trim_le _) (Name.length_dropInline_lt hprefix)
      rw [heq] at hlt
      exact Nat.lt_irrefl _ hlt
    · intro hprefix
      rw [Name.dropInline_of_not_prefix hprefix, hname]
  | some blanks =>
    obtain ⟨hne, hblanks⟩ := h.blanks blanks hgap
    have htrim : Text.trim ("inline" ++ blanks ++ s.name).toList =
        "inline".toList ++ (blanks.toList ++ s.name.toList) := by
      have hstart : Text.trimStart ("inline" ++ blanks ++ s.name).toList =
          "inline".toList ++ blanks.toList ++ s.name.toList := by
        simp only [String.toList_append]
        exact List.dropWhile_cons_of_neg (by decide)
      rw [Text.trim, hstart, trimEnd_append h.plain.nonempty hplain, List.append_assoc]
    -- the blank behind the word is where the removal of the word ends
    have hdrop : Name.dropInline ("inline".toList ++ (blanks.toList ++ s.name.toList)) =
        blanks.toList ++ s.name.toList := by
      refine (Name.dropInline.eq_1 _).trans (Name.dropInline_of_not_prefix ?_)
      rintro ⟨rest, heq⟩
      obtain ⟨c, cs, hcs⟩ := List.exists_cons_of_ne_nil (mt String.toList_eq_nil_iff.mp hne)
      rw [hcs] at heq hblanks
      obtain rfl : 'i' = c := (List.cons.inj heq).1
      exact absurd (hblanks 'i' List.mem_cons_self) (by decide)
    refine iff_of_true ?_ (Or.inl rfl)
    simp only [htrim, hdrop]
    exact trim_append _ hblanks h.plain.nonempty hplain

end WrittenSegment

/-- The segments of a written name are its names exactly if each is told from the word
`inline`. -/
theorem namespaceSegments_eq_iff {parts : List WrittenSegment} (hne : parts ≠ [])
    (hparts : ∀ s ∈ parts, s.WellFormed) :
    namespaceSegments (Name.join (parts.map (·.text))).toList = parts.map (·.name) ↔
      ∀ s ∈ parts, s.IsKept := by
  have hcolon : ∀ t ∈ parts.map (·.text), ':' ∉ t.toList := by
    intro t ht
    obtain ⟨s, hs, rfl⟩ := List.mem_map.mp ht
    exact (hparts s hs).not_colon
  have hsegments : namespaceSegments (Name.join (parts.map (·.text))).toList =
      ((parts.map (·.readName)).filter (!·.isEmpty)).map String.ofList := by
    rw [namespaceSegments, Name.segments_join (by simpa using hne) hcolon, List.map_map,
      List.map_map]
    rfl
  rw [hsegments]
  constructor
  · intro h s hs
    -- no segment has vanished, since there are as many as names
    have hlength : ((parts.map (·.readName)).filter (!·.isEmpty)).length =
        (parts.map (·.readName)).length := by
      simpa using congrArg List.length h
    rw [List.filter_eq_self.mpr (List.length_filter_eq_length_iff.mp hlength), List.map_map] at h
    have hname := congrArg String.toList (List.map_inj_left.mp h s hs)
    rw [Function.comp_apply, String.toList_ofList] at hname
    exact (hparts s hs).readName_eq_iff.mp hname
  · intro hkept
    have hread : ∀ s ∈ parts, s.readName = s.name.toList :=
      fun s hs => (hparts s hs).readName_eq_iff.mpr (hkept s hs)
    have hall : ∀ cs ∈ parts.map (·.name.toList), (!cs.isEmpty) = true := by
      intro cs hcs
      obtain ⟨s, hs, rfl⟩ := List.mem_map.mp hcs
      simpa using (hparts s hs).plain.nonempty
    rw [List.map_congr_left hread, List.filter_eq_self.mpr hall, List.map_map]
    exact List.map_congr_left fun s _ => String.ofList_toList

namespace Decl

section Nesting

variable {path p : List String} {owner r : Option Record} {ds : List Decl} {d : Decl}

/-- What stands in some declarations has their path in front of its own. -/
theorem Within.prefix_path (h : Within path owner ds p r d) : path <+: p := by
  induction h with
  | here hd => exact List.prefix_refl _
  | space hspace hd ih => exact (List.prefix_append _ _).trans ih
  | record hrecord hd ih => exact (List.prefix_append _ _).trans ih

/-- A namespace holds what stands in it with its name on the path, and is itself the only other
declaration. -/
theorem within_space_iff {name : Option String} {inner : List Decl} :
    Within path owner [.space name inner] p r d ↔
      (p = path ∧ r = owner ∧ d = .space name inner) ∨
        Within (path ++ name.toList) owner inner p r d := by
  constructor
  · intro h
    cases h with
    | here hd => exact Or.inl ⟨rfl, rfl, List.mem_singleton.mp hd⟩
    | space hspace hd =>
      obtain ⟨rfl, rfl⟩ := Decl.space.inj (List.mem_singleton.mp hspace)
      exact Or.inr hd
    | record hrecord hd => exact absurd (List.mem_singleton.mp hrecord) (by simp)
  · rintro (⟨rfl, rfl, rfl⟩ | h)
    · exact .here (List.mem_singleton_self _)
    · exact .space (List.mem_singleton_self _) h

theorem not_within_nil : ¬ Within path owner [] p r d := by
  intro h
  cases h with
  | here hd => exact absurd hd (by simp)
  | space hspace hd => exact absurd hspace (by simp)
  | record hrecord hd => exact absurd hrecord (by simp)

/-- Declarations that are nested in one namespace for each segment stand with all segments on
their path, and beside them there are only these namespaces. -/
theorem within_nest_iff {segments : List String} (hd : ∀ name inner, d ≠ .space name inner) :
    Within path owner (nest segments ds) p r d ↔ Within (path ++ segments) owner ds p r d := by
  have nested : ∀ (segments path : List String),
      Within path owner (segments.foldr (fun name inner => [.space (some name) inner]) ds) p r d ↔
        Within (path ++ segments) owner ds p r d := by
    intro segments
    induction segments with
    | nil => simp
    | cons s segments ih =>
      intro path
      rw [List.foldr_cons, within_space_iff, or_iff_right fun h => hd _ _ h.2.2, ih,
        Option.toList_some, List.append_assoc, List.singleton_append]
  cases segments with
  | nil =>
    rw [nest, within_space_iff, or_iff_right fun h => hd _ _ h.2.2]
    rfl
  | cons s segments => exact nested (s :: segments) path

end Nesting

end Decl

/-- The names in the written name of a namespace, one for each segment, are added to the scope
of all that is declared in it exactly if each of them is told from the word `inline`. What is
declared in the namespace is what its body declares in the extended scope, and is named after a
path that begins with it. -/
theorem namespace_names_kept_iff (source : List Char) (scope : List String) {t name : ParseTree}
    {parts : List WrittenSegment} (hkind : t.kind = "namespace_definition")
    (hname : field? "name" t.children = some name)
    (hwritten : ParseTree.text source name = Name.join (parts.map (·.text)))
    (hne : parts ≠ []) (hparts : ∀ s ∈ parts, s.WellFormed) :
    let added := namespaceSegments (Text.slice source name.span)
    (added = parts.map (·.name) ↔ ∀ s ∈ parts, s.IsKept) ∧
    ∀ p owner d, (∀ space inner, d ≠ .space space inner) →
      (Decl.Within scope none (Decl.read source scope t) p owner d ↔
        ∃ body, field? "body" t.children = some body ∧ Decl.Within (scope ++ added) none
          (Decl.readItems source (scope ++ added) body.children) p owner d) ∧
      (Decl.Within scope none (Decl.read source scope t) p owner d →
        scope ++ added <+: p ∧ Decl.NamedAt source t p owner d) := by
  intro added
  have hadded : added = namespaceSegments (Name.join (parts.map (·.text))).toList := by
    rw [← hwritten, ParseTree.text, Text.sliceString, String.toList_ofList]
  have hread : Decl.read source scope t =
      Decl.nest added (Decl.readBody source (scope ++ added) t.children) := by
    obtain ⟨i, cs⟩ := t
    have hspace : DeclConstruct.ofKind i.kind = .space := by
      rw [show i.kind = "namespace_definition" from hkind]
      rfl
    rw [Decl.read, hspace]
    simp only [show field? "name" cs = some name from hname, Option.map_some, Option.getD_some]
    rfl
  refine ⟨hadded ▸ namespaceSegments_eq_iff hne hparts, fun p owner d hd => ?_⟩
  have hbody : Decl.Within scope none (Decl.read source scope t) p owner d ↔
      Decl.Within (scope ++ added) none
        (Decl.readBody source (scope ++ added) t.children) p owner d := by
    rw [hread, Decl.within_nest_iff hd]
  refine ⟨?_, fun h => ⟨(hbody.mp h).prefix_path,
    (Decl.readsFollow source t).decls scope p owner d h⟩⟩
  rw [hbody, Decl.readBody_eq]
  cases field? "body" t.children with
  | none => simpa using Decl.not_within_nil
  | some body => simp

section Example

def spaceText (written : String) : List Char :=
  ("namespace " ++ written ++ "\x7bstruct Z\x7bint x;\x7d;\x7d").toList

def spaceBody (stop : Nat) : ParseTree :=
  filling "body" "declaration_list" stop (stop + 19)
    [named "struct_specifier" (stop + 1) (stop + 17)
       [filling "name" "type_identifier" (stop + 8) (stop + 9) [],
        filling "body" "field_declaration_list" (stop + 9) (stop + 17)
          [named "field_declaration" (stop + 10) (stop + 16)
             [filling "type" "primitive_type" (stop + 10) (stop + 13) [],
              filling "declarator" "field_identifier" (stop + 14) (stop + 15) []],
           mark none "\x7d" (stop + 16) (stop + 17)]],
     mark none "\x7d" (stop + 18) (stop + 19)]

def spaceTree (stop : Nat) : ParseTree :=
  named "namespace_definition" 0 (stop + 19)
    [filling "name" "nested_namespace_specifier" 10 stop [], spaceBody stop]

/-- The namespaces of `a::inline inlined` are `a` and `inlined`, and its field is named after
both. -/
theorem namespace_names_kept_iff_nested :
    let source := spaceText "a::inline inlined"
    let parts : List WrittenSegment := [⟨"a", none⟩, ⟨"inlined", some " "⟩]
    (∀ s ∈ parts, s.WellFormed ∧ s.IsKept) ∧
      namespaceSegments (Text.slice source ⟨10, 27⟩) = ["a", "inlined"] ∧
      ∃ r f, Decl.Within [] none (Decl.read source [] (spaceTree 27)) ["a", "inlined"] none
          (.record r []) ∧
        r.fields = [f] ∧ f.qualifiedName = "a::inlined::Z::x" := by
  intro source parts
  have hparts : ∀ s ∈ parts, s.WellFormed ∧ s.IsKept := by
    intro s hs
    simp only [parts, List.mem_cons, List.not_mem_nil, or_false] at hs
    rcases hs with rfl | rfl
    · exact ⟨⟨by decide, by simp⟩, Or.inr (by decide)⟩
    · refine ⟨⟨by decide, fun _ h => ?_⟩, Or.inl rfl⟩
      obtain rfl := Option.some.inj h
      refine ⟨by decide, fun c hc => ?_⟩
      obtain rfl : c = ' ' := List.mem_singleton.mp hc
      decide
  have hwritten : ParseTree.text source (filling "name" "nested_namespace_specifier" 10 27 []) =
      Name.join (parts.map (·.text)) := by decide
  obtain ⟨hadded, hall⟩ := namespace_names_kept_iff source [] (t := spaceTree 27) rfl rfl hwritten
    (by simp [parts]) fun s hs => (hparts s hs).1
  have hsegments : namespaceSegments (Text.slice source ⟨10, 27⟩) = ["a", "inlined"] :=
    hadded.mpr fun s hs => (hparts s hs).2
  obtain ⟨r, hread⟩ : ∃ r, Decl.readItems source ["a", "inlined"] (spaceBody 27).children =
      [.record r []] := ⟨_, rfl⟩
  have hwithin : Decl.Within [] none (Decl.read source [] (spaceTree 27)) ["a", "inlined"] none
      (.record r []) := by
    refine (hall _ none _ (by simp)).1.mpr ⟨spaceBody 27, rfl, ?_⟩
    change Decl.Within ([] ++ namespaceSegments (Text.slice source ⟨10, 27⟩)) none
      (Decl.readItems source ([] ++ namespaceSegments (Text.slice source ⟨10, 27⟩)) _) _ _ _
    rw [hsegments, List.nil_append, hread]
    exact .here (List.mem_singleton_self _)
  have hnames : (Decl.recordsOf (Decl.readItems source ["a", "inlined"]
      (spaceBody 27).children)).map (fun r => (r.name, r.fields.map (·.name))) =
        [("Z", ["x"])] := by decide
  rw [hread, show Decl.recordsOf [.record r []] = [r] from rfl] at hnames
  obtain ⟨hname, hfields⟩ := Prod.mk.inj (List.singleton_inj.mp hnames)
  obtain ⟨f, hf, hfname⟩ := List.map_eq_singleton_iff.mp hfields
  obtain ⟨-, -, hrecord, hfield⟩ := (hall _ none _ (by simp)).2 hwithin
  refine ⟨hparts, hsegments, r, f, hwithin, hf, ?_⟩
  rw [hfield f (hf ▸ List.mem_singleton_self f), hrecord, hname, hfname]
  rfl

/-- The namespace `inlined` is read as `d`, so that no field is found under its name. -/
theorem inlined_namespace_renamed :
    let file := SourceFile.ofParsed "z.cpp" (spaceText "inlined")
      ⟨named "translation_unit" 0 36 [spaceTree 17], false⟩
    Name.Plain "inlined" ∧
      file.records.map (fun r => (r.qualifiedName, r.fields.map (·.qualifiedName))) =
        [("d::Z", ["d::Z::x"])] ∧
      (Accessors.select ["inlined::Z::x"] ⟨file, []⟩).targets = [] := by
  decide +kernel

end Example

end Encapsulate.Cpp
