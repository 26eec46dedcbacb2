import Encapsulate.Cpp.Typing
import Encapsulate.Proofs.Layout
import Encapsulate.Proofs.Naming
import Encapsulate.Proofs.Survey

/-!
The record of `this`. A method knows the qualified name of the record around it, but when its
body is entered this name is resolved like any name that is written there: it is tried behind
each prefix of the scope of the body, the longest first, and alone at last. So `this` is the
record around the method exactly when no scope around the body, the record included, declares
the whole path of the record once more.
-/

namespace Encapsulate.Cpp

open Encapsulate.Tree ParseTree

namespace Name

/-- A name that is looked up as it is written. Every identifier is one. -/
structure Plain (name : String) : Prop where
  nonempty : name.toList ≠ []
  chars : ∀ c ∈ name.toList, Text.isBlank c = false ∧ c ≠ ':' ∧ c ≠ '<' ∧ c ≠ '>'
  word : name.toList ∉ qualifierWords

-- `all` goes through the characters of the name, where a quantifier could go through all
-- characters that there are
instance (name : String) : Decidable (Plain name) :=
  decidable_of_iff (name.toList ≠ [] ∧
    (name.toList.all fun c =>
      !Text.isBlank c && c != ':' && c != '<' && c != '>') = true ∧
    name.toList ∉ qualifierWords)
    ⟨fun h => ⟨h.1, by simpa [and_assoc] using h.2.1, h.2.2⟩,
      fun h => ⟨h.nonempty, by simpa [and_assoc] using h.chars, h.word⟩⟩

theorem join_cons_cons (s t : String) (path : List String) :
    (join (s :: t :: path)).toList = s.toList ++ ':' :: ':' :: (join (t :: path)).toList := by
  rw [join, String.intercalate_cons_cons, String.toList_append, String.toList_append,
    List.append_assoc]
  rfl

theorem mem_join {path : List String} {c : Char} (h : c ∈ (join path).toList) :
    c = ':' ∨ ∃ s ∈ path, c ∈ s.toList := by
  induction path with
  | nil => simp [join] at h
  | cons s path ih =>
    cases path with
    | nil =>
      rw [join, String.intercalate_singleton] at h
      exact Or.inr ⟨s, List.mem_singleton_self s, h⟩
    | cons t path =>
      rw [join_cons_cons] at h
      simp only [List.mem_append, List.mem_cons] at h
      rcases h with h | h | h | h
      · exact Or.inr ⟨s, List.mem_cons_self, h⟩
      · exact Or.inl h
      · exact Or.inl h
      · rcases ih h with hcolon | ⟨u, hu, hc⟩
        · exact Or.inl hcolon
        · exact Or.inr ⟨u, List.mem_cons_of_mem _ hu, hc⟩

/-- Plain names on a path make a text that starts like the first of them. -/
theorem exists_join_eq_cons {path : List String} (hne : path ≠ [])
    (hplain : ∀ s ∈ path, Plain s) :
    ∃ c cs, (join path).toList = c :: cs ∧ Text.isBlank c = false ∧ c ≠ ':' := by
  obtain ⟨s, path, rfl⟩ := List.exists_cons_of_ne_nil hne
  have hs := hplain s List.mem_cons_self
  obtain ⟨c, cs, hcs⟩ := List.exists_cons_of_ne_nil hs.nonempty
  have hc := hs.chars c (by rw [hcs]; exact List.mem_cons_self)
  cases path with
  | nil =>
    rw [join, String.intercalate_singleton]
    exact ⟨c, cs, hcs, hc.1, hc.2.1⟩
  | cons t path =>
    rw [join_cons_cons, hcs]
    exact ⟨c, _, rfl, hc.1, hc.2.1⟩

/-- No word that does not count has a separator in it. -/
theorem join_notMem_qualifierWords {path : List String} (hplain : ∀ s ∈ path, Plain s)
    (hne : path ≠ []) : (join path).toList ∉ qualifierWords := by
  obtain ⟨s, path, rfl⟩ := List.exists_cons_of_ne_nil hne
  cases path with
  | nil =>
    rw [join, String.intercalate_singleton]
    exact (hplain s List.mem_cons_self).word
  | cons t path =>
    intro hmem
    have hcolon : ':' ∈ (join (s :: t :: path)).toList := by
      rw [join_cons_cons]
      exact List.mem_append_right _ List.mem_cons_self
    have hnone : ∀ w ∈ qualifierWords, ':' ∉ w := by decide
    exact hnone _ hmem hcolon

theorem qualify_nil (name : String) : qualify [] name = name := by
  rw [qualify, List.nil_append, join, String.intercalate_singleton]

/-- A name inside some scope is longer than the name alone. -/
theorem qualify_ne_self {path : List String} (hne : path ≠ []) (name : String) :
    qualify path name ≠ name := by
  have hsplit : qualify path name = join path ++ "::" ++ join [name] :=
    String.intercalate_append_of_ne_nil hne (List.cons_ne_nil _ _)
  intro heq
  have hlength := congrArg String.length heq
  have hseparator : "::".length = 2 := rfl
  rw [hsplit, join, join, String.intercalate_singleton, String.length_append,
    String.length_append] at hlength
  omega

end Name

theorem withoutArgumentsFrom_eq_self {cs : List Char} (h : ∀ c ∈ cs, c ≠ '<' ∧ c ≠ '>') :
    withoutArgumentsFrom 0 cs = cs := by
  induction cs with
  | nil => rfl
  | cons c cs ih =>
    obtain ⟨⟨hopen, hclose⟩, hcs⟩ := List.forall_mem_cons.mp h
    rw [withoutArgumentsFrom.eq_4 _ _ _ hopen hclose, if_pos rfl, ih hcs]

theorem words_eq_singleton {cs : List Char} (hne : cs ≠ [])
    (h : ∀ c ∈ cs, Text.isBlank c = false) : Text.words cs = [cs] := by
  have hsplit : ∀ cs : List Char, (∀ c ∈ cs, Text.isBlank c = false) →
      Text.splitWord cs = (cs, []) := by
    intro cs
    induction cs with
    | nil => exact fun _ => rfl
    | cons c cs ih =>
      intro h
      obtain ⟨hc, hcs⟩ := List.forall_mem_cons.mp h
      simp [Text.splitWord, ih hcs, hc]
  simp [Text.words, hsplit cs h, hne]

/-- The joined path of a record is looked up as it stands. -/
theorem lookupName_join {path : List String} (hne : path ≠ [])
    (hplain : ∀ s ∈ path, Name.Plain s) : lookupName (Name.join path) = Name.join path := by
  obtain ⟨c, cs, hcs, -, hcolon⟩ := Name.exists_join_eq_cons hne hplain
  have hchars : ∀ d ∈ (Name.join path).toList,
      Text.isBlank d = false ∧ d ≠ '<' ∧ d ≠ '>' := by
    intro d hd
    rcases Name.mem_join hd with rfl | ⟨s, hs, hd⟩
    · decide
    · obtain ⟨hblank, -, hopen, hclose⟩ := (hplain s hs).chars d hd
      exact ⟨hblank, hopen, hclose⟩
  have hnonempty : (Name.join path).toList ≠ [] := by simp [hcs]
  have hkept : qualifierWords.contains (Name.join path).toList = false := by
    simpa using Name.join_notMem_qualifierWords hplain hne
  have hglobal : Name.dropGlobal (Name.join path).toList = (Name.join path).toList := by
    rw [hcs]
    exact Name.dropGlobal.eq_2 _ fun _ h => hcolon (List.cons.inj h).1
  rw [lookupName, lookupChars, withoutArgumentsFrom_eq_self fun d hd => (hchars d hd).2,
    words_eq_singleton hnonempty fun d hd => (hchars d hd).1,
    List.filter_cons_of_pos (by rw [hkept]; rfl), List.filter_nil, joinWords, hglobal,
    String.ofList_toList]

/-- A search from the largest number down to zero finds the largest that passes. -/
theorem find?_range_reverse {p : Nat → Bool} (n : Nat) (hzero : p 0 = true) :
    ∃ k ≤ n, p k = true ∧ (∀ j, k < j → j ≤ n → p j = false) ∧
      (List.range (n + 1)).reverse.find? p = some k := by
  induction n with
  | zero => exact ⟨0, Nat.le_refl _, hzero, fun j hj hle => by omega, by simp [hzero]⟩
  | succ n ih =>
    rw [List.range_succ, List.reverse_append, List.reverse_singleton, List.singleton_append]
    cases hp : p (n + 1) with
    | true =>
      exact ⟨n + 1, Nat.le_refl _, hp, fun j hj hle => by omega, by rw [List.find?_cons_of_pos hp]⟩
    | false =>
      obtain ⟨k, hk, hpk, hlater, hfind⟩ := ih
      refine ⟨k, Nat.le_succ_of_le hk, hpk, fun j hj hle => ?_, ?_⟩
      · rcases Nat.lt_or_eq_of_le hle with hlt | rfl
        · exact hlater j hj (Nat.le_of_lt_succ hlt)
        · exact hp
      · rw [List.find?_cons_of_neg (by simp [hp]), hfind]

namespace ClassIndex

theorem contains_of_get? {index : ClassIndex} {name : String} {r : Record}
    (h : index.get? name = some r) : index.contains name = true :=
  List.any_eq_true.mpr
    ⟨r, List.mem_of_find?_eq_some h,
      List.find?_some (p := fun q : Record => q.qualifiedName == name) h⟩

/-- A known qualified name that is resolved inside a scope is the longest of the known names
that a part of the scope makes with it. -/
theorem resolveType_join {index : ClassIndex} {path : List String} (hne : path ≠ [])
    (hplain : ∀ s ∈ path, Name.Plain s) (hknown : index.contains (Name.join path) = true)
    (scope : List String) :
    ∃ k ≤ scope.length,
      (∀ j, k < j → j ≤ scope.length →
        index.contains (Name.qualify (scope.take j) (Name.join path)) = false) ∧
      index.contains (Name.qualify (scope.take k) (Name.join path)) = true ∧
      index.resolveType (Name.join path) scope =
        some (Name.qualify (scope.take k) (Name.join path)) := by
  obtain ⟨c, cs, hcs, hblank, hcolon⟩ := Name.exists_join_eq_cons hne hplain
  have hzero : index.contains (Name.qualify (scope.take 0) (Name.join path)) = true := by
    rw [List.take_zero, Name.qualify_nil, hknown]
  obtain ⟨k, hk, hfound, hlater, hfind⟩ :=
    find?_range_reverse (p := fun j => index.contains (Name.qualify (scope.take j)
      (Name.join path))) scope.length hzero
  refine ⟨k, hk, hlater, hfound, ?_⟩
  have hnonempty : (Name.join path).isEmpty = false := by
    rw [String.isEmpty_eq_false_iff]
    rintro h
    rw [h] at hcs
    simp at hcs
  have hwritten : [':', ':'].isPrefixOf (Text.trimStart (Name.join path).toList) = false := by
    rw [hcs, Text.trimStart, List.dropWhile_cons_of_neg (by simp [hblank])]
    simp [List.isPrefixOf, hcolon.symm]
  have hcandidates : (Name.candidates scope (Name.join path)).find? index.contains =
      some (Name.qualify (scope.take k) (Name.join path)) := by
    rw [Name.candidates, List.find?_map]
    exact congrArg _ hfind
  rw [resolveType, lookupName_join hne hplain]
  simp only [hnonempty, hwritten, hcandidates, Bool.false_eq_true, if_false]

/-- A scope around the methods of `r`, `r` itself included, declares a record under the whole
qualified name of `r` once more. -/
def DeclaresAgain (index : ClassIndex) (r : Record) : Prop :=
  ∃ k, 0 < k ∧ k ≤ r.innerScope.length ∧
    index.contains (Name.qualify (r.innerScope.take k) r.qualifiedName) = true

end ClassIndex

namespace Env

/-- What `this` is in a body, and inside which scope names are looked up there. -/
theorem enter_frame (symbols : Symbols) (f : Function) :
    (enter symbols f).thisClass = f.record.bind (symbols.index.resolveType · f.scope) ∧
      (enter symbols f).path =
        (((enter symbols f).thisClass.bind symbols.index.get?).map Record.innerScope).getD
          f.scope := by
  -- declaring the parameters changes neither
  have hfold : ∀ (ps : List Var) (env : Env),
      (ps.foldl (fun e p => e.declare symbols p.name p.type none) env).thisClass = env.thisClass ∧
        (ps.foldl (fun e p => e.declare symbols p.name p.type none) env).path = env.path := by
    intro ps
    induction ps with
    | nil => exact fun env => ⟨rfl, rfl⟩
    | cons p ps ih =>
      intro env
      obtain ⟨hthis, hpath⟩ := ih (env.declare symbols p.name p.type none)
      rw [List.foldl_cons, hthis, hpath]
      cases hscopes : env.scopes <;> simp only [declare, hscopes, and_self]
  unfold enter
  simp only [hfold]
  refine ⟨trivial, ?_⟩
  cases (f.record.bind fun r => symbols.index.resolveType r f.scope).bind symbols.index.get? <;> rfl

end Env

/-- What stands directly in a record stands in it at its path. -/
theorem Decl.Within.inside {path p : List String} {owner o : Option Record} {ds inner : List Decl}
    {q : Record} {d : Decl} (h : Within path owner ds p o (.record q inner)) (hd : d ∈ inner) :
    Within path owner ds (p ++ [q.name]) (some q) d := by
  generalize hrecord : Decl.record q inner = e at h
  induction h with
  | here he => exact .record (hrecord ▸ he) (.here hd)
  | space hspace _ ih => exact .space hspace (ih hrecord)
  | record hmem _ ih => exact .record hmem (ih hrecord)

/-- In a method that is defined in a record `r`, of which the names on the path are plain and
whose qualified name means `r` in the unit, `this` is `r` and names are looked up from inside
`r` exactly when no scope around the body declares the path of `r` once more. -/
theorem this_is_enclosing_record_iff (u : SourceUnit) (name : String) (source : List Char)
    (parsed : Parsed) {path : List String} {owner : Option Record} {r : Record}
    {inner : List Decl} {f : Function}
    (hrecord : Decl.Within [] none (SourceFile.ofParsed name source parsed).decls path owner
      (.record r inner))
    (hf : .function f ∈ inner)
    (hindex : (ClassIndex.ofUnit u).get? r.qualifiedName = some r)
    (hplain : ∀ s ∈ r.innerScope, Name.Plain s) :
    ((Env.enter (Symbols.ofUnit u) f).thisClass = some r.qualifiedName ∧
        (Env.enter (Symbols.ofUnit u) f).path = r.innerScope) ↔
      ¬(ClassIndex.ofUnit u).DeclaresAgain r := by
  have hnames := SourceFile.follows_ofParsed name source parsed
  obtain ⟨hscope, hname, -⟩ := hnames _ _ _ hrecord
  obtain ⟨hfscope, -, hfrecord⟩ := hnames _ _ _ (hrecord.inside hf)
  have hjoin : r.qualifiedName = Name.join r.innerScope := by
    rw [hname, Name.qualify, Record.innerScope, hscope]
  obtain ⟨hthis, hpath⟩ := Env.enter_frame (Symbols.ofUnit u) f
  have hinner : path ++ [r.name] = r.innerScope := by rw [Record.innerScope, hscope]
  rw [hfrecord r rfl, Option.bind_some, hfscope, hinner] at hthis
  rw [hfscope, hinner] at hpath
  have hknown := ClassIndex.contains_of_get? hindex
  obtain ⟨k, hk, hlater, hfound, hresolve⟩ :=
    ClassIndex.resolveType_join (by simp [Record.innerScope]) hplain (hjoin ▸ hknown) r.innerScope
  rw [← hjoin] at hlater hfound hresolve
  replace hthis := hthis.trans hresolve
  rcases Nat.eq_zero_or_pos k with rfl | hpos
  · rw [List.take_zero, Name.qualify_nil] at hthis
    have hfound : (Symbols.ofUnit u).index.get? r.qualifiedName = some r := hindex
    rw [hthis, Option.bind_some, hfound] at hpath
    refine ⟨fun _ ⟨j, hj, hle, hagain⟩ => ?_, fun _ => ⟨hthis, hpath⟩⟩
    rw [hlater j hj hle] at hagain
    exact absurd hagain (by simp)
  · refine ⟨fun ⟨hown, _⟩ => ?_, fun hnone => absurd ⟨k, hpos, hk, hfound⟩ hnone⟩
    have htake : r.innerScope.take k ≠ [] := by
      simp [Record.innerScope, Nat.ne_of_gt hpos]
    rw [hthis] at hown
    exact absurd (Option.some.inj hown) (Name.qualify_ne_self htake _)

section Example

open ParseTree

def methodTree (start : Nat) : ParseTree :=
  named "struct_specifier" start (start + 40)
    [filling "name" "type_identifier" (start + 7) (start + 8) [],
     filling "body" "field_declaration_list" (start + 8) (start + 40)
       [named "field_declaration" (start + 9) (start + 15)
          [filling "type" "primitive_type" (start + 9) (start + 12) [],
           filling "declarator" "field_identifier" (start + 13) (start + 14) []],
        named "function_definition" (start + 15) (start + 39)
          [filling "type" "primitive_type" (start + 15) (start + 18) [],
           filling "declarator" "function_declarator" (start + 19) (start + 22)
             [filling "declarator" "field_identifier" (start + 19) (start + 20) [],
              filling "parameters" "parameter_list" (start + 20) (start + 22) []],
           filling "body" "compound_statement" (start + 22) (start + 39)
             [named "return_statement" (start + 23) (start + 38)
                [named "field_expression" (start + 30) (start + 37)
                   [filling "argument" "this" (start + 30) (start + 34) [],
                    mark (some "operator") "->" (start + 34) (start + 36),
                    filling "field" "field_identifier" (start + 36) (start + 37) []]],
              mark none "\x7d" (start + 38) (start + 39)]],
        mark none "\x7d" (start + 39) (start + 40)]]

def methodFile : SourceFile :=
  .ofParsed "method.cpp" "struct B\x7bint x;int m()\x7breturn this->x;\x7d\x7d;".toList
    ⟨named "translation_unit" 0 41 [methodTree 0], false⟩

/-- Where the record is the only one, `this` is the record. -/
theorem this_is_enclosing_record_single :
    ∃ r f, Decl.Within [] none methodFile.decls [] none (.record r [.function f]) ∧
      (ClassIndex.ofUnit ⟨methodFile, []⟩).get? r.qualifiedName = some r ∧
      (∀ s ∈ r.innerScope, Name.Plain s) ∧
      (Env.enter (Symbols.ofUnit ⟨methodFile, []⟩) f).thisClass = some "B" ∧
      (Env.enter (Symbols.ofUnit ⟨methodFile, []⟩) f).path = ["B"] := by
  obtain ⟨r, f, hdecls⟩ : ∃ r f, methodFile.decls = [.record r [.function f]] := ⟨_, _, rfl⟩
  have hwithin : Decl.Within [] none methodFile.decls [] none (.record r [.function f]) :=
    .here (by rw [hdecls]; exact List.mem_singleton_self _)
  have hrecords : methodFile.records = [r] := by
    rw [SourceFile.records, hdecls]
    rfl
  have hall : ∀ q ∈ methodFile.records, (ClassIndex.ofUnit ⟨methodFile, []⟩).get? q.qualifiedName =
      some q ∧ (∀ s ∈ q.innerScope, Name.Plain s) ∧ q.qualifiedName = "B" ∧
      q.innerScope = ["B"] ∧ (ClassIndex.ofUnit ⟨methodFile, []⟩).contains
        (Name.qualify (q.innerScope.take 1) q.qualifiedName) = false := by decide
  rw [hrecords] at hall
  obtain ⟨hindex, hplain, hname, hinner, hnone⟩ := hall r (List.mem_singleton_self r)
  have hiff := this_is_enclosing_record_iff ⟨methodFile, []⟩ _ _ _ hwithin
    (List.mem_singleton_self _) hindex hplain
  obtain ⟨hthis, hpath⟩ := hiff.mpr fun ⟨k, hpos, hle, hagain⟩ => by
    rw [hinner] at hle
    obtain rfl : k = 1 := Nat.le_antisymm hle hpos
    rw [hnone] at hagain
    exact absurd hagain (by simp)
  exact ⟨r, f, hwithin, hindex, hplain, hname ▸ hthis, hinner ▸ hpath⟩

/-- A record `a::a::B` without methods and then the record `a::B`. -/
def twiceFile : SourceFile :=
  .ofParsed "twice.cpp"
    ("namespace a\x7bnamespace a\x7bstruct B\x7bint y;\x7d;\x7d" ++
      "struct B\x7bint x;int m()\x7breturn this->x;\x7d\x7d;\x7d").toList
    ⟨named "translation_unit" 0 84
      [named "namespace_definition" 0 84
         [filling "name" "namespace_identifier" 10 11 [],
          filling "body" "declaration_list" 11 84
            [named "namespace_definition" 12 42
               [filling "name" "namespace_identifier" 22 23 [],
                filling "body" "declaration_list" 23 42
                  [named "struct_specifier" 24 40
                     [filling "name" "type_identifier" 31 32 [],
                      filling "body" "field_declaration_list" 32 40
                        [named "field_declaration" 33 39
                           [filling "type" "primitive_type" 33 36 [],
                            filling "declarator" "field_identifier" 37 38 []],
                         mark none "\x7d" 39 40]],
                   mark none "\x7d" 41 42]],
             methodTree 42, mark none "\x7d" 83 84]]], false⟩

/-- The method of `a::B` is entered with `a::a::B` as `this`, so its `this->x` is no usage of
`a::B::x`, and it is left as it is. -/
theorem this_is_record_of_inner_scope :
    ∃ r f, Decl.Within [] none twiceFile.decls ["a"] none (.record r [.function f]) ∧
      r.qualifiedName = "a::B" ∧
      (ClassIndex.ofUnit ⟨twiceFile, []⟩).get? r.qualifiedName = some r ∧
      (∀ s ∈ r.innerScope, Name.Plain s) ∧
      (Env.enter (Symbols.ofUnit ⟨twiceFile, []⟩) f).thisClass = some "a::a::B" ∧
      (Env.enter (Symbols.ofUnit ⟨twiceFile, []⟩) f).path = ["a", "a", "B"] ∧
      (Accessors.scan (.ofUnit ["a::B::x"] ⟨twiceFile, []⟩) [f]).queue = [] := by
  obtain ⟨q, r, f, hdecls⟩ : ∃ q r f, twiceFile.decls =
      [.space (some "a") [.space (some "a") [.record q []], .record r [.function f]]] :=
    ⟨_, _, _, rfl⟩
  have hwithin : Decl.Within [] none twiceFile.decls ["a"] none (.record r [.function f]) := by
    rw [hdecls]
    exact .space (List.mem_singleton_self _) (.here (by simp))
  have hrecords : twiceFile.records = [q, r] := by
    rw [SourceFile.records, hdecls]
    rfl
  have hfunctions : twiceFile.functions = [f] := by
    rw [SourceFile.functions, hdecls]
    rfl
  have hrecord : ∀ r ∈ twiceFile.records.getLast?, r.qualifiedName = "a::B" ∧
      (ClassIndex.ofUnit ⟨twiceFile, []⟩).get? r.qualifiedName = some r ∧
      ∀ s ∈ r.innerScope, Name.Plain s := by decide +kernel
  have hmethod : ∀ f ∈ twiceFile.functions,
      (Env.enter (Symbols.ofUnit ⟨twiceFile, []⟩) f).thisClass = some "a::a::B" ∧
        (Env.enter (Symbols.ofUnit ⟨twiceFile, []⟩) f).path = ["a", "a", "B"] ∧
        (Accessors.scan (.ofUnit ["a::B::x"] ⟨twiceFile, []⟩) [f]).queue = [] := by
    decide +kernel
  rw [hrecords] at hrecord
  rw [hfunctions] at hmethod
  obtain ⟨hname, hindex, hplain⟩ := hrecord r rfl
  obtain ⟨hthis, hpath, hqueue⟩ := hmethod f (List.mem_singleton_self f)
  exact ⟨r, f, hwithin, hname, hindex, hplain, hthis, hpath, hqueue⟩

end Example

end Encapsulate.Cpp
