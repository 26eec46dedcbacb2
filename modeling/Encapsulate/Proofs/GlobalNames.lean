import Encapsulate.Cpp.Typing
import Encapsulate.Proofs.EnclosingRecord
import Encapsulate.Proofs.Survey
import Mathlib.Algebra.Ring.Nat

/-!
Names behind a leading separator. Such a type is looked up without regard to the scope in which
it is written. For variables and free functions only the separator is taken away, and the rest
is looked for in the enclosing scopes as ever, so the global entry is found exactly if none of
them has an entry of that name, or one of the same class.
-/

namespace Encapsulate

namespace Text

def IsWord (w : List Char) : Prop :=
  w ≠ [] ∧ ∀ c ∈ w, isBlank c = false

theorem splitWord_cons_blank {b : Char} (hb : isBlank b = true) (cs : List Char) :
    splitWord (b :: cs) = ([], words cs) := by
  simp [splitWord, words, hb]

theorem splitWord_cons {c : Char} (hc : isBlank c = false) (cs : List Char) :
    splitWord (c :: cs) = (c :: (splitWord cs).1, (splitWord cs).2) := by
  simp [splitWord, hc]

theorem splitWord_append {w : List Char} (hw : ∀ c ∈ w, isBlank c = false) (cs : List Char) :
    splitWord (w ++ cs) = (w ++ (splitWord cs).1, (splitWord cs).2) := by
  induction w with
  | nil => rfl
  | cons c w ih =>
    obtain ⟨hc, hw⟩ := List.forall_mem_cons.mp hw
    rw [List.cons_append, splitWord_cons hc, ih hw, List.cons_append]

/-- A word ends at the next blank. -/
theorem words_append_blank {w : List Char} (hw : IsWord w) {b : Char} (hb : isBlank b = true)
    (cs : List Char) : words (w ++ b :: cs) = w :: words cs := by
  have hsplit : splitWord (w ++ b :: cs) = (w, words cs) := by
    rw [splitWord_append hw.2, splitWord_cons_blank hb, List.append_nil]
  have hne : w.isEmpty = false := by simp [hw.1]
  rw [words, hsplit]
  simp only [hne, Bool.false_eq_true, if_false]

theorem mem_words {cs w : List Char} (h : w ∈ words cs) :
    (w = (splitWord cs).1 ∧ w ≠ []) ∨ w ∈ (splitWord cs).2 := by
  rw [words] at h
  simp only at h
  split at h
  · exact Or.inr h
  · rename_i hne
    rcases List.mem_cons.mp h with rfl | h
    · exact Or.inl ⟨rfl, by simpa using hne⟩
    · exact Or.inr h

theorem isWord_of_mem_words {cs w : List Char} (h : w ∈ words cs) : IsWord w := by
  have hsplit : ∀ cs : List Char, (∀ c ∈ (splitWord cs).1, isBlank c = false) ∧
      ∀ w ∈ (splitWord cs).2, IsWord w := by
    intro cs
    induction cs with
    | nil => simp [splitWord]
    | cons c cs ih =>
      obtain ⟨hword, hlater⟩ := ih
      cases hc : isBlank c with
      | false =>
        rw [splitWord_cons hc]
        exact ⟨List.forall_mem_cons.mpr ⟨hc, hword⟩, hlater⟩
      | true =>
        rw [splitWord_cons_blank hc]
        refine ⟨by simp, fun w hw => ?_⟩
        rcases mem_words hw with ⟨rfl, hne⟩ | hw
        · exact ⟨hne, hword⟩
        · exact hlater w hw
  rcases mem_words h with ⟨rfl, hne⟩ | h
  · exact ⟨hne, (hsplit cs).1⟩
  · exact (hsplit cs).2 w h

/-- The words of a text have room in it with a blank behind each but the last. -/
theorem sum_words_le (cs : List Char) : ((words cs).map (·.length + 1)).sum ≤ cs.length + 1 := by
  have hwords : ∀ cs : List Char, ((words cs).map (·.length + 1)).sum ≤
      (splitWord cs).1.length + 1 + ((splitWord cs).2.map (·.length + 1)).sum := by
    intro cs
    rw [words]
    simp only
    split
    · omega
    · simp
  have hsplit : (splitWord cs).1.length + ((splitWord cs).2.map (·.length + 1)).sum ≤
      cs.length := by
    induction cs with
    | nil => simp [splitWord]
    | cons c cs ih =>
      cases hc : isBlank c with
      | false =>
        simp only [splitWord_cons hc, List.length_cons]
        omega
      | true =>
        have hle := hwords cs
        simp only [splitWord_cons_blank hc, List.length_nil, List.length_cons]
        omega
  have hle := hwords cs
  omega

end Text

namespace Cpp

open Encapsulate.Tree ParseTree

section Words

open Text

theorem joinWords_cons_cons (w v : List Char) (ws : List (List Char)) :
    joinWords (w :: v :: ws) = w ++ ' ' :: joinWords (v :: ws) :=
  rfl

theorem joinWords_append (prefixed w : List Char) (ws : List (List Char)) :
    joinWords ((prefixed ++ w) :: ws) = prefixed ++ joinWords (w :: ws) := by
  cases ws with
  | nil => rfl
  | cons v ws => rw [joinWords_cons_cons, joinWords_cons_cons, List.append_assoc]

theorem words_joinWords {ws : List (List Char)} (h : ∀ w ∈ ws, IsWord w) :
    words (joinWords ws) = ws := by
  induction ws with
  | nil => rfl
  | cons w ws ih =>
    obtain ⟨hw, hws⟩ := List.forall_mem_cons.mp h
    cases ws with
    | nil => exact words_eq_singleton hw.1 hw.2
    | cons v ws => rw [joinWords_cons_cons, words_append_blank hw (by decide), ih hws]

theorem length_joinWords (w : List Char) (ws : List (List Char)) :
    (joinWords (w :: ws)).length + 1 = ((w :: ws).map (·.length + 1)).sum := by
  induction ws generalizing w with
  | nil => simp [joinWords]
  | cons v ws ih =>
    rw [joinWords_cons_cons, List.map_cons, List.sum_cons, ← ih v, List.length_append,
      List.length_cons]
    omega

theorem length_joinWords_le {cs : List Char} {ws : List (List Char)}
    (h : ws.Sublist (words cs)) : (joinWords ws).length ≤ cs.length := by
  cases ws with
  | nil => exact Nat.zero_le _
  | cons w ws =>
    have hsum : ((w :: ws).map (·.length + 1)).sum ≤ ((words cs).map (·.length + 1)).sum := by
      generalize w :: ws = kept at h
      generalize words cs = all at h
      induction h with
      | slnil => exact Nat.le_refl _
      | cons v _ ih =>
        rw [List.map_cons, List.sum_cons]
        omega
      | cons_cons v _ ih =>
        rw [List.map_cons, List.sum_cons, List.map_cons, List.sum_cons]
        omega
    have hjoin := length_joinWords w ws
    have hwords := sum_words_le cs
    omega

theorem dropGlobal_suffix (cs : List Char) : Name.dropGlobal cs <:+ cs := by
  fun_induction Name.dropGlobal cs with
  | case1 cs ih => exact ih.trans ((List.suffix_cons _ _).trans (List.suffix_cons _ _))
  | case2 cs => exact List.suffix_refl cs

theorem withoutArgumentsFrom_sublist (depth : Nat) (cs : List Char) :
    (withoutArgumentsFrom depth cs).Sublist cs := by
  fun_induction withoutArgumentsFrom depth cs with
  | case1 => exact List.Sublist.refl _
  | case2 _ _ ih => exact ih.cons _
  | case3 _ _ ih => exact ih.cons _
  | case4 _ _ _ _ ih => exact ih.cons_cons _
  | case5 _ _ _ _ _ _ ih => exact ih.cons _

/-- A text that is looked up as it stands consists of the words that count, has no angle
brackets and does not begin with a separator: each stage of the reduction makes a text shorter
or keeps it. -/
theorem lookupChars_stages {cs : List Char} (h : lookupChars cs = cs) :
    withoutArgumentsFrom 0 cs = cs ∧
      joinWords ((words cs).filter (!qualifierWords.contains ·)) = cs ∧
      Name.dropGlobal cs = cs := by
  have hwords : (joinWords ((words (withoutArgumentsFrom 0 cs)).filter
      (!qualifierWords.contains ·))).length ≤ (withoutArgumentsFrom 0 cs).length :=
    length_joinWords_le List.filter_sublist
  have harguments := withoutArgumentsFrom_sublist 0 cs
  have hsuffix := dropGlobal_suffix
    (joinWords ((words (withoutArgumentsFrom 0 cs)).filter (!qualifierWords.contains ·)))
  have hlength := congrArg List.length h
  rw [lookupChars] at h hlength
  have hcs : withoutArgumentsFrom 0 cs = cs :=
    harguments.eq_of_length_le (by have := hsuffix.length_le; omega)
  rw [hcs] at h hlength hwords hsuffix
  have hjoin := hsuffix.eq_of_length_le (by omega)
  rw [h] at hjoin
  exact ⟨hcs, hjoin.symm, by rw [← hjoin] at h; exact h⟩

/-- A name that is looked up as it stands is looked up so behind a separator as well. -/
theorem lookupName_global {name : String} (hne : name ≠ "") (h : lookupName name = name) :
    lookupName ("::" ++ name) = name := by
  have hchars : lookupChars name.toList = name.toList := by
    have := congrArg String.toList h
    rwa [lookupName, String.toList_ofList] at this
  obtain ⟨harguments, hjoin, hglobal⟩ := lookupChars_stages hchars
  obtain ⟨w, ws, hws⟩ : ∃ w ws,
      (words name.toList).filter (!qualifierWords.contains ·) = w :: ws := by
    refine List.exists_cons_of_ne_nil fun hnil => hne ?_
    rw [hnil] at hjoin
    exact String.toList_eq_nil_iff.mp hjoin.symm
  have hkept : ∀ v ∈ w :: ws, IsWord v ∧ qualifierWords.contains v = false := by
    intro v hv
    rw [← hws] at hv
    obtain ⟨hv, hcounts⟩ := List.mem_filter.mp hv
    exact ⟨isWord_of_mem_words hv, by simpa using hcounts⟩
  obtain ⟨⟨hw, -⟩, htail⟩ := List.forall_mem_cons.mp hkept
  rw [hws] at hjoin
  -- the separator belongs to the first word, which counts with it too
  have hwords : words ("::".toList ++ name.toList) = ("::".toList ++ w) :: ws := by
    rw [← hjoin, ← joinWords_append]
    refine words_joinWords (List.forall_mem_cons.mpr ⟨⟨by simp, ?_⟩, fun v hv => (htail v hv).1⟩)
    have hcolon : isBlank ':' = false := by decide
    exact List.forall_mem_cons.mpr ⟨hcolon, List.forall_mem_cons.mpr ⟨hcolon, hw.2⟩⟩
  have hfilter : (words ("::".toList ++ name.toList)).filter (!qualifierWords.contains ·) =
      ("::".toList ++ w) :: ws := by
    have hfirst : qualifierWords.contains ("::".toList ++ w) = false := by
      have hnone : ∀ v ∈ qualifierWords, ':' ∉ v := by decide
      simpa using fun hmem => hnone _ hmem (by simp)
    rw [hwords, List.filter_eq_self]
    refine List.forall_mem_cons.mpr ⟨by rw [hfirst]; rfl, fun v hv => ?_⟩
    rw [(htail v hv).2]
    rfl
  have hbrackets : withoutArgumentsFrom 0 ("::".toList ++ name.toList) =
      "::".toList ++ name.toList := by
    rw [show "::".toList ++ name.toList = ':' :: ':' :: name.toList from rfl,
      withoutArgumentsFrom.eq_4 _ _ _ (by decide) (by decide), if_pos rfl,
      withoutArgumentsFrom.eq_4 _ _ _ (by decide) (by decide), if_pos rfl, harguments]
  rw [lookupName, lookupChars, String.toList_append, hbrackets, hfilter, joinWords_append, hjoin]
  exact (congrArg String.ofList hglobal).trans String.ofList_toList

end Words

/-- A search from the largest number down to zero stops at the largest that gives something, or
gives what zero gives. -/
theorem findSome?_range_reverse {α : Type} (p : Nat → Option α) (n : Nat) :
    (∃ k a, 0 < k ∧ k ≤ n ∧ p k = some a ∧ (∀ j, k < j → j ≤ n → p j = none) ∧
      (List.range (n + 1)).reverse.findSome? p = some a) ∨
    ((∀ k, 0 < k → k ≤ n → p k = none) ∧ (List.range (n + 1)).reverse.findSome? p = p 0) := by
  induction n with
  | zero => exact Or.inr ⟨fun k hpos hle => by omega, by simp⟩
  | succ n ih =>
    rw [List.range_succ, List.reverse_append, List.reverse_singleton, List.singleton_append]
    cases hp : p (n + 1) with
    | some a =>
      exact Or.inl ⟨n + 1, a, Nat.succ_pos n, Nat.le_refl _, hp, fun j hj hle => by omega,
        List.findSome?_cons_of_isSome (by simp [hp]) |>.trans hp⟩
    | none =>
      have hnext : ∀ j, j ≤ n + 1 → (j ≤ n → p j = none) → p j = none := by
        intro j hle hj
        rcases Nat.lt_or_eq_of_le hle with hlt | rfl
        · exact hj (Nat.le_of_lt_succ hlt)
        · exact hp
      rw [List.findSome?_cons_of_isNone (by simp [hp])]
      rcases ih with ⟨k, a, hpos, hk, ha, hlater, hfind⟩ | ⟨hnone, hfind⟩
      · exact Or.inl ⟨k, a, hpos, Nat.le_succ_of_le hk, ha,
          fun j hj hle => hnext j hle (hlater j hj), hfind⟩
      · exact Or.inr ⟨fun k hpos hle => hnext k hle (hnone k hpos), hfind⟩

namespace ClassIndex

theorem map_get? (index : ClassIndex) (name : String) :
    (index.get? name).map (·.qualifiedName) = if index.contains name then some name else none := by
  cases hr : index.get? name with
  | none =>
    have hcontains : index.contains name = false := by
      simpa [contains, get?] using hr
    rw [hcontains]
    rfl
  | some r =>
    have hname := List.find?_some (p := fun q : Record => q.qualifiedName == name) hr
    rw [contains_of_get? hr, if_pos rfl, Option.map_some, beq_iff_eq.mp hname]

/-- A type behind a separator is the record of this name, in whatever scope it is written. -/
theorem resolveType_global (index : ClassIndex) {name : String} (hne : name ≠ "")
    (hlookup : lookupName name = name) (scope : List String) :
    index.resolveType ("::" ++ name) scope = (index.get? name).map (·.qualifiedName) := by
  have hnonempty : name.isEmpty = false := by simpa using hne
  have hseparator : [':', ':'].isPrefixOf (Text.trimStart ("::" ++ name).toList) = true := by
    rw [String.toList_append, Text.trimStart]
    rfl
  rw [map_get?, resolveType, lookupName_global hne hlookup]
  simp only [hnonempty, hseparator, Bool.false_eq_true, if_false, if_true]

end ClassIndex

/-- The entry that a name has in the innermost enclosing scope with such an entry. The global scope
encloses nothing here. -/
def EnclosingEntry (names : List (String × Option String)) (path : List String) (name : String)
    (entry : Option String) : Prop :=
  ∃ k, 0 < k ∧ k ≤ path.length ∧ names.lookup (Name.qualify (path.take k) name) = some entry ∧
    ∀ j, k < j → j ≤ path.length → names.lookup (Name.qualify (path.take j) name) = none

section Entries

variable {names : List (String × Option String)} {path : List String} {name : String}
  {entry other : Option String}

theorem EnclosingEntry.unique (h : EnclosingEntry names path name entry)
    (hother : EnclosingEntry names path name other) : entry = other := by
  obtain ⟨k, -, hk, hentry, hlater⟩ := h
  obtain ⟨j, -, hj, hentry', hlater'⟩ := hother
  rcases Nat.lt_trichotomy k j with hlt | rfl | hlt
  · rw [hlater j hlt hj] at hentry'
    exact absurd hentry' (by simp)
  · exact Option.some.inj (hentry.symm.trans hentry')
  · rw [hlater' k hlt hk] at hentry
    exact absurd hentry (by simp)

theorem not_enclosingEntry_singleton {space : String}
    (hnone : names.lookup (Name.qualify [space] name) = none) :
    ¬ EnclosingEntry names [space] name entry := by
  rintro ⟨k, hpos, hk, hentry, -⟩
  obtain rfl : k = 1 := Nat.le_antisymm hk hpos
  rw [List.take_succ_cons, List.take_zero, hnone] at hentry
  exact absurd hentry (by simp)

theorem isQualified_global (name : String) : Name.isQualified ("::" ++ name) = true := by
  rw [Name.isQualified, String.toList_append]
  rfl

theorem withoutGlobal_append (name : String) :
    Name.withoutGlobal ("::" ++ name) = Name.withoutGlobal name := by
  rw [Name.withoutGlobal, String.toList_append]
  rfl

namespace Env

/-- The separator in front of a name does not keep the enclosing scopes out: the innermost entry
comes first, and the global one last. -/
theorem lookupNamespace_global (env : Env) (names : List (String × Option String))
    (hname : Name.withoutGlobal name = name) :
    (∃ entry, EnclosingEntry names env.path name entry ∧
      env.lookupNamespace names ("::" ++ name) = some entry) ∨
    ((∀ entry, ¬ EnclosingEntry names env.path name entry) ∧
      env.lookupNamespace names ("::" ++ name) = names.lookup name) := by
  have hsearch : env.lookupNamespace names ("::" ++ name) =
      (List.range (env.path.length + 1)).reverse.findSome? fun k =>
        names.lookup (Name.qualify (env.path.take k) name) := by
    rw [lookupNamespace, withoutGlobal_append, hname, Name.candidates, List.findSome?_map]
    rfl
  rw [hsearch]
  rcases findSome?_range_reverse (fun k => names.lookup (Name.qualify (env.path.take k) name))
    env.path.length with ⟨k, entry, hpos, hk, hentry, hlater, hfind⟩ | ⟨hnone, hfind⟩
  · exact Or.inl ⟨entry, ⟨k, hpos, hk, hentry, hlater⟩, hfind⟩
  · refine Or.inr ⟨?_, ?_⟩
    · rintro entry ⟨k, hpos, hk, hentry, -⟩
      rw [hnone k hpos hk] at hentry
      exact absurd hentry (by simp)
    · rw [hfind, List.take_zero, Name.qualify_nil]

/-- What is found behind a separator has the class of the global entry exactly if the entry of
the enclosing scopes, where there is one, has this class too. -/
theorem lookupNamespace_global_iff (env : Env) (names : List (String × Option String))
    (hname : Name.withoutGlobal name = name) :
    (env.lookupNamespace names ("::" ++ name)).join = (names.lookup name).join ↔
      ∀ entry, EnclosingEntry names env.path name entry → entry = (names.lookup name).join := by
  rcases env.lookupNamespace_global names hname with
    ⟨found, hfound, hlookup⟩ | ⟨hnone, hlookup⟩
  · rw [hlookup, Option.join_some]
    constructor
    · rintro rfl entry hentry
      exact hentry.unique hfound
    · exact fun h => h found hfound
  · rw [hlookup]
    exact iff_of_true rfl fun entry hentry => absurd hentry (hnone entry)

/-- Behind a separator a name is no local variable and no field of `this`. -/
theorem classOf_global_variable (env : Env) (symbols : Symbols) {c : Code}
    (hshape : c.shape = .identifier ("::" ++ name)) :
    env.classOf symbols c = (env.lookupNamespace symbols.globals ("::" ++ name)).join := by
  obtain ⟨i, cs⟩ := c
  have hvariable : i.shape = .identifier ("::" ++ name) := hshape
  rw [classOf, hvariable]
  simp only [lookup, isQualified_global, if_true, lookupGlobal]
  cases env.lookupNamespace symbols.globals ("::" ++ name) <;> rfl

/-- Where some function is known under the name behind the separator, a call is neither that of a
method nor that of a constructor. -/
theorem classOf_global_call (env : Env) (symbols : Symbols) {i : CodeNode} {callee : Code}
    (args : List Code) (hcall : i.shape = .call)
    (hshape : callee.shape = .identifier ("::" ++ name))
    (hname : Name.withoutGlobal name = name)
    (hknown : (symbols.functions.lookup name).isSome = true) :
    env.classOf symbols (.node i (callee :: args)) =
      (env.lookupNamespace symbols.functions ("::" ++ name)).join := by
  obtain ⟨j, cs⟩ := callee
  have hidentifier : j.shape = .identifier ("::" ++ name) := hshape
  have hforwarding : forwarding.contains ("::" ++ name) = false := by
    have hnone : ∀ f ∈ forwarding, f.toList.head? ≠ some ':' := by decide
    simpa using fun hmem => hnone _ hmem (by simp)
  have hmethod : env.implicitMethod symbols ("::" ++ name) = none := by
    simp [implicitMethod, isQualified_global]
  obtain ⟨found, hfound⟩ : ∃ found, env.lookupNamespace symbols.functions ("::" ++ name) =
      some found := by
    rcases env.lookupNamespace_global symbols.functions hname with
      ⟨found, -, hlookup⟩ | ⟨-, hlookup⟩
    · exact ⟨found, hlookup⟩
    · rw [hlookup]
      exact Option.isSome_iff_exists.mp hknown
  rw [classOf, hcall]
  simp only [classOfCall, classOfCallee, hidentifier, callClass, hforwarding, hmethod, hfound]
  rfl

end Env

/-- A name behind a separator. As a type it is the global record of this name in every scope. As a
variable it has the class of the global variable exactly if no enclosing scope has a variable of
this name, or the innermost that has one gives it the same class; and so with the call of a free
function that is known under this name. -/
theorem global_name_iff (symbols : Symbols) (env : Env) (name : String)
    (hname : Name.withoutGlobal name = name) :
    (name ≠ "" → lookupName name = name → ∀ scope,
      symbols.index.resolveType ("::" ++ name) scope =
        (symbols.index.get? name).map (·.qualifiedName)) ∧
    (∀ c : Code, c.shape = .identifier ("::" ++ name) →
      (env.classOf symbols c = (symbols.globals.lookup name).join ↔
        ∀ entry, EnclosingEntry symbols.globals env.path name entry →
          entry = (symbols.globals.lookup name).join)) ∧
    ∀ (i : CodeNode) (callee : Code) (args : List Code) (known : Option String),
      i.shape = .call → callee.shape = .identifier ("::" ++ name) →
      symbols.functions.lookup name = some known →
      (env.classOf symbols (.node i (callee :: args)) = known ↔
        ∀ entry, EnclosingEntry symbols.functions env.path name entry → entry = known) := by
  refine ⟨fun hne hlookup scope => symbols.index.resolveType_global hne hlookup scope, ?_, ?_⟩
  · intro c hshape
    rw [Env.classOf_global_variable env symbols hshape]
    exact env.lookupNamespace_global_iff symbols.globals hname
  · intro i callee args known hcall hshape hknown
    have hiff := env.lookupNamespace_global_iff symbols.functions hname
    rw [hknown, Option.join_some] at hiff
    rw [Env.classOf_global_call env symbols args hcall hshape hname (by simp [hknown])]
    exact hiff

end Entries

section Example

/-- Two records, a variable and a function beside a namespace with a variable of the same name
and a function that writes to the global one. -/
def globalsText : List Char :=
  ("struct A\x7bint x;\x7d;struct B\x7bint x;\x7d;A g;A h();namespace ns\x7bB g;void f()" ++
    "\x7b::g.x=1;\x7d\x7d").toList

def pointTree (start : Nat) : ParseTree :=
  named "struct_specifier" start (start + 16)
    [filling "name" "type_identifier" (start + 7) (start + 8) [],
     filling "body" "field_declaration_list" (start + 8) (start + 16)
       [named "field_declaration" (start + 9) (start + 15)
          [filling "type" "primitive_type" (start + 9) (start + 12) [],
           filling "declarator" "field_identifier" (start + 13) (start + 14) []],
        mark none "\x7d" (start + 15) (start + 16)]]

def pointVariable (start : Nat) : ParseTree :=
  named "declaration" start (start + 4)
    [filling "type" "type_identifier" start (start + 1) [],
     filling "declarator" "identifier" (start + 2) (start + 3) []]

def plainDeclarator (start : Nat) : ParseTree :=
  filling "declarator" "function_declarator" start (start + 3)
    [filling "declarator" "identifier" start (start + 1) [],
     filling "parameters" "parameter_list" (start + 1) (start + 3) []]

def globalsTree : ParseTree :=
  named "translation_unit" 0 80
    [pointTree 0, pointTree 17, pointVariable 34,
     named "declaration" 38 44
       [filling "type" "type_identifier" 38 39 [], plainDeclarator 40],
     named "namespace_definition" 44 80
       [filling "name" "namespace_identifier" 54 56 [],
        filling "body" "declaration_list" 56 80
          [pointVariable 57,
           named "function_definition" 61 79
             [filling "type" "primitive_type" 61 65 [], plainDeclarator 66,
              filling "body" "compound_statement" 69 79
                [named "expression_statement" 70 78
                   [named "assignment_expression" 70 77
                      [filling "left" "field_expression" 70 75
                         [filling "argument" "qualified_identifier" 70 73
                            [filling "name" "identifier" 72 73 []],
                          mark (some "operator") "." 73 74,
                          filling "field" "field_identifier" 74 75 []],
                       mark (some "operator") "=" 75 76,
                       filling "right" "number_literal" 76 77 []]],
                 mark none "\x7d" 78 79]],
           mark none "\x7d" 79 80]]]

def globalsFile : SourceFile :=
  .ofParsed "globals.cpp" globalsText ⟨globalsTree, false⟩

def nameCode (name : String) : Code :=
  .node ⟨.item, .identifier name, ⟨0, 0⟩⟩ []

/-- In the namespace `ns` the type `::A` and the call `::h()` mean what they mean outside, and so
does the variable `::g` in a namespace `m`, where there is no other. -/
theorem global_name_iff_undisturbed :
    let symbols := Symbols.ofUnit ⟨globalsFile, []⟩
    symbols.index.resolveType "::A" ["ns"] = some "A" ∧
      Env.classOf { path := ["m"] } symbols (nameCode "::g") = some "A" ∧
      Env.classOf { path := ["ns"] } symbols
        (.node ⟨.item, .call, ⟨0, 0⟩⟩ [nameCode "::h"]) = some "A" := by
  intro symbols
  have hrecord : (symbols.index.get? "A").map (·.qualifiedName) = some "A" := by decide +kernel
  have hglobals : symbols.globals = [("g", some "A"), ("ns::g", some "B")] := by decide +kernel
  have hfunctions : symbols.functions = [("h", some "A"), ("ns::f", none)] := by decide +kernel
  obtain ⟨htype, -, -⟩ := global_name_iff symbols {} "A" (by decide)
  obtain ⟨-, hvariable, -⟩ := global_name_iff symbols { path := ["m"] } "g" (by decide)
  obtain ⟨-, -, hcall⟩ := global_name_iff symbols { path := ["ns"] } "h" (by decide)
  have hinner : symbols.globals.lookup (Name.qualify ["m"] "g") = none := by
    rw [hglobals]
    decide
  have hinner' : symbols.functions.lookup (Name.qualify ["ns"] "h") = none := by
    rw [hfunctions]
    decide
  refine ⟨(htype (by decide) (by decide) ["ns"]).trans hrecord, ?_, ?_⟩
  · have hknown : (symbols.globals.lookup "g").join = some "A" := by rw [hglobals]; decide
    have hclass := (hvariable (nameCode "::g") rfl).mpr fun entry hentry =>
      absurd hentry (not_enclosingEntry_singleton hinner)
    exact hclass.trans hknown
  · have hknown : symbols.functions.lookup "h" = some (some "A") := by rw [hfunctions]; decide
    exact (hcall _ (nameCode "::h") [] _ rfl rfl hknown).mpr fun entry hentry =>
      absurd hentry (not_enclosingEntry_singleton hinner')

/-- In the namespace `ns` the variable `::g` is taken for `ns::g`, so that the write to the
field of the global variable is not found. -/
theorem global_variable_taken_for_inner :
    let symbols := Symbols.ofUnit ⟨globalsFile, []⟩
    (symbols.globals.lookup "g").join = some "A" ∧
      globalsFile.functions.map (fun f => (f.qualifiedName, (Env.enter symbols f).path,
          (Env.enter symbols f).classOf symbols (nameCode "::g"))) =
        [("h", [], some "A"), ("ns::f", ["ns"], some "B")] ∧
      (Accessors.select ["A::x"] ⟨globalsFile, []⟩).targets.length = 1 ∧
      (Accessors.scan (.ofUnit ["A::x"] ⟨globalsFile, []⟩) globalsFile.functions).queue = [] := by
  decide +kernel

end Example

end Cpp

end Encapsulate
