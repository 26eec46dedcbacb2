import Encapsulate.Proofs.GlobalNames

/-!
Which lookup names are normal forms. The reduction of a written type takes away template
arguments, then the words that do not belong to the name, and leading separators last. What the
separators were written in front of is not looked at again: a blank behind them becomes the
first character of the name, and a qualifier written right behind them becomes its first word.
In all other cases the name is reduced to itself, and a record of that name is found under it.
-/

namespace Encapsulate.Cpp

section Reduction

open Text

def nameWords (written : List Char) : List (List Char) :=
  (words (withoutArgumentsFrom 0 written)).filter (!qualifierWords.contains ·)

/-- A word that the reduction of a written type keeps. -/
structure IsNameWord (w : List Char) : Prop where
  word : IsWord w
  angle : ∀ c ∈ w, c ≠ '<' ∧ c ≠ '>'
  counts : w ∉ qualifierWords

theorem not_angle_of_mem_withoutArgumentsFrom {depth : Nat} {cs : List Char} {c : Char}
    (h : c ∈ withoutArgumentsFrom depth cs) : c ≠ '<' ∧ c ≠ '>' := by
  fun_induction withoutArgumentsFrom depth cs with
  | case1 => simp at h
  | case2 _ _ ih => exact ih h
  | case3 _ _ ih => exact ih h
  | case4 d cs hopen hclose ih =>
    rcases List.mem_cons.mp h with rfl | h
    · exact ⟨hopen, hclose⟩
    · exact ih h
  | case5 _ _ _ _ _ _ ih => exact ih h

theorem mem_of_mem_splitWord (cs : List Char) :
    (∀ c ∈ (splitWord cs).1, c ∈ cs) ∧ ∀ w ∈ (splitWord cs).2, ∀ c ∈ w, c ∈ cs := by
  induction cs with
  | nil => simp [splitWord]
  | cons b cs ih =>
    obtain ⟨hword, hlater⟩ := ih
    cases hb : isBlank b with
    | false =>
      rw [splitWord_cons hb]
      refine ⟨fun c hc => ?_, fun w hw c hc => List.mem_cons_of_mem b (hlater w hw c hc)⟩
      rcases List.mem_cons.mp hc with rfl | hc
      · exact List.mem_cons_self
      · exact List.mem_cons_of_mem b (hword c hc)
    | true =>
      rw [splitWord_cons_blank hb]
      refine ⟨by simp, fun w hw c hc => List.mem_cons_of_mem b ?_⟩
      rcases mem_words hw with ⟨rfl, -⟩ | hw
      · exact hword c hc
      · exact hlater w hw c hc

/-- The characters of a word are characters of the text. -/
theorem mem_of_mem_words {cs w : List Char} (h : w ∈ words cs) {c : Char} (hc : c ∈ w) :
    c ∈ cs := by
  obtain ⟨hword, hlater⟩ := mem_of_mem_splitWord cs
  rcases mem_words h with ⟨rfl, -⟩ | hw
  · exact hword c hc
  · exact hlater w hw c hc

theorem isNameWord_of_mem_nameWords {written w : List Char} (h : w ∈ nameWords written) :
    IsNameWord w := by
  obtain ⟨hw, hcounts⟩ := List.mem_filter.mp h
  exact ⟨isWord_of_mem_words hw,
    fun c hc => not_angle_of_mem_withoutArgumentsFrom (mem_of_mem_words hw hc),
    by simpa using hcounts⟩

theorem mem_joinWords {ws : List (List Char)} {c : Char} (h : c ∈ joinWords ws) :
    c = ' ' ∨ ∃ w ∈ ws, c ∈ w := by
  induction ws with
  | nil => simp [joinWords] at h
  | cons w ws ih =>
    cases ws with
    | nil => exact .inr ⟨w, List.mem_singleton_self w, h⟩
    | cons v ws =>
      rw [joinWords_cons_cons] at h
      rcases List.mem_append.mp h with h | h
      · exact .inr ⟨w, List.mem_cons_self, h⟩
      rcases List.mem_cons.mp h with rfl | h
      · exact .inl rfl
      · rcases ih h with hc | ⟨u, hu, hcu⟩
        · exact .inl hc
        · exact .inr ⟨u, List.mem_cons_of_mem w hu, hcu⟩

/-- Words that are kept are read back from the text in which they are joined. -/
theorem nameWords_joinWords {ws : List (List Char)} (h : ∀ w ∈ ws, IsNameWord w) :
    nameWords (joinWords ws) = ws := by
  have hangle : ∀ c ∈ joinWords ws, c ≠ '<' ∧ c ≠ '>' := by
    intro c hc
    rcases mem_joinWords hc with rfl | ⟨w, hw, hcw⟩
    · decide
    · exact (h w hw).angle c hcw
  rw [nameWords, withoutArgumentsFrom_eq_self hangle, words_joinWords fun w hw => (h w hw).word,
    List.filter_eq_self]
  intro w hw
  simpa using (h w hw).counts

/-- Separators are taken from the front of the first of two parts alone, unless the second begins
with a colon. -/
theorem dropGlobal_append (cs : List Char) {rest : List Char} (h : ∀ cs, rest ≠ ':' :: cs) :
    Name.dropGlobal (cs ++ rest) = Name.dropGlobal cs ++ rest := by
  fun_induction Name.dropGlobal cs with
  | case1 cs ih => simpa [Name.dropGlobal] using ih
  | case2 cs hcs =>
    refine Name.dropGlobal.eq_2 _ fun later hlater => ?_
    cases cs with
    | nil => exact h _ hlater
    | cons a cs =>
      obtain ⟨rfl, htail⟩ := List.cons.inj hlater
      cases cs with
      | nil => exact h later htail
      | cons b cs =>
        obtain ⟨rfl, -⟩ := List.cons.inj htail
        exact hcs cs rfl

theorem dropGlobal_joinWords (w : List Char) (ws : List (List Char)) :
    Name.dropGlobal (joinWords (w :: ws)) = joinWords (Name.dropGlobal w :: ws) := by
  cases ws with
  | nil => rfl
  | cons v ws =>
    rw [joinWords_cons_cons, joinWords_cons_cons, dropGlobal_append w (by simp)]

theorem dropGlobal_dropGlobal (cs : List Char) :
    Name.dropGlobal (Name.dropGlobal cs) = Name.dropGlobal cs := by
  fun_induction Name.dropGlobal cs with
  | case1 cs ih => exact ih
  | case2 cs hcs => exact Name.dropGlobal.eq_2 cs hcs

theorem lookupChars_of_nil {written : List Char} (h : nameWords written = []) :
    lookupChars written = [] := by
  rw [nameWords] at h
  rw [lookupChars, h]
  rfl

theorem lookupChars_of_cons {written w : List Char} {ws : List (List Char)}
    (h : nameWords written = w :: ws) :
    lookupChars written = joinWords (Name.dropGlobal w :: ws) := by
  rw [nameWords] at h
  rw [lookupChars, h, dropGlobal_joinWords]

/-- The name begins with a word of separators only, with more words behind it, as in `:: Foo`. -/
def BareSeparator (written : List Char) : Prop :=
  ∃ w ws, nameWords written = w :: ws ∧ Name.dropGlobal w = [] ∧ ws ≠ []

/-- The name begins with separators right in front of a word that does not belong to it, as in
`::const Foo`. -/
def CoveredQualifier (written : List Char) : Prop :=
  ∃ w ws, nameWords written = w :: ws ∧ Name.dropGlobal w ∈ qualifierWords

section Beginning

variable {written w : List Char} {ws : List (List Char)}

theorem not_bareSeparator_of_nil (h : nameWords written = []) : ¬ BareSeparator written := by
  rintro ⟨w, ws, hcons, -⟩
  exact absurd (h.symm.trans hcons) (by simp)

theorem not_coveredQualifier_of_nil (h : nameWords written = []) :
    ¬ CoveredQualifier written := by
  rintro ⟨w, ws, hcons, -⟩
  exact absurd (h.symm.trans hcons) (by simp)

theorem bareSeparator_iff (h : nameWords written = w :: ws) :
    BareSeparator written ↔ Name.dropGlobal w = [] ∧ ws ≠ [] := by
  constructor
  · rintro ⟨w', ws', hcons, hbare⟩
    obtain ⟨rfl, rfl⟩ := List.cons.inj (h.symm.trans hcons)
    exact hbare
  · exact fun hbare => ⟨w, ws, h, hbare⟩

theorem coveredQualifier_iff (h : nameWords written = w :: ws) :
    CoveredQualifier written ↔ Name.dropGlobal w ∈ qualifierWords := by
  constructor
  · rintro ⟨w', ws', hcons, hqualifier⟩
    obtain ⟨rfl, rfl⟩ := List.cons.inj (h.symm.trans hcons)
    exact hqualifier
  · exact fun hqualifier => ⟨w, ws, h, hqualifier⟩

/-- A name of nothing but separators has no other words, unless they stand alone in front. -/
theorem eq_nil_of_not_bareSeparator (h : nameWords written = w :: ws)
    (hbare : ¬ BareSeparator written) (hnil : Name.dropGlobal w = []) : ws = [] := by
  by_contra hne
  exact hbare ((bareSeparator_iff h).mpr ⟨hnil, hne⟩)

end Beginning

theorem not_blank_of_mem_dropGlobal {w : List Char} (hw : IsNameWord w) :
    ∀ c ∈ Name.dropGlobal w, isBlank c = false :=
  fun c hc => hw.word.2 c ((dropGlobal_suffix w).subset hc)

theorem getLast?_joinWords {w : List Char} {ws : List (List Char)}
    (hw : ∀ c ∈ w, isBlank c = false) (hws : ∀ v ∈ ws, IsWord v) {b : Char}
    (hb : b ∈ (joinWords (w :: ws)).getLast?) : isBlank b = false := by
  induction ws generalizing w with
  | nil => exact hw b (List.mem_of_getLast? hb)
  | cons v ws ih =>
    obtain ⟨hv, hws⟩ := List.forall_mem_cons.mp hws
    have hlater : joinWords (v :: ws) ≠ [] := by
      intro hnil
      have hlength := length_joinWords v ws
      have hpos := List.length_pos_iff.mpr hv.1
      rw [hnil, List.map_cons, List.sum_cons, List.length_nil] at hlength
      omega
    rw [joinWords_cons_cons, List.getLast?_append_of_ne_nil _ (List.cons_ne_nil _ _),
      List.getLast?_cons_of_ne_nil hlater] at hb
    exact ih hv.2 hws hb

theorem head?_joinWords {w : List Char} (hw : IsWord w) (ws : List (List Char)) {b : Char}
    (hb : b ∈ (joinWords (w :: ws)).head?) : isBlank b = false := by
  obtain ⟨c, w, rfl⟩ := List.exists_cons_of_ne_nil hw.1
  have hhead : (joinWords ((c :: w) :: ws)).head? = some c := by
    cases ws <;> rfl
  rw [hhead] at hb
  obtain rfl := Option.some.inj hb
  exact hw.2 _ List.mem_cons_self

/-- A name that is reduced to itself consists of name words, and begins with none of what the
reduction takes away. -/
theorem isNormal_of_lookupChars_eq {cs : List Char} (h : lookupChars cs = cs) :
    (∀ b ∈ cs.head?, isBlank b = false) ∧ ∀ w ∈ words cs, w ∉ qualifierWords := by
  obtain ⟨-, hjoin, -⟩ := lookupChars_stages h
  have hkept : ∀ w ∈ (words cs).filter (!qualifierWords.contains ·), IsWord w :=
    fun w hw => isWord_of_mem_words (List.mem_filter.mp hw).1
  have hwords := words_joinWords hkept
  rw [hjoin] at hwords
  constructor
  · rw [← hjoin]
    cases hcs : (words cs).filter (!qualifierWords.contains ·) with
    | nil => simp [joinWords]
    | cons w ws =>
      exact fun b hb => head?_joinWords (hkept w (hcs ▸ List.mem_cons_self)) ws hb
  · intro w hw
    rw [hwords] at hw
    simpa using (List.mem_filter.mp hw).2

theorem not_angle_of_mem_lookupChars {written : List Char} {c : Char}
    (h : c ∈ lookupChars written) : c ≠ '<' ∧ c ≠ '>' := by
  have hjoined : c ∈ joinWords (nameWords written) := (dropGlobal_suffix _).subset h
  rcases mem_joinWords hjoined with rfl | ⟨w, hw, hc⟩
  · decide
  · exact (isNameWord_of_mem_nameWords hw).angle c hc

theorem not_blank_of_getLast?_lookupChars {written : List Char} {b : Char}
    (h : b ∈ (lookupChars written).getLast?) : isBlank b = false := by
  cases hwritten : nameWords written with
  | nil => simp [lookupChars_of_nil hwritten] at h
  | cons w ws =>
    have hkept : ∀ v ∈ w :: ws, IsNameWord v :=
      fun v hv => isNameWord_of_mem_nameWords (hwritten ▸ hv)
    obtain ⟨hw, hws⟩ := List.forall_mem_cons.mp hkept
    rw [lookupChars_of_cons hwritten] at h
    exact getLast?_joinWords (not_blank_of_mem_dropGlobal hw) (fun v hv => (hws v hv).word) h

theorem head?_lookupChars_iff (written : List Char) :
    (∀ b ∈ (lookupChars written).head?, isBlank b = false) ↔ ¬ BareSeparator written := by
  cases hwritten : nameWords written with
  | nil =>
    rw [lookupChars_of_nil hwritten]
    exact iff_of_true (by simp) (not_bareSeparator_of_nil hwritten)
  | cons w ws =>
    have hw : IsNameWord w := isNameWord_of_mem_nameWords (hwritten ▸ List.mem_cons_self)
    rw [lookupChars_of_cons hwritten]
    constructor
    · intro hhead hbare
      obtain ⟨hnil, hlater⟩ := (bareSeparator_iff hwritten).mp hbare
      obtain ⟨v, ws, rfl⟩ := List.exists_cons_of_ne_nil hlater
      rw [hnil, joinWords_cons_cons] at hhead
      exact absurd (hhead ' ' rfl) (by decide)
    · intro hbare b hb
      by_cases hnil : Name.dropGlobal w = []
      · rw [hnil, eq_nil_of_not_bareSeparator hwritten hbare hnil] at hb
        simp [joinWords] at hb
      · exact head?_joinWords ⟨hnil, not_blank_of_mem_dropGlobal hw⟩ ws hb

/-- The reduction of a written type can be repeated exactly if taking the separators away has
uncovered neither a blank nor a qualifier. -/
theorem lookupChars_lookupChars_iff (written : List Char) :
    lookupChars (lookupChars written) = lookupChars written ↔
      ¬ BareSeparator written ∧ ¬ CoveredQualifier written := by
  cases hwritten : nameWords written with
  | nil =>
    rw [lookupChars_of_nil hwritten]
    exact iff_of_true rfl ⟨not_bareSeparator_of_nil hwritten, not_coveredQualifier_of_nil hwritten⟩
  | cons w ws =>
    have hkept : ∀ v ∈ w :: ws, IsNameWord v :=
      fun v hv => isNameWord_of_mem_nameWords (hwritten ▸ hv)
    obtain ⟨hw, hws⟩ := List.forall_mem_cons.mp hkept
    have hblank := not_blank_of_mem_dropGlobal hw
    constructor
    · intro hnormal
      obtain ⟨hhead, hcounts⟩ := isNormal_of_lookupChars_eq hnormal
      refine ⟨(head?_lookupChars_iff written).mp hhead, fun hcovered => ?_⟩
      have hqualifier := (coveredQualifier_iff hwritten).mp hcovered
      have hne : Name.dropGlobal w ≠ [] := by
        intro hnil
        rw [hnil] at hqualifier
        exact absurd hqualifier (by decide)
      have hall : ∀ v ∈ Name.dropGlobal w :: ws, IsWord v :=
        List.forall_mem_cons.mpr ⟨⟨hne, hblank⟩, fun v hv => (hws v hv).word⟩
      rw [lookupChars_of_cons hwritten, words_joinWords hall] at hcounts
      exact hcounts _ List.mem_cons_self hqualifier
    · rintro ⟨hbare, hcovered⟩
      rw [lookupChars_of_cons hwritten]
      by_cases hnil : Name.dropGlobal w = []
      · rw [hnil, eq_nil_of_not_bareSeparator hwritten hbare hnil]
        rfl
      · have hfirst : IsNameWord (Name.dropGlobal w) :=
          ⟨⟨hnil, hblank⟩, fun c hc => hw.angle c ((dropGlobal_suffix w).subset hc),
            fun hqualifier => hcovered ((coveredQualifier_iff hwritten).mpr hqualifier)⟩
        rw [lookupChars_of_cons (nameWords_joinWords (List.forall_mem_cons.mpr ⟨hfirst, hws⟩)),
          dropGlobal_dropGlobal]

end Reduction

theorem lookupName_eq_self_iff {name : String} :
    lookupName name = name ↔ lookupChars name.toList = name.toList := by
  rw [lookupName]
  constructor
  · intro h
    have hchars := congrArg String.toList h
    rwa [String.toList_ofList] at hchars
  · intro h
    rw [h, String.ofList_toList]

namespace Name

/-- The innermost candidate for a name is its place in the innermost scope. -/
theorem candidates_eq_cons (path : List String) (name : String) :
    ∃ outer, candidates path name = qualify path name :: outer := by
  rw [candidates, List.range_succ, List.reverse_append, List.reverse_singleton,
    List.singleton_append, List.map_cons, List.take_length]
  exact ⟨_, rfl⟩

end Name

namespace ClassIndex

/-- A record is found under a name that is reduced to itself in the scope of the record. -/
theorem resolveType_of_normal {index : ClassIndex} {name : String} {scope : List String}
    (hnormal : lookupName name = name) (hne : name ≠ "")
    (hknown : index.contains (Name.qualify scope name) = true) :
    index.resolveType name scope = some (Name.qualify scope name) := by
  have hchars := lookupName_eq_self_iff.mp hnormal
  obtain ⟨hhead, -⟩ := isNormal_of_lookupChars_eq hchars
  obtain ⟨-, -, hglobal⟩ := lookupChars_stages hchars
  obtain ⟨c, cs, hcs⟩ : ∃ c cs, name.toList = c :: cs :=
    List.exists_cons_of_ne_nil fun hnil => hne (String.toList_eq_nil_iff.mp hnil)
  have hwritten : [':', ':'].isPrefixOf (Text.trimStart name.toList) = false := by
    have hblank : Text.isBlank c = false := hhead c (by rw [hcs]; rfl)
    rw [hcs] at hglobal ⊢
    rw [Text.trimStart, List.dropWhile_cons_of_neg (by simp [hblank])]
    rw [Bool.eq_false_iff]
    intro hprefix
    obtain ⟨rest, hrest⟩ := List.isPrefixOf_iff_prefix.mp hprefix
    rw [← hrest] at hglobal
    have hlength := congrArg List.length hglobal
    have hle := (dropGlobal_suffix rest).length_le
    simp [Name.dropGlobal] at hlength
    omega
  have hnonempty : name.isEmpty = false := by simpa using hne
  obtain ⟨outer, hcandidates⟩ := Name.candidates_eq_cons scope name
  rw [resolveType, hnormal]
  simp only [hnonempty, hwritten, hcandidates, List.find?_cons, hknown, Bool.false_eq_true,
    if_false]

end ClassIndex

/-- A lookup name never holds an angle bracket or ends in a blank. It begins with a blank exactly
if the separators in front of it stood alone, and it is a normal form exactly if they neither
stood alone nor in front of a qualifier. A record is found under a name that is a normal form. -/
theorem lookupName_normal_iff (written : String) :
    let name := lookupName written
    (∀ c ∈ name.toList, c ≠ '<' ∧ c ≠ '>') ∧
    (∀ b ∈ name.toList.getLast?, Text.isBlank b = false) ∧
    ((∀ b ∈ name.toList.head?, Text.isBlank b = false) ↔ ¬ BareSeparator written.toList) ∧
    (lookupName name = name ↔
      ¬ BareSeparator written.toList ∧ ¬ CoveredQualifier written.toList) ∧
    ∀ (index : ClassIndex) (scope : List String), lookupName name = name → name ≠ "" →
      index.contains (Name.qualify scope name) = true →
      index.resolveType name scope = some (Name.qualify scope name) := by
  intro name
  have hname : name.toList = lookupChars written.toList := String.toList_ofList
  refine ⟨?_, ?_, ?_, ?_, fun index scope => ClassIndex.resolveType_of_normal⟩
  · intro c hc
    exact not_angle_of_mem_lookupChars (hname ▸ hc)
  · intro b hb
    exact not_blank_of_getLast?_lookupChars (hname ▸ hb)
  · rw [hname]
    exact head?_lookupChars_iff written.toList
  · rw [lookupName_eq_self_iff, hname]
    exact lookupChars_lookupChars_iff written.toList

section Example

def emptyRecord (scope : List String) (name : String) : Record :=
  ⟨.structType, name, Name.qualify scope name, scope, [], [], [], [], .point 0, 0⟩

theorem lookupName_normal_iff_template :
    let index : ClassIndex := ⟨[emptyRecord ["ns"] "Foo"]⟩
    lookupName (lookupName "struct Foo<int>") = lookupName "struct Foo<int>" ∧
      index.resolveType (lookupName "struct Foo<int>") ["ns"] = some "ns::Foo" := by
  intro index
  have hnormal : lookupName (lookupName "struct Foo<int>") = lookupName "struct Foo<int>" := by
    decide
  obtain ⟨-, -, -, -, hfound⟩ := lookupName_normal_iff "struct Foo<int>"
  refine ⟨hnormal, ?_⟩
  rw [hfound index ["ns"] hnormal (by decide) (by decide)]
  decide

/-- A blank between the separator and the name stays in front of the name, and a qualifier
behind the separator stays as well. The second reduction takes them away, so a record of such a
name is not found. -/
theorem lookupName_keeps_covered :
    let index : ClassIndex := ⟨[emptyRecord [] (lookupName ":: Foo")]⟩
    lookupName ":: Foo" = " Foo" ∧ lookupName (lookupName ":: Foo") = "Foo" ∧
      lookupName "::const Foo" = "const Foo" ∧ lookupName (lookupName "::const Foo") = "Foo" ∧
      index.resolveType (lookupName ":: Foo") [] = none := by
  decide

end Example

end Encapsulate.Cpp
