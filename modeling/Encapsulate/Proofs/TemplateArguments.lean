import Encapsulate.Proofs.Boundaries
import Encapsulate.Proofs.EnclosingRecord
import Mathlib.Data.List.TakeWhile

/-!
The first argument of a standard template. Two passes go over a written type: one takes away
everything between angle brackets to see which template it is, the other cuts out the text up to
the first comma or closing bracket. The first pass counts angle brackets alone, the second counts
angle brackets and parentheses together. On a text in which brackets of both kinds are matched
each of them comes back to the depth at which it started, so both are right at any nesting.
-/

namespace Encapsulate

namespace Text

/-- `body` is a text without the blanks around it. -/
structure IsTrimmed (cs body : List Char) : Prop where
  around : ∃ before after, cs = before ++ body ++ after ∧
    (∀ c ∈ before, isBlank c = true) ∧ ∀ c ∈ after, isBlank c = true
  first : ∀ c ∈ body.head?, isBlank c = false
  last : ∀ c ∈ body.getLast?, isBlank c = false

theorem not_blank_of_head?_dropWhile {cs : List Char} {c : Char}
    (h : c ∈ (cs.dropWhile isBlank).head?) : isBlank c = false := by
  have hhead := List.head?_dropWhile_not isBlank cs
  rw [Option.mem_def.mp h] at hhead
  exact hhead

theorem isTrimmed_trim (cs : List Char) : IsTrimmed cs (trim cs) := by
  have hstart := List.takeWhile_append_dropWhile (p := isBlank) (l := cs)
  have hend := congrArg List.reverse
    (List.takeWhile_append_dropWhile (p := isBlank) (l := (trimStart cs).reverse))
  rw [List.reverse_append, List.reverse_reverse] at hend
  have hprefix : trim cs <+: trimStart cs := ⟨_, hend⟩
  refine ⟨⟨cs.takeWhile isBlank, ((trimStart cs).reverse.takeWhile isBlank).reverse, ?_, ?_, ?_⟩,
    ?_, ?_⟩
  · rw [List.append_assoc]
    exact (hstart.symm.trans (congrArg _ hend.symm))
  · exact fun c hc => List.mem_takeWhile_imp hc
  · exact fun c hc => List.mem_takeWhile_imp (List.mem_reverse.mp hc)
  · intro c hc
    obtain ⟨rest, hrest⟩ := hprefix
    have hfirst : c ∈ (trimStart cs).head? := by
      rw [← hrest, List.head?_append, Option.mem_def.mp hc]
      rfl
    exact not_blank_of_head?_dropWhile hfirst
  · intro c hc
    rw [trim, trimEnd, dropEndWhile, List.getLast?_reverse] at hc
    exact not_blank_of_head?_dropWhile hc

end Text

namespace Cpp

def isBracket (c : Char) : Bool :=
  c == '<' || c == '>' || c == '(' || c == ')'

/-- Every bracket of the text has its partner, and brackets of the two kinds do not cross. -/
inductive WellBracketed : List Char → Prop
  | nil : WellBracketed []
  | plain {c : Char} {cs : List Char} (hc : isBracket c = false) (h : WellBracketed cs) :
      WellBracketed (c :: cs)
  | angle {inner rest : List Char} (hinner : WellBracketed inner) (hrest : WellBracketed rest) :
      WellBracketed ('<' :: (inner ++ '>' :: rest))
  | round {inner rest : List Char} (hinner : WellBracketed inner) (hrest : WellBracketed rest) :
      WellBracketed ('(' :: (inner ++ ')' :: rest))

def NoOuterComma (cs : List Char) : Prop :=
  ∀ before after, cs = before ++ ',' :: after → ¬ WellBracketed before

theorem not_bracket {c : Char} (hc : isBracket c = false) :
    c ≠ '<' ∧ c ≠ '>' ∧ c ≠ '(' ∧ c ≠ ')' := by
  simpa [isBracket, and_assoc] using hc

namespace WellBracketed

variable {cs other : List Char}

theorem of_plain (h : cs.any isBracket = false) : WellBracketed cs := by
  induction cs with
  | nil => exact .nil
  | cons c cs ih =>
    rw [List.any_cons, Bool.or_eq_false_iff] at h
    exact .plain h.1 (ih h.2)

theorem count_eq (h : WellBracketed cs) : cs.count '<' = cs.count '>' := by
  induction h with
  | nil => rfl
  | plain hc _ ih =>
    obtain ⟨hopen, hclose, -⟩ := not_bracket hc
    rw [List.count_cons_of_ne hopen, List.count_cons_of_ne hclose, ih]
  | angle _ _ ihinner ihrest =>
    simp only [List.count_cons, List.count_append, ihinner, ihrest]
    simp
    omega
  | round _ _ ihinner ihrest =>
    simp only [List.count_cons, List.count_append, ihinner, ihrest]
    simp

theorem append (h : WellBracketed cs) (hother : WellBracketed other) :
    WellBracketed (cs ++ other) := by
  induction h with
  | nil => exact hother
  | plain hc _ ih => exact .plain hc ih
  | angle hinner _ _ ih =>
    rw [List.cons_append, List.append_assoc]
    exact .angle hinner ih
  | round hinner _ _ ih =>
    rw [List.cons_append, List.append_assoc]
    exact .round hinner ih

end WellBracketed

namespace NoOuterComma

variable {c : Char} {inner cs : List Char}

theorem head (h : NoOuterComma (c :: cs)) : c ≠ ',' := by
  rintro rfl
  exact h [] cs rfl .nil

theorem tail (h : NoOuterComma (c :: cs)) (hc : isBracket c = false) : NoOuterComma cs := by
  rintro before after rfl hbefore
  exact h (c :: before) after rfl (.plain hc hbefore)

theorem behind_angle (h : NoOuterComma ('<' :: (inner ++ '>' :: cs)))
    (hinner : WellBracketed inner) : NoOuterComma cs := by
  rintro before after rfl hbefore
  exact h ('<' :: (inner ++ '>' :: before)) after (by simp) (.angle hinner hbefore)

theorem behind_round (h : NoOuterComma ('(' :: (inner ++ ')' :: cs)))
    (hinner : WellBracketed inner) : NoOuterComma cs := by
  rintro before after rfl hbefore
  exact h ('(' :: (inner ++ ')' :: before)) after (by simp) (.round hinner hbefore)

/-- Where an angle bracket is open no comma stands outside all brackets. -/
theorem of_count (h : ∀ n < cs.length, cs[n]? = some ',' →
    (cs.take n).count '<' ≠ (cs.take n).count '>') : NoOuterComma cs := by
  rintro before after rfl hbefore
  refine h before.length (by simp) (by simp) ?_
  rw [List.take_left]
  exact hbefore.count_eq

end NoOuterComma

section Passes

variable {cs : List Char}

/-- Inside angle brackets a text with matched brackets is dropped as a whole. -/
theorem withoutArgumentsFrom_append (h : WellBracketed cs) (depth : Nat) (rest : List Char) :
    withoutArgumentsFrom (depth + 1) (cs ++ rest) = withoutArgumentsFrom (depth + 1) rest := by
  induction h generalizing depth rest with
  | nil => rfl
  | @plain c cs hc h ih =>
    obtain ⟨hopen, hclose, -⟩ := not_bracket hc
    rw [List.cons_append, withoutArgumentsFrom.eq_4 _ _ _ hopen hclose, if_neg (by omega), ih]
  | @angle inner cs hinner hcs ihinner ihcs =>
    rw [List.cons_append, List.append_assoc, List.cons_append, withoutArgumentsFrom, ihinner,
      withoutArgumentsFrom, Nat.add_sub_cancel, ihcs]
  | @round inner cs hinner hcs ihinner ihcs =>
    rw [List.cons_append, List.append_assoc, List.cons_append,
      withoutArgumentsFrom.eq_4 _ _ _ (by decide) (by decide), if_neg (by omega), ihinner,
      withoutArgumentsFrom.eq_4 _ _ _ (by decide) (by decide), if_neg (by omega), ihcs]

theorem argumentFrom_open {c : Char} (hc : c = '<' ∨ c = '(') (depth : Nat) (rest : List Char) :
    argumentFrom depth (c :: rest) = (argumentFrom (depth + 1) rest).map (c :: ·) := by
  rw [argumentFrom, if_pos hc]

theorem argumentFrom_close {c : Char} (hc : c = '>' ∨ c = ')') (depth : Nat) (rest : List Char) :
    argumentFrom (depth + 1) (c :: rest) = (argumentFrom depth rest).map (c :: ·) := by
  have hopen : ¬ (c = '<' ∨ c = '(') := by
    rcases hc with rfl | rfl <;> decide
  rw [argumentFrom, if_neg hopen, if_pos ⟨hc, Nat.succ_pos depth⟩, Nat.add_sub_cancel]

theorem argumentFrom_plain {c : Char} (hc : isBracket c = false) {depth : Nat}
    (hcomma : c ≠ ',' ∨ 0 < depth) (rest : List Char) :
    argumentFrom depth (c :: rest) = (argumentFrom depth rest).map (c :: ·) := by
  obtain ⟨hopen, hclose, hopen', hclose'⟩ := not_bracket hc
  have hends : ¬ ((c = ',' ∨ c = '>') ∧ depth = 0) := by
    rintro ⟨rfl | rfl, hdepth⟩
    · rcases hcomma with hne | hpos
      · exact hne rfl
      · omega
    · exact hclose rfl
  rw [argumentFrom, if_neg (by simp [hopen, hopen']), if_neg (by simp [hclose, hclose']),
    if_neg hends]

/-- A bracketed text belongs to the argument if the text between its brackets does. -/
theorem argumentFrom_bracket {a b : Char} {inner : List Char} {depth : Nat}
    (ha : a = '<' ∨ a = '(') (hb : b = '>' ∨ b = ')')
    (hinner : ∀ rest, argumentFrom (depth + 1) (inner ++ rest) =
      (argumentFrom (depth + 1) rest).map (inner ++ ·)) (cs rest : List Char) :
    argumentFrom depth ((a :: (inner ++ b :: cs)) ++ rest) =
      (argumentFrom depth (cs ++ rest)).map fun later => a :: (inner ++ b :: later) := by
  rw [List.cons_append, List.append_assoc, List.cons_append, argumentFrom_open ha, hinner,
    argumentFrom_close hb, Option.map_map, Option.map_map]
  rfl

/-- Inside brackets a text with matched brackets belongs to the argument, whatever its commas. -/
theorem argumentFrom_append_inside (h : WellBracketed cs) (depth : Nat) (rest : List Char) :
    argumentFrom (depth + 1) (cs ++ rest) = (argumentFrom (depth + 1) rest).map (cs ++ ·) := by
  induction h generalizing depth rest with
  | nil => simp
  | @plain c cs hc h ih =>
    rw [List.cons_append, argumentFrom_plain hc (.inr (Nat.succ_pos depth)), ih, Option.map_map]
    rfl
  | @angle inner cs hinner hcs ihinner ihcs =>
    rw [argumentFrom_bracket (.inl rfl) (.inl rfl) (ihinner (depth + 1)), ihcs]
    simp [Function.comp_def]
  | @round inner cs hinner hcs ihinner ihcs =>
    rw [argumentFrom_bracket (.inr rfl) (.inr rfl) (ihinner (depth + 1)), ihcs]
    simp [Function.comp_def]

/-- Outside all brackets the same holds of a text without commas there. -/
theorem argumentFrom_append (h : WellBracketed cs) (hcomma : NoOuterComma cs) (rest : List Char) :
    argumentFrom 0 (cs ++ rest) = (argumentFrom 0 rest).map (cs ++ ·) := by
  induction h with
  | nil => simp
  | @plain c cs hc h ih =>
    rw [List.cons_append, argumentFrom_plain hc (.inl hcomma.head), ih (hcomma.tail hc),
      Option.map_map]
    rfl
  | @angle inner cs hinner hcs ihinner ihcs =>
    rw [argumentFrom_bracket (.inl rfl) (.inl rfl) (argumentFrom_append_inside hinner 0),
      ihcs (hcomma.behind_angle hinner)]
    simp [Function.comp_def]
  | @round inner cs hinner hcs ihinner ihcs =>
    rw [argumentFrom_bracket (.inr rfl) (.inr rfl) (argumentFrom_append_inside hinner 0),
      ihcs (hcomma.behind_round hinner)]
    simp [Function.comp_def]

/-- A standard template is its own lookup name, and no angle bracket is part of it. -/
theorem lookupChars_template {template : String} (h : template ∈ elementTemplates) :
    lookupChars template.toList = template.toList ∧ ∀ c ∈ template.toList, c ≠ '<' ∧ c ≠ '>' := by
  have hall : ∀ template ∈ elementTemplates, lookupChars template.toList = template.toList ∧
      template.toList.any isBracket = false := by decide
  obtain ⟨hlookup, hplain⟩ := hall template h
  refine ⟨hlookup, fun c hc => ?_⟩
  have hc' : isBracket c = false := Bool.eq_false_iff.mpr (List.any_eq_false.mp hplain c hc)
  obtain ⟨hopen, hclose, -⟩ := not_bracket hc'
  exact ⟨hopen, hclose⟩

/-- Arguments with matched brackets do not show in the lookup name. -/
theorem lookupChars_arguments {name arguments : List Char}
    (hname : ∀ c ∈ name, c ≠ '<' ∧ c ≠ '>') (harguments : WellBracketed arguments) :
    lookupChars (name ++ '<' :: (arguments ++ ['>'])) = lookupChars name := by
  have hdropped : withoutArgumentsFrom 0 (name ++ '<' :: (arguments ++ ['>'])) =
      withoutArgumentsFrom 0 name := by
    induction name with
    | nil =>
      show withoutArgumentsFrom (0 + 1) (arguments ++ ['>']) = []
      rw [withoutArgumentsFrom_append harguments]
      rfl
    | cons c name ih =>
      obtain ⟨⟨hopen, hclose⟩, hname⟩ := List.forall_mem_cons.mp hname
      rw [List.cons_append, withoutArgumentsFrom.eq_4 _ _ _ hopen hclose,
        withoutArgumentsFrom.eq_4 _ _ _ hopen hclose, if_pos rfl, if_pos rfl, ih hname]
  rw [lookupChars, hdropped, lookupChars]

end Passes

/-- Whatever stands between the angle brackets of a standard template, as long as its brackets
are matched: its element type is the text in front of the first comma that stands outside all
brackets, without the blanks around it. -/
theorem elementType_of_wellBracketed {template argument later : String}
    (htemplate : template ∈ elementTemplates) (hargument : WellBracketed argument.toList)
    (hcomma : NoOuterComma argument.toList)
    (hblank : ∃ c ∈ argument.toList, Text.isBlank c = false)
    (hlater : later = "" ∨ ∃ others, later = "," ++ others ∧ WellBracketed others.toList) :
    elementType (template ++ "<" ++ argument ++ later ++ ">") =
        some (String.ofList (Text.trim argument.toList)) ∧
      Text.IsTrimmed argument.toList (Text.trim argument.toList) := by
  obtain ⟨hlookup, hplain⟩ := lookupChars_template htemplate
  have hwritten : (template ++ "<" ++ argument ++ later ++ ">").toList =
      template.toList ++ '<' :: ((argument.toList ++ later.toList) ++ ['>']) := by
    simp
  have hlaterBracketed : WellBracketed later.toList := by
    rcases hlater with rfl | ⟨others, rfl, hothers⟩
    · exact .nil
    · rw [String.toList_append]
      exact .plain (by decide) hothers
  have hname : lookupChars (template ++ "<" ++ argument ++ later ++ ">").toList =
      template.toList := by
    rw [hwritten, lookupChars_arguments hplain (hargument.append hlaterBracketed), hlookup]
  have hbehind : ((template ++ "<" ++ argument ++ later ++ ">").toList.dropWhile
      (· != '<')).drop 1 = argument.toList ++ (later.toList ++ ['>']) := by
    have hfront : ∀ c ∈ template.toList, (c != '<') = true :=
      fun c hc => by simpa using (hplain c hc).1
    rw [hwritten, List.dropWhile_append_of_pos hfront, List.dropWhile_cons_of_neg (by decide),
      List.append_assoc]
    rfl
  have hcut : argumentFrom 0 (argument.toList ++ (later.toList ++ ['>'])) =
      some argument.toList := by
    have hend : argumentFrom 0 (later.toList ++ ['>']) = some [] := by
      rcases hlater with rfl | ⟨others, rfl, -⟩
      · rfl
      · rw [String.toList_append]
        rfl
    rw [argumentFrom_append hargument hcomma, hend, Option.map_some, List.append_nil]
  have hsome : Text.trim argument.toList ≠ [] := by
    intro hempty
    obtain ⟨c, hc, hblank⟩ := hblank
    rw [Text.isBlank_of_trim (List.isEmpty_iff.mpr hempty) hc] at hblank
    exact absurd hblank (by simp)
  refine ⟨?_, Text.isTrimmed_trim argument.toList⟩
  rw [elementType, elementChars, hname, hbehind, hcut]
  simp [guard, htemplate, hsome]

section Example

/-- The argument ` Box<A, (B)> ` in front of another one. -/
theorem elementType_of_wellBracketed_box :
    elementType "std::vector< Box<A, (B)> , std::pair<A, B>>" = some "Box<A, (B)>" := by
  have hround : WellBracketed ('(' :: (['B'] ++ ')' :: [])) :=
    .round (.of_plain (by decide)) .nil
  have hinner : WellBracketed ("A, ".toList ++ ('(' :: (['B'] ++ ')' :: []))) :=
    (WellBracketed.of_plain (by decide)).append hround
  have hbox : WellBracketed " Box<A, (B)> ".toList := by
    show WellBracketed (" Box".toList ++
      '<' :: (("A, ".toList ++ ('(' :: (['B'] ++ ')' :: []))) ++ '>' :: [' ']))
    exact (WellBracketed.of_plain (by decide)).append (.angle hinner (.of_plain (by decide)))
  have hpair : WellBracketed " std::pair<A, B>".toList := by
    show WellBracketed (" std::pair".toList ++ '<' :: ("A, B".toList ++ '>' :: []))
    exact (WellBracketed.of_plain (by decide)).append (.angle (.of_plain (by decide)) .nil)
  have hcomma : NoOuterComma " Box<A, (B)> ".toList := .of_count (by decide)
  have htype : elementType ("std::vector" ++ "<" ++ " Box<A, (B)> " ++ ", std::pair<A, B>" ++ ">") =
      some (String.ofList (Text.trim " Box<A, (B)> ".toList)) :=
    (elementType_of_wellBracketed (by decide) hbox hcomma ⟨'B', by decide, by decide⟩
      (.inr ⟨" std::pair<A, B>", by decide, hpair⟩)).1
  exact htype.trans (by decide)

end Example

end Cpp

end Encapsulate
