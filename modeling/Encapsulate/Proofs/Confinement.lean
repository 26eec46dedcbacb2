import Encapsulate.Proofs.Applying
import Encapsulate.Proofs.Reference
import Encapsulate.Proofs.Reports

/-!
What a run leaves alone. Its replacements are of the spans that rewritten usages give up,
and its insertions stand at the ends of the statements of hoisted writes and where accessors
go. So every byte outside of those spans is in the output, in its order, and a function body
that is not searched, or in which no target is used, is there in one piece.
-/

namespace Encapsulate

namespace EditQueue

def keptFrom (queue : EditQueue) (offset : Nat) : List UInt8 → List UInt8
  | [] => []
  | b :: bs => (if queue.covers offset then [] else [b]) ++ keptFrom queue (offset + 1) bs

/-- A part of the text is taken over in one piece, behind the bytes that are kept in front
of it and ahead of those that are kept behind it. -/
def Reproduces (queue : EditQueue) (source : List Char) (span : Span) (output : List UInt8) :
    Prop :=
  ∃ front back, output = front ++ Text.bytes (Text.slice source span) ++ back ∧
    (queue.keptFrom 0 (Text.bytes (Text.slice source ⟨0, span.start⟩))).Sublist front ∧
    (queue.keptFrom span.stop
      (Text.bytes (Text.slice source ⟨span.stop, Text.width source⟩))).Sublist back

variable {queue : EditQueue}

theorem keptFrom_sublist (queue : EditQueue) (offset : Nat) (bs : List UInt8) :
    (queue.keptFrom offset bs).Sublist (queue.referenceFrom offset bs) := by
  induction bs generalizing offset with
  | nil => exact List.nil_sublist _
  | cons b bs ih =>
    rw [keptFrom, referenceFrom, List.append_assoc]
    exact ((List.Sublist.refl _).append (ih _)).trans (List.sublist_append_right _ _)

/-- What becomes of the bytes up to an offset, whatever follows them. -/
theorem exists_front (queue : EditQueue) (offset : Nat) (as : List UInt8) :
    ∃ front, (queue.keptFrom offset as).Sublist front ∧
      ∀ bs, queue.referenceFrom offset (as ++ bs) =
        front ++ queue.referenceFrom (offset + as.length) bs := by
  induction as generalizing offset with
  | nil => exact ⟨[], List.Sublist.refl _, fun bs => rfl⟩
  | cons a as ih =>
    obtain ⟨front, hkept, hfront⟩ := ih (offset + 1)
    refine ⟨queue.textsAt offset ++ (if queue.covers offset then [] else [a]) ++ front, ?_, ?_⟩
    · rw [keptFrom, List.append_assoc]
      exact ((List.Sublist.refl _).append hkept).trans (List.sublist_append_right _ _)
    · intro bs
      have hlength : offset + 1 + as.length = offset + (a :: as).length := by
        rw [List.length_cons]
        omega
      rw [List.cons_append, referenceFrom, hfront, hlength, List.append_assoc _ front]

/-- Bytes that no edit replaces or separates stay together. -/
theorem exists_block {offset : Nat} {ms : List UInt8}
    (hoffsets : ∀ e ∈ queue, ¬ (offset < e.offset ∧ e.offset < offset + ms.length))
    (hcovers : ∀ n, offset ≤ n → n < offset + ms.length → queue.covers n = false)
    (bs : List UInt8) :
    ∃ here, queue.referenceFrom offset (ms ++ bs) =
      here ++ ms ++ queue.referenceFrom (offset + ms.length) bs := by
  cases ms with
  | nil => exact ⟨[], rfl⟩
  | cons m ms =>
    rw [List.length_cons] at hoffsets hcovers
    have hrest : queue.referenceFrom (offset + 1) (ms ++ bs) = (ms ++ bs).take ms.length
        ++ queue.referenceFrom (offset + 1 + ms.length) ((ms ++ bs).drop ms.length) := by
      refine referenceFrom_kept ?_ ?_ (by simp)
      · intro n hn hlt
        refine textsAt_eq_nil fun e he => ?_
        have hfree := hoffsets e he
        omega
      · intro n hn hlt
        exact hcovers n (by omega) (by omega)
    rw [List.take_left, List.drop_left] at hrest
    have hlength : offset + 1 + ms.length = offset + (m :: ms).length := by
      rw [List.length_cons]
      omega
    refine ⟨queue.textsAt offset, ?_⟩
    rw [List.cons_append, referenceFrom, hcovers offset (by omega) (by omega), hrest, hlength]
    simp

/-- A part of the text is taken over where nothing in it is replaced and nothing is inserted
strictly inside it. -/
theorem reproduces_reference {source : List Char} {span : Span}
    (hstart : Text.isBoundary source span.start = true)
    (hstop : Text.isBoundary source span.stop = true) (hle : span.start ≤ span.stop)
    (hoffsets : ∀ e ∈ queue, ¬ span.strictlyContains e.offset = true)
    (hapart : ∀ e ∈ queue, e.kind = .replace → Span.Apart e.span span) :
    Reproduces queue source span (queue.reference source 0) := by
  obtain ⟨before, middle, after, rfl, hbefore, hmiddle⟩ := Text.exists_parts hstart hstop hle
  have hends : span.start + (span.stop - span.start) = span.stop := by omega
  have hfirst : Text.slice ([] ++ (before ++ (middle ++ after))) ⟨0, span.start⟩ = before :=
    Text.slice_eq rfl hbefore
  have hlast : Text.slice ((before ++ middle) ++ (after ++ []))
      ⟨span.stop, Text.width (before ++ (middle ++ after))⟩ = after := by
    refine Text.slice_eq ?_ ?_
    · rw [Text.width_append, hbefore, hmiddle, hends]
    · simp only [Text.width_append, hbefore, hmiddle]
      omega
  rw [List.append_nil, List.append_assoc] at hlast
  have hblock : ∃ here, queue.referenceFrom span.start (Text.bytes middle ++ Text.bytes after) =
      here ++ Text.bytes middle
        ++ queue.referenceFrom (span.start + (Text.bytes middle).length) (Text.bytes after) := by
    refine exists_block ?_ ?_ _
    · intro e he hinside
      refine hoffsets e he ?_
      rw [Text.length_bytes, hmiddle, hends] at hinside
      rwa [Span.strictlyContains_iff]
    · intro n hn hlt
      rw [Text.length_bytes, hmiddle, hends] at hlt
      refine List.any_eq_false.mpr ?_
      intro e he
      simp only [Bool.and_eq_true, beq_iff_eq, decide_eq_true_eq, not_and]
      rintro ⟨hkind, hfrom⟩
      have hpair := hapart e he hkind
      unfold Span.Apart at hpair
      omega
  obtain ⟨front, hkept, hfront⟩ := queue.exists_front 0 (Text.bytes before)
  obtain ⟨here, hhere⟩ := hblock
  rw [Text.length_bytes, hmiddle, hends] at hhere
  refine ⟨front ++ here, queue.referenceFrom span.stop (Text.bytes after), ?_, ?_, ?_⟩
  · rw [reference, Text.bytes_append, hfront, Text.length_bytes, hbefore, Nat.zero_add,
      Text.bytes_append, hhere, Text.slice_eq hbefore hmiddle]
    simp only [List.append_assoc]
  · rw [List.nil_append] at hfirst
    rw [hfirst]
    exact hkept.trans (List.sublist_append_left _ _)
  · rw [hlast]
    exact queue.keptFrom_sublist _ _

end EditQueue

namespace Accessors

open Cpp Encapsulate.Tree ParseTree

section Usages

variable {setting : Setting} {body : SurveyedCode} {p : List Nat}

/-- The first part of an expression is surveyed under the names of the expression. -/
theorem mem_subtrees_survey_first {symbols : Symbols} {env : Env} {i : CodeNode} {c : Code}
    {cs : List Code} {t : SurveyedCode} (hsort : i.shape.sort = .expression)
    (hlambda : ∀ params, i.shape ≠ .lambda params) (ht : t ∈ subtrees (survey symbols env c).1) :
    t ∈ subtrees (survey symbols env (.node i (c :: cs))).1 := by
  obtain ⟨parts, heq, -⟩ := survey_parts symbols env i (c :: cs)
  rw [heq, parts_of_expression heq hsort hlambda]
  exact mem_subtrees_node.mpr (Or.inr ⟨_, List.mem_cons_self .., ht⟩)

/-- A usage is a member access that reaches a target, inside parentheses or not. -/
theorem exists_isUsage_of_usage? {env : Env} {c : Code} {u : Usage}
    (h : usage? setting env c = some u) :
    ∃ t ∈ subtrees (survey setting.symbols env c).1, isUsage setting t = true := by
  induction c using Tree.inductionOn with
  | h i cs ih =>
    by_cases hparen : i.shape = .paren
    · cases cs with
      | nil =>
        simp [usage?, Code.unparen, Tree.skip, Tree.skipFirst, CodeNode.isParen, hparen] at h
      | cons c cs =>
        rw [usage?_paren setting hparen] at h
        obtain ⟨t, ht, husage⟩ := ih c (List.mem_cons_self ..) h
        exact ⟨t, mem_subtrees_survey_first (by simp [hparen, Shape.sort]) (by simp [hparen]) ht,
          husage⟩
    · by_cases hmember : ∃ isArrow field, i.shape = .member isArrow field
      · obtain ⟨isArrow, field, hi⟩ := hmember
        refine ⟨_, self_mem_subtrees _, ?_⟩
        rw [← usage?_member setting hi, h]
        rfl
      · rw [usage?_other setting hparen fun isArrow field hi => hmember ⟨isArrow, field, hi⟩] at h
        exact absurd h (by simp)

theorem exists_isUsage_of_write? {env : Env} {c : Code} {u : Usage} {operation : Operation}
    (h : write? setting (survey setting.symbols env c).1 = some (u, operation)) :
    ∃ t ∈ subtrees (survey setting.symbols env c).1, isUsage setting t = true := by
  obtain ⟨i, cs⟩ := c
  -- the operand that is written to
  have hfirst : ∀ {operand : Code} {rest : List Code} {v : Usage}, cs = operand :: rest →
      i.shape.sort = .expression → (∀ params, i.shape ≠ .lambda params) →
      usage? setting env operand = some v →
      ∃ t ∈ subtrees (survey setting.symbols env (.node i cs)).1, isUsage setting t = true := by
    rintro operand rest v rfl hsort hlambda hv
    obtain ⟨t, ht, husage⟩ := exists_isUsage_of_usage? hv
    exact ⟨t, mem_subtrees_survey_first hsort hlambda ht, husage⟩
  rw [write?, code_survey, info_survey] at h
  dsimp only [children_node] at h
  split at h
  · rename_i hi
    obtain ⟨v, hv, -⟩ := Option.map_eq_some_iff.mp h
    exact hfirst rfl (by simp [hi, Shape.sort]) (by simp [hi]) hv
  · rename_i hi
    obtain ⟨v, hv, -⟩ := Option.map_eq_some_iff.mp h
    exact hfirst rfl (by simp [hi, Shape.sort]) (by simp [hi]) hv
  · exact absurd h (by simp)

/-- Where a usage is rewritten there is an access to a target. -/
theorem Rewritten.exists_isUsage {span : Span} (hbody : IsSurvey setting.symbols body)
    (h : Rewritten setting body p span) : ∃ t ∈ subtrees body, isUsage setting t = true := by
  -- a write or an access at a position, and the access to a target in it
  have hbelow : ∀ {t : SurveyedCode}, body.at? p = some t →
      (∃ s ∈ subtrees t, isUsage setting s = true) →
      ∃ s ∈ subtrees body, isUsage setting s = true := by
    rintro t ht ⟨s, hs, husage⟩
    exact ⟨s, mem_subtrees_trans body hs (mem_subtrees_of_at? ht), husage⟩
  have hwritten : ∀ {t : SurveyedCode} {u : Usage} {operation : Operation},
      body.at? p = some t → write? setting t = some (u, operation) →
      ∃ s ∈ subtrees body, isUsage setting s = true := by
    intro t u operation ht hwrite
    obtain ⟨-, hself⟩ := (exists_names_at hbody ht).1
    refine hbelow ht ?_
    rw [hself] at hwrite ⊢
    exact exists_isUsage_of_write? hwrite
  cases h with
  | @read t u ht hread =>
    obtain ⟨-, hself⟩ := (exists_names_at hbody ht).1
    refine hbelow ht ?_
    unfold read? at hread
    split at hread
    · rw [hself]
      exact exists_isUsage_of_usage? hread
    · exact absurd hread (by simp)
  | whole ht hwrite => exact hwritten ht hwrite
  | hoisted hhoist =>
    obtain ⟨t, ht, hat⟩ := Option.bind_eq_some_iff.mp hhoist
    obtain ⟨u, operation, hwrite, -⟩ := exists_write_of_hoistAt hat
    exact hwritten ht hwrite

end Usages

/-- An offset at which accessors go: behind the last member function that the record of an
owned target provides or, in a record without one, in front of its closing brace, and at the
start of the brace's line if only blanks stand between. -/
inductive AccessorPoint (file : SourceFile) (targets : List Target) : Nat → Prop where
  | afterMethod {t : Target} {r : Record} {m : Method} (hr : (t, r) ∈ ownedTargets file targets)
      (hlast : r.userMethods.getLast? = some m) : AccessorPoint file targets m.span.stop
  | beforeBrace {t : Target} {r : Record} (hr : (t, r) ∈ ownedTargets file targets)
      (hnone : r.userMethods = []) : AccessorPoint file targets r.closeBrace
  | lineOfBrace {t : Target} {r : Record} (hr : (t, r) ∈ ownedTargets file targets)
      (hnone : r.userMethods = [])
      (hblank : (Text.trim (Text.slice file.source
        ⟨Text.lineStart file.source r.closeBrace, r.closeBrace⟩)).isEmpty = true) :
      AccessorPoint file targets (Text.lineStart file.source r.closeBrace)

theorem accessorPoint_of_mem_insertions {file : SourceFile} {targets : List Target} {e : Edit}
    (he : e ∈ insertions file targets) :
    e.kind ≠ .replace ∧ e.span = .point e.offset ∧ AccessorPoint file targets e.offset := by
  obtain ⟨spec, hspec, hinsertion⟩ := List.mem_filterMap.mp he
  obtain ⟨⟨t, r⟩, howned, rfl⟩ := List.mem_map.mp hspec
  obtain ⟨hkind, hpoint, hcases⟩ := insertion_cases hinsertion
  refine ⟨hkind, hpoint, ?_⟩
  generalize e.offset = n at hcases ⊢
  cases hcases with
  | afterMethod hlast => exact .afterMethod howned hlast
  | beforeBrace hnone => exact .beforeBrace howned hnone
  | lineOfBrace hnone hblank => exact .lineOfBrace howned hnone hblank

/-- The edits of a queue are those of rewritten usages in the given bodies, of helper
statements beside the boundaries of hoisted writes, and of accessors. No usage that is
reported and left is rewritten, nor is the access in it. -/
structure Confined (setting : Setting) (bodies : List SurveyedCode) (queue : EditQueue) :
    Prop where
  replaced : ∀ e ∈ queue, e.kind = .replace →
    ∃ body ∈ bodies, ∃ p, Rewritten setting body p e.span
  inserted : ∀ e ∈ queue, e.kind ≠ .replace → e.span = .point e.offset ∧
    ((∃ body ∈ bodies, ∃ p w, hoist? setting body p = some w ∧
        EndOf w.boundary.span e.offset) ∨
      AccessorPoint setting.file setting.targets e.offset)
  reported : ∀ body ∈ bodies, ∀ p m, Reported setting body p m → ∀ span,
    ¬ Rewritten setting body p span ∧ ¬ Rewritten setting body m span

theorem confined_append (setting : Setting) {fs : List Function}
    (hfull : ∀ f ∈ fs, ∀ b, f.body = some b → Everywhere Code.Full b) :
    Confined setting (surveyFunctions setting.symbols fs)
      ((scan setting fs).queue ++ insertions setting.file setting.targets) := by
  refine ⟨?_, ?_, fun body _ p m h span => not_rewritten_of_reported h span⟩
  · intro e he hkind
    rcases List.mem_append.mp he with he | he
    · exact (edit_of_scan setting hfull he).1 hkind
    · exact absurd hkind (accessorPoint_of_mem_insertions he).1
  · intro e he hkind
    rcases List.mem_append.mp he with he | he
    · obtain ⟨hpoint, hhoist⟩ := (edit_of_scan setting hfull he).2 hkind
      exact ⟨hpoint, Or.inl hhoist⟩
    · obtain ⟨-, hpoint, haccessor⟩ := accessorPoint_of_mem_insertions he
      exact ⟨hpoint, Or.inr haccessor⟩

section Run

variable {path : String} {source : List Char} {parsed : Parsed}

/-- The nodes of a body of a file lie inside the body. -/
theorem span_of_mem_survey (hsound : Sound source parsed.tree) {f : Function}
    (hf : f ∈ (SourceFile.ofParsed path source parsed).functions) {b : Code}
    (hb : f.body = some b) {symbols : Symbols} {body t : SurveyedCode}
    (hbody : surveyFunction symbols f = some body) (ht : t ∈ subtrees body) :
    t.info.1.span.start ≤ t.info.1.span.stop ∧ b.span.contains t.info.1.span = true := by
  have hlaid : Everywhere (Laid source) b :=
    laid_body hsound (List.mem_filterMap.mpr ⟨f, hf, hb⟩)
  rw [surveyFunction, hb, Option.map_some] at hbody
  have hmem : SurveyedCode.code t ∈ subtrees b := by
    rw [← code_survey symbols (Env.enter symbols f) b, Option.some.inj hbody, SurveyedCode.code,
      SurveyedCode.code, subtrees_map]
    exact List.mem_map_of_mem ht
  have hspan : Code.span (SurveyedCode.code t) = t.info.1.span := by
    obtain ⟨x, parts⟩ := t
    rw [SurveyedCode.code_node]
    rfl
  rw [← hspan]
  exact ⟨(hlaid.of_mem hmem).here.start_le, Laid.span_contains hlaid hmem⟩

/-- The bodies of different functions of a file stand apart. -/
theorem apart_of_ne (hsound : Sound source parsed.tree) {f g : Function}
    (hf : f ∈ (SourceFile.ofParsed path source parsed).functions)
    (hg : g ∈ (SourceFile.ofParsed path source parsed).functions) (hne : f ≠ g) {b c : Code}
    (hb : f.body = some b) (hc : g.body = some c) : Span.Apart b.span c.span := by
  have hsymm : Std.Symm fun f g : Function => ∀ b, f.body = some b → ∀ c, g.body = some c →
      Span.Apart (Code.span b) (Code.span c) :=
    ⟨fun _ _ h c hc b hb => (h b hb c hc).symm⟩
  have hapart := (SourceFile.placed_ofParsed path source parsed).apart hsound.tidy
  exact (List.pairwise_filterMap.mp hapart).forall hf hg hne b hb c hc

/-- The edits of a search lie in the bodies of functions that it takes and in which targets
are used. -/
theorem exists_function_of_edit (hsound : Sound source parsed.tree) {setting : Setting}
    {fs : List Function}
    (hfs : ∀ f ∈ fs, f ∈ (SourceFile.ofParsed path source parsed).functions) {e : Edit}
    (he : e ∈ (scan setting fs).queue) :
    ∃ f ∈ fs, ∃ b body, f.body = some b ∧ surveyFunction setting.symbols f = some body ∧
      (∃ t ∈ subtrees body, isUsage setting t = true) ∧ e.span.start ≤ e.span.stop ∧
      b.span.contains e.span = true := by
  have hedit := edit_of_scan setting (fun f hf b hb => full_body (hfs f hf) hb) he
  -- a rewritten usage in a body, and a node of the body that the edit lies in
  obtain ⟨body, hbody, ⟨p, span, hrewritten⟩, t, ht, hin⟩ :
      ∃ body ∈ surveyFunctions setting.symbols fs, (∃ p span, Rewritten setting body p span) ∧
        ∃ t ∈ subtrees body, t.info.1.span.start ≤ t.info.1.span.stop →
          e.span.start ≤ e.span.stop ∧ t.info.1.span.contains e.span = true := by
    by_cases hkind : e.kind = .replace
    · obtain ⟨body, hbody, p, hrewritten⟩ := hedit.1 hkind
      obtain ⟨t, ht, hspan, -⟩ := hrewritten.exists_expression
      refine ⟨body, hbody, ⟨p, _, hrewritten⟩, t, ht, ?_⟩
      rw [hspan]
      exact fun hle => ⟨hle, Span.contains_refl _⟩
    · obtain ⟨hpoint, body, hbody, p, w, hw, hend⟩ := hedit.2 hkind
      obtain ⟨stmt, site, hstmt, hspan, -, hsite⟩ := exists_boundary_at hw
      obtain ⟨outer, houter, -⟩ := exists_outermost hsite
      refine ⟨body, hbody, ⟨p, _, .hoisted hw houter⟩, stmt, mem_subtrees_of_at? hstmt, ?_⟩
      intro hle
      rw [← hspan] at hend
      unfold EndOf at hend
      rw [hpoint, Span.contains_iff]
      change e.offset ≤ e.offset ∧ _ ≤ e.offset ∧ e.offset ≤ _
      omega
  obtain ⟨f, hf, hsurvey⟩ := List.mem_filterMap.mp hbody
  obtain ⟨b, hb, -⟩ := Option.map_eq_some_iff.mp hsurvey
  obtain ⟨hordered, hinside⟩ := span_of_mem_survey hsound (hfs f hf) hb hsurvey ht
  exact ⟨f, hf, b, body, hb, hsurvey,
    hrewritten.exists_isUsage (isSurvey_surveyFunction hsurvey), (hin hordered).1,
    Span.contains_trans hinside (hin hordered).2⟩

/-- A search of some functions has nothing to do in the body of `f`: it does not take `f`, or
no target is used in the body. -/
def Unused (setting : Setting) (fs : List Function) (f : Function) : Prop :=
  f ∉ fs ∨ ∀ body ∈ surveyFunction setting.symbols f, ∀ t ∈ subtrees body,
    isUsage setting t = false

/-- A span does not reach over the start of a closing brace's line that has only blanks in front
of the brace: accessors may be inserted there. -/
def ClearsBraceLines (file : SourceFile) (span : Span) : Prop :=
  ∀ r ∈ file.records,
    let line := Text.lineStart file.source r.closeBrace
    (Text.trim (Text.slice file.source ⟨line, r.closeBrace⟩)).isEmpty = true →
      ¬ span.strictlyContains line = true

instance (file : SourceFile) (span : Span) : Decidable (ClearsBraceLines file span) :=
  inferInstanceAs (Decidable (∀ r ∈ file.records,
    (Text.trim (Text.slice file.source
      ⟨Text.lineStart file.source r.closeBrace, r.closeBrace⟩)).isEmpty = true →
      ¬ span.strictlyContains (Text.lineStart file.source r.closeBrace) = true))

/-- The edits of a run stay clear of the bodies in which nothing is to be done. -/
theorem clear_of_unused (hsound : Sound source parsed.tree) {setting : Setting}
    (hfile : setting.file = SourceFile.ofParsed path source parsed) {fs : List Function}
    (hfs : ∀ f ∈ fs, f ∈ (SourceFile.ofParsed path source parsed).functions) {f : Function}
    (hf : f ∈ (SourceFile.ofParsed path source parsed).functions) {b : Code}
    (hb : f.body = some b)
    (hlines : ClearsBraceLines (SourceFile.ofParsed path source parsed) b.span)
    (hunused : Unused setting fs f) {e : Edit}
    (he : e ∈ (scan setting fs).queue ++ insertions setting.file setting.targets) :
    ¬ b.span.strictlyContains e.offset = true ∧
      (e.kind = .replace → Span.Apart e.span b.span) := by
  rcases List.mem_append.mp he with he | he
  · obtain ⟨g, hg, c, body, hc, hsurvey, ⟨t, ht, husage⟩, hle, hin⟩ :=
      exists_function_of_edit hsound hfs he
    have hne : g ≠ f := by
      rintro rfl
      rcases hunused with hnot | hnone
      · exact hnot hg
      · exact absurd ((hnone body hsurvey t ht).symm.trans husage) (by simp)
    have hapart : Span.Apart e.span b.span :=
      (apart_of_ne hsound (hfs g hg) hf hne hc hb).mono hin (Span.contains_refl _)
    refine ⟨?_, fun _ => hapart⟩
    rw [Span.strictlyContains_iff]
    unfold Span.Apart at hapart
    change ¬ (b.span.start < e.span.start ∧ e.span.start < b.span.stop)
    omega
  · rw [hfile] at he
    obtain ⟨hkind, -, n, -, hclears, hoffset⟩ := clears_of_insertions hsound he
    refine ⟨?_, fun hreplace => absurd hreplace hkind⟩
    rcases hoffset with hoffset | ⟨r, hr, rfl, hoffset, hblank⟩
    · have hclear := hclears b (List.mem_filterMap.mpr ⟨f, hf, hb⟩)
      unfold Span.Clears at hclear
      rw [hoffset, Span.strictlyContains_iff]
      omega
    · rw [hoffset]
      exact hlines r hr hblank

/-- A run that has targets applies the edits of its search and of the accessors. -/
theorem apply_of_run {config : AccessorsConfig} {u : SourceUnit} {outcome : Outcome}
    (hrun : run config u = .ok outcome) (htargets : (select config.fields u).targets ≠ []) :
    EditQueue.apply ((scanUnit config u (select config.fields u).targets).queue
        ++ insertions u.primary (select config.fields u).targets) u.primary.source 0 =
      .ok ((outcome.rewritten.map String.toList).getD u.primary.source) := by
  unfold run at hrun
  simp only [List.isEmpty_iff, htargets, if_false] at hrun
  split at hrun
  · exact absurd hrun (by simp)
  · rename_i text htext
    rw [htext, ← Except.ok.inj hrun]
    by_cases hsame : text = u.primary.source
    · simp [hsame]
    · simp [hsame]

theorem exists_run_of_apply {config : AccessorsConfig} {u : SourceUnit} {text : List Char}
    (htargets : (select config.fields u).targets ≠ [])
    (htext : EditQueue.apply ((scanUnit config u (select config.fields u).targets).queue
        ++ insertions u.primary (select config.fields u).targets) u.primary.source 0 =
      .ok text) : ∃ outcome, run config u = .ok outcome := by
  unfold run
  simp only [List.isEmpty_iff, htargets, if_false, htext]
  exact ⟨_, rfl⟩

/-- A run on a file with a sound parse tree touches usages of targets only. Each replacement,
also in a queue that a part is rendered with, is of the span that a rewritten usage in a
searched body gives up; insertions stand at the boundaries of hoisted writes and where
accessors go; and what is reported as refused or escaping is not rewritten. So the bytes
outside of the replaced spans are in the output, in their order. Bodies that are not searched,
or in which no target is used, are there in one piece, if none reaches over the start of the
line of the closing brace of a record, where accessors go. -/
theorem run_touches_only_usages (config : AccessorsConfig) (path : String) (source : List Char)
    (parsed : Parsed) (headers : List SourceFile) (hsound : Sound source parsed.tree)
    {outcome : Outcome}
    (hrun : run config ⟨.ofParsed path source parsed, headers⟩ = .ok outcome)
    (htargets : (select config.fields ⟨.ofParsed path source parsed, headers⟩).targets ≠ []) :
    let u : SourceUnit := ⟨.ofParsed path source parsed, headers⟩
    let setting := Setting.ofUnit config.fields u
    let fs := u.primary.functions.filter config.scope.includes
    let bodies := surveyFunctions setting.symbols fs
    let found := scanUnit config u setting.targets
    let queue : EditQueue := found.queue ++ insertions u.primary setting.targets
    let output := (outcome.rewritten.map String.toList).getD source
    queue.apply source 0 = .ok output ∧ Confined setting bodies queue ∧
      (∀ body ∈ bodies, ∀ p t, body.at? p = some t → ∀ s, ∀ e ∈ localQueue setting body p t s,
        e.kind = .replace → ∃ q, p <+: q ∧ Rewritten setting body q e.span) ∧
      (∀ d ∈ found.diagnostics, isLeft d = true →
        ∃ body ∈ bodies, IsAboutLeft setting body d) ∧
      (queue.keptFrom 0 (Text.bytes source)).Sublist (Text.bytes output) ∧
      ∀ f ∈ u.primary.functions, ∀ b, f.body = some b → ClearsBraceLines u.primary b.span →
        Unused setting fs f → queue.Reproduces source b.span (Text.bytes output) := by
  intro u setting fs bodies found queue output
  have hfs : ∀ f ∈ fs, f ∈ (SourceFile.ofParsed path source parsed).functions :=
    fun f hf => List.mem_of_mem_filter hf
  have hfull : ∀ f ∈ fs, ∀ b, f.body = some b → Everywhere Code.Full b :=
    fun f hf b hb => full_body (hfs f hf) hb
  have happly : queue.apply source 0 = .ok output := apply_of_run hrun htargets
  have hle : ∀ e ∈ queue, e.span.start ≤ e.span.stop := by
    intro e he
    rcases List.mem_append.mp he with he | he
    · obtain ⟨-, -, -, -, -, -, -, hle, -⟩ := exists_function_of_edit hsound hfs he
      exact hle
    · rw [(accessorPoint_of_mem_insertions he).2.1]
      exact Nat.le_refl _
  have hbytes := EditQueue.bytes_of_apply hle happly
  refine ⟨happly, confined_append setting hfull, ?_, ?_, ?_, ?_⟩
  · intro body hbody p t ht s e he hkind
    exact rewritten_of_mem_localQueue hfull hbody ht he hkind
  · intro d hd hleft
    exact isAboutLeft_of_mem_diagnostics setting hfull hd hleft
  · rw [hbytes]
    exact queue.keptFrom_sublist 0 _
  · intro f hf b hb hlines hunused
    have hlaid := (laid_body hsound (List.mem_filterMap.mpr ⟨f, hf, hb⟩)).here
    have hclear := fun e (he : e ∈ queue) =>
      clear_of_unused hsound rfl hfs hf hb hlines hunused he
    rw [hbytes]
    exact EditQueue.reproduces_reference hlaid.start hlaid.stop hlaid.start_le
      (fun e he => (hclear e he).1) fun e he => (hclear e he).2

end Run

section Example

/-- A function with the statements `int b=(a.x++);int*c=&a.x;` and a second one. -/
def mixedText : List Char :=
  unitText "int b=(a.x++);int*c=&a.x;" ++ "int g()\x7breturn 0;\x7d".toList

def mixedTree : ParseTree :=
  named "translation_unit" 0 73
    ((unitTree 54
      [named "declaration" 29 43
         [filling "type" "primitive_type" 29 32 [],
          filling "declarator" "init_declarator" 33 42
            [filling "declarator" "identifier" 33 34 [],
             filling "value" "parenthesized_expression" 35 42
               [named "update_expression" 36 41
                  [accessTree "argument" 36, mark (some "operator") "++" 39 41]]]],
       named "declaration" 43 54
         [filling "type" "primitive_type" 43 46 [],
          filling "declarator" "init_declarator" 46 53
            [filling "declarator" "pointer_declarator" 46 48
               [filling "declarator" "identifier" 47 48 []],
             filling "value" "pointer_expression" 49 53
               [mark (some "operator") "&" 49 50, accessTree "argument" 50]]]]).children
      ++ [named "function_definition" 55 73
            [filling "type" "primitive_type" 55 58 [],
             filling "declarator" "function_declarator" 59 62
               [filling "declarator" "identifier" 59 60 [],
                filling "parameters" "parameter_list" 60 62 []],
             filling "body" "compound_statement" 62 73
               [named "return_statement" 63 72 [named "number_literal" 70 71 []]]]])

def mixedUnit : SourceUnit :=
  ⟨.ofParsed "f.cpp" mixedText ⟨mixedTree, false⟩, []⟩

/-- The step in parentheses is the only thing that is replaced; the address of `a.x` is left,
and the body of `g` is taken over. -/
theorem run_touches_only_parenthesized_step :
    Sound mixedText mixedTree ∧ (select ["F::x"] mixedUnit).targets ≠ [] ∧
      ∃ outcome, run ⟨["F::x"], .all⟩ mixedUnit = .ok outcome ∧
        let setting := Setting.ofUnit ["F::x"] mixedUnit
        let found := scanUnit ⟨["F::x"], .all⟩ mixedUnit setting.targets
        let queue : EditQueue := found.queue ++ insertions mixedUnit.primary setting.targets
        Confined setting (surveyFunctions setting.symbols mixedUnit.primary.functions) queue ∧
          (queue.filter (·.kind == .replace)).map (·.span) = [⟨35, 42⟩] ∧
          found.diagnostics.countP isEscape = 1 ∧
          ∃ g ∈ mixedUnit.primary.functions, g.name = "g" ∧ ∀ b ∈ g.body,
            queue.Reproduces mixedText b.span
              (Text.bytes ((outcome.rewritten.map String.toList).getD mixedText)) := by
  have hsound : Sound mixedText mixedTree := by decide
  have htargets : (select ["F::x"] mixedUnit).targets ≠ [] := by decide
  obtain ⟨outcome, hrun⟩ : ∃ outcome, run ⟨["F::x"], .all⟩ mixedUnit = .ok outcome := by
    obtain ⟨searched, hsub, htame, -⟩ := scanUnit_tame ⟨["F::x"], .all⟩ [] hsound (by decide)
      (show ∀ body ∈ Decl.bodiesOf mixedUnit.primary.decls,
        Everywhere (Regular mixedText) body by decide) (select ["F::x"] mixedUnit).targets
    obtain ⟨text, htext⟩ := (applicable_append hsub htame fun e he =>
      outside_insertions hsound (select ["F::x"] mixedUnit).targets he).apply_isOk
    exact exists_run_of_apply htargets htext
  obtain ⟨-, hconfined, -, -, -, hbodies⟩ := run_touches_only_usages ⟨["F::x"], .all⟩ "f.cpp"
    mixedText ⟨mixedTree, false⟩ [] hsound hrun htargets
  have hall : mixedUnit.primary.functions.filter (UsageScope.includes .all) =
      mixedUnit.primary.functions := List.filter_true _
  refine ⟨hsound, htargets, outcome, hrun, ?_, ?_, ?_, ?_⟩
  · rw [← hall]
    exact hconfined
  · decide +kernel
  · decide +kernel
  · obtain ⟨g, hg, hname, hlines, hunused⟩ : ∃ g ∈ mixedUnit.primary.functions,
        g.name = "g" ∧ (∀ b ∈ g.body, ClearsBraceLines mixedUnit.primary (Code.span b)) ∧
        ∀ body ∈ surveyFunction (Symbols.ofUnit mixedUnit) g, ∀ t ∈ subtrees body,
          isUsage (Setting.ofUnit ["F::x"] mixedUnit) t = false := by
      decide
    exact ⟨g, hg, hname, fun b hb => hbodies g hg b hb (hlines b hb) (Or.inr hunused)⟩

end Example

end Accessors

end Encapsulate
