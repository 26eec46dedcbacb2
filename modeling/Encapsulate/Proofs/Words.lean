import Encapsulate.Proofs.Confinement

/-!
Where replacements meet the text ahead of them. A replacement that begins with a word and
stands directly behind another word runs together with it. No inserted text ends in a word, so
anything inserted where a replacement starts keeps the two apart. Where nothing is inserted it
depends on what the replacement takes the place of. An access does not stand directly behind a
word; a parenthesis or an operator in front of an access may, and a write can give it up.
-/

namespace Encapsulate

namespace Text

def isWord (c : Char) : Bool :=
  c.isAlphanum || c == '_'

def startsWithWord (text : String) : Bool :=
  text.toList.head?.any isWord

def endsApart (text : String) : Bool :=
  text.toList.getLast?.any (!isWord ·)

def wordBefore (source : List Char) : Nat → Bool
  | 0 => false
  | n + 1 => (bytes source)[n]?.any fun b => isWord b.toChar

theorem endsApart_append (a : String) {b : String} (h : endsApart b = true) :
    endsApart (a ++ b) = true := by
  unfold endsApart at h ⊢
  rw [String.toList_append, List.getLast?_append]
  cases hlast : b.toList.getLast? with
  | none =>
    rw [hlast] at h
    exact absurd h (by simp)
  | some c =>
    rw [hlast] at h
    exact h

theorem isWord_of_isIndent {c : Char} (h : isIndent c = true) : isWord c = false := by
  unfold isIndent at h
  simp only [Bool.or_eq_true, beq_iff_eq] at h
  rcases h with rfl | rfl <;> decide

/-- Spaces and tabs behind a text that ends in no word. -/
theorem endsApart_append_indent {a indent : String} (h : endsApart a = true)
    (hindent : ∀ c ∈ indent.toList, isIndent c = true) : endsApart (a ++ indent) = true := by
  cases hlast : indent.toList.getLast? with
  | none =>
    rw [List.getLast?_eq_none_iff, String.toList_eq_nil_iff] at hlast
    rw [hlast, String.append_empty]
    exact h
  | some c =>
    have hc : isWord c = false := isWord_of_isIndent (hindent c (List.mem_of_getLast? hlast))
    refine endsApart_append a ?_
    rw [endsApart, hlast, Option.any_some, hc]
    rfl

theorem endsApart_intercalate {sep : String} {parts : List String} (hne : parts ≠ [])
    (hparts : ∀ p ∈ parts, endsApart p = true) : endsApart (sep.intercalate parts) = true := by
  induction parts with
  | nil => exact absurd rfl hne
  | cons p parts ih =>
    cases parts with
    | nil =>
      rw [String.intercalate_singleton]
      exact hparts p (List.mem_singleton_self p)
    | cons q parts =>
      rw [String.intercalate_cons_cons]
      exact endsApart_append _ (ih (by simp) fun r hr => hparts r (List.mem_cons_of_mem _ hr))

theorem endsApart_join {parts : List String} (hne : parts ≠ [])
    (hparts : ∀ p ∈ parts, endsApart p = true) : endsApart (String.join parts) = true := by
  induction parts with
  | nil => exact absurd rfl hne
  | cons p parts ih =>
    rw [String.join_cons]
    cases parts with
    | nil =>
      rw [String.join_nil, String.append_empty]
      exact hparts p (List.mem_singleton_self p)
    | cons q parts =>
      exact endsApart_append _ (ih (by simp) fun r hr => hparts r (List.mem_cons_of_mem _ hr))

end Text

/-- A replacement begins with a word, stands directly behind another one in the source, and no
text is inserted between them that ends in no word. -/
def EditQueue.Fuses (queue : EditQueue) (source : List Char) (e : Edit) : Prop :=
  Text.startsWithWord e.text = true ∧ Text.wordBefore source e.offset = true ∧
    ¬ ∃ i ∈ queue, i.kind ≠ .replace ∧ i.offset = e.offset ∧ Text.endsApart i.text = true

instance (queue : EditQueue) (source : List Char) (e : Edit) :
    Decidable (queue.Fuses source e) :=
  inferInstanceAs (Decidable (_ ∧ _ ∧ _))

namespace Accessors

open Cpp Encapsulate.Tree

/-! Inserted texts -/

theorem isIndent_of_boundaryFrom {source : List Char} {fixed : Option FixedPlace} {isAll : Bool}
    {child : CodeNode} {ancestors : List CodeNode} {b : Boundary}
    (h : boundaryFrom source fixed isAll child ancestors = some b) :
    ∀ c ∈ b.indent.toList, Text.isIndent c = true := by
  induction ancestors generalizing fixed isAll child with
  | nil => exact absurd h (by simp [boundaryFrom])
  | cons parent outer ih =>
    rw [boundaryFrom] at h
    split at h
    · exact ih h
    · exact ih h
    · split at h
      · exact ih h
      · rw [← Option.some.inj h]
        intro c hc
        rw [String.toList_ofList] at hc
        exact List.mem_takeWhile_imp hc

/-- No text that a search inserts, or will insert to close a block, ends in a word. -/
structure Scan.Neat (s : Scan) : Prop where
  inserted : ∀ e ∈ s.queue, e.kind ≠ .replace → Text.endsApart e.text = true
  closings : ∀ c ∈ s.closings, Text.endsApart c.2 = true

namespace Scan.Neat

variable {setting : Setting} {s s' : Scan}

theorem of_same (h : s.Neat) (hqueue : s'.queue = s.queue) (hclosings : s'.closings = s.closings) :
    s'.Neat :=
  ⟨hqueue ▸ h.inserted, hclosings ▸ h.closings⟩

theorem push (h : s.Neat) (e : Edit) (he : e.kind ≠ .replace → Text.endsApart e.text = true) :
    (s.push e).Neat := by
  refine ⟨?_, h.closings⟩
  intro i hi
  rcases List.mem_append.mp hi with hi | hi
  · exact h.inserted i hi
  · rw [List.mem_singleton.mp hi]
    exact he

theorem close (h : s.Neat) (depth stop : Nat) : (s.close depth stop).Neat := by
  unfold Scan.close
  split
  · rename_i text hlookup
    obtain ⟨front, back, hsplit, -⟩ := List.lookup_eq_some_iff.mp hlookup
    have htext : Text.endsApart text = true := h.closings (depth, text) (by rw [hsplit]; simp)
    refine ⟨(h.push (.insertAfter stop text) fun _ => htext).inserted, ?_⟩
    intro c hc
    exact h.closings c (List.mem_of_mem_filter hc)
  · exact h

theorem openBlock (h : s.Neat) {b : Boundary}
    (hindent : ∀ c ∈ b.indent.toList, Text.isIndent c = true) : (s.openBlock b).Neat := by
  unfold Scan.openBlock
  split
  · have hopening : Text.endsApart ("\x7b\n" ++ b.indent) = true :=
      Text.endsApart_append_indent (by decide) hindent
    have hpushed := h.push (.insertBefore b.span.start ("\x7b\n" ++ b.indent)) fun _ => hopening
    refine ⟨hpushed.inserted, ?_⟩
    intro c hc
    rcases List.mem_cons.mp hc with rfl | hc
    · exact Text.endsApart_append _ (by decide)
    · exact h.closings c hc
  · exact h

theorem hoist (h : s.Neat) {b : Boundary}
    (hindent : ∀ c ∈ b.indent.toList, Text.isIndent c = true) (side : Side) (text : String) :
    (s.hoist b side text).Neat := by
  have hopened := h.openBlock hindent
  cases side with
  | before =>
    have htext : Text.endsApart (text ++ ";\n" ++ b.indent) = true :=
      Text.endsApart_append_indent (Text.endsApart_append _ (by decide)) hindent
    exact (hopened.push (.insertBefore b.span.start _) fun _ => htext).of_same rfl rfl
  | after =>
    have htext : Text.endsApart ("\n" ++ b.indent ++ text ++ ";") = true :=
      Text.endsApart_append _ (by decide)
    exact (hopened.push (.insertAfter b.span.stop _) fun _ => htext).of_same rfl rfl

/-- Rendering hands on some of the edits of the visit. -/
theorem render (h : s.Neat) {visit : Scan → Scan} (hvisit : ∀ r : Scan, r.Neat → (visit r).Neat)
    (span : Span) : (s.render setting span visit).1.Neat := by
  have hempty : Scan.Neat { s with queue := [] } := ⟨by simp, h.closings⟩
  have hvisited := hvisit _ hempty
  have hforwarded : Scan.Neat { visit { s with queue := [] } with
      queue := s.queue ++ ((visit { s with queue := [] }).queue.partition span).2 } := by
    refine ⟨?_, hvisited.closings⟩
    intro e he
    rcases List.mem_append.mp he with he | he
    · exact h.inserted e he
    · rw [EditQueue.partition, List.partition_eq_filter_filter] at he
      exact hvisited.inserted e (List.mem_of_mem_filter he)
  unfold Scan.render
  simp only
  split
  · exact hforwarded
  · exact hforwarded.of_same rfl rfl

theorem apply (h : s.Neat) (site : CodeNode) (ancestors : List CodeNode) (operation : Operation)
    (plan : Plan) :
    (s.apply site ancestors operation (boundary setting.file.source site ancestors) plan).Neat := by
  have hreplaced : ∀ span,
      ((s.push (.replace span plan.replacement)).count operation).Neat := by
    intro span
    have hpush := h.push (.replace span plan.replacement) fun hkind => absurd rfl hkind
    cases operation <;> exact hpush.of_same rfl rfl
  unfold Scan.apply
  split
  · rename_i b hb
    exact (hreplaced _).hoist (isIndent_of_boundaryFrom hb) _ _
  · exact hreplaced _
  · exact hreplaced _

/-- Each step of a search keeps inserted texts from ending in a word. -/
theorem invariant (setting : Setting) : Scan.Invariant setting Scan.Neat where
  unresolved h span field objectClass := by
    unfold Scan.reportUnresolved
    split
    · exact h.of_same rfl rfl
    · exact h
  escape h _ _ _ := h.of_same rfl rfl
  refusal h _ _ _ _ := h.of_same rfl rfl
  duplicate h offset u operation := by
    unfold Scan.noteDuplicate
    split
    · exact h.of_same rfl rfl
    · exact h
  render h _ hvisit span := h.render (fun _ hr => hvisit hr) span
  apply h := h.apply
  close h := h.close

end Scan.Neat

theorem endsApart_members {spec : AccessorSpec} :
    ∀ m ∈ spec.members, Text.endsApart m = true := by
  intro m hm
  have hbody : ∀ text : String, Text.endsApart (text ++ "; \x7d") = true :=
    fun text => Text.endsApart_append _ (by decide)
  rcases List.mem_append.mp hm with hm | hm
  · split at hm
    · rcases List.mem_pair.mp hm with rfl | rfl <;> exact hbody _
    · exact absurd hm (by simp)
  · split at hm
    · rw [List.mem_singleton.mp hm]
      exact hbody _
    · exact absurd hm (by simp)

/-- No accessor is inserted with text that ends in a word. -/
theorem endsApart_insertions {file : SourceFile} {targets : List Target} {e : Edit}
    (he : e ∈ insertions file targets) : Text.endsApart e.text = true := by
  obtain ⟨spec, -, h⟩ := List.mem_filterMap.mp he
  unfold insertion at h
  simp only at h
  split at h
  · exact absurd h (by simp)
  · rename_i hmembers
    rw [List.isEmpty_iff] at hmembers
    split at h
    · split at h
      · rw [← Option.some.inj h]
        exact Text.endsApart_append _ (Text.endsApart_intercalate hmembers endsApart_members)
      · rw [← Option.some.inj h]
        refine Text.endsApart_join (by simpa using hmembers) ?_
        intro p hp
        obtain ⟨m, hm, rfl⟩ := List.mem_map.mp hp
        exact Text.endsApart_append _ (endsApart_members m hm)
    · split at h
      · rw [← Option.some.inj h]
        refine Text.endsApart_join (by simpa using hmembers) ?_
        intro p hp
        obtain ⟨m, hm, rfl⟩ := List.mem_map.mp hp
        exact Text.endsApart_append _ (by decide)
      · rw [← Option.some.inj h]
        exact Text.endsApart_append _ (by decide)

/-! Replaced spans -/

def writtenAccess? (t : SurveyedCode) : Option Code :=
  t.code.children.head?.map Code.unparen

/-- The usage at a position is a write, and the span that it gives up starts elsewhere than
the access it writes to: with parentheses around either, or with an operator in front. -/
def GivesUpFront (setting : Setting) (body : SurveyedCode) (p : List Nat) (span : Span) : Prop :=
  Rewritten setting body p span ∧ ∃ t w, body.at? p = some t ∧ write? setting t = some w ∧
    ∃ access, writtenAccess? t = some access ∧ access.span.start ≠ span.start

def StandsApart (source : List Char) (c : Code) : Prop :=
  match c.shape with
  | .identifier _ | .this | .member .. => Text.wordBefore source c.span.start = false
  | _ => True

instance (source : List Char) (c : Code) : Decidable (StandsApart source c) := by
  unfold StandsApart
  split <;> infer_instance

section Usages

variable {setting : Setting} {body : SurveyedCode} {p : List Nat}

/-- What stands inside parentheses is a part of the code. -/
theorem unparen_mem_subtrees (c : Code) : c.unparen ∈ subtrees c := by
  induction c using Tree.inductionOn with
  | h i cs ih =>
    unfold Code.unparen Tree.skip
    split
    · cases cs with
      | nil => exact self_mem_subtrees _
      | cons c cs =>
        exact mem_subtrees_node.mpr (Or.inr ⟨c, List.mem_cons_self, ih c List.mem_cons_self⟩)
    · exact self_mem_subtrees _

theorem shape_unparen_of_usage? {env : Env} {c : Code} {u : Usage}
    (h : usage? setting env c = some u) :
    ∃ isArrow field, c.unparen.shape = .member isArrow field := by
  unfold usage? at h
  split at h
  rename_i i cs hc
  split at h
  · rename_i isArrow field base rest hshape
    exact ⟨isArrow, field, by rw [hc]; exact hshape⟩
  · exact absurd h (by simp)

/-- The access that a write is to. -/
theorem exists_access_of_write? {t : SurveyedCode} {w : Usage × Operation}
    (h : write? setting t = some w) :
    ∃ access : Code, access ∈ subtrees t.code ∧ writtenAccess? t = some access ∧
      ∃ isArrow field, access.shape = .member isArrow field := by
  have hfirst : ∀ {c : Code} {cs}, t.code.children = c :: cs → c.unparen ∈ subtrees t.code := by
    intro c cs hchildren
    rw [← node_info_children t.code]
    refine mem_subtrees_node.mpr (Or.inr ⟨c, ?_, unparen_mem_subtrees c⟩)
    rw [hchildren]
    exact List.mem_cons_self
  unfold write? at h
  split at h
  · rename_i hchildren
    obtain ⟨u, hu, -⟩ := Option.map_eq_some_iff.mp h
    exact ⟨_, hfirst hchildren, by rw [writtenAccess?, hchildren]; rfl,
      shape_unparen_of_usage? hu⟩
  · rename_i hchildren
    obtain ⟨u, hu, -⟩ := Option.map_eq_some_iff.mp h
    exact ⟨_, hfirst hchildren, by rw [writtenAccess?, hchildren]; rfl,
      shape_unparen_of_usage? hu⟩
  · exact absurd h (by simp)

/-- A usage that is given up directly behind a word is a write that gives up something in
front of its access. -/
theorem Rewritten.givesUpFront {source : List Char} {span : Span}
    (h : Rewritten setting body p span) (hapart : Everywhere (StandsApart source) body.code)
    (hword : Text.wordBefore source span.start = true) : GivesUpFront setting body p span := by
  have hmember : ∀ {t : SurveyedCode} {c : Code} {isArrow field}, body.at? p = some t →
      c ∈ subtrees t.code → c.shape = .member isArrow field → c.span.start ≠ span.start := by
    intro t c isArrow field ht hc hshape heq
    have hmem : t.code ∈ subtrees body.code := by
      rw [SurveyedCode.code, SurveyedCode.code, subtrees_map]
      exact List.mem_map_of_mem (mem_subtrees_of_at? ht)
    have hc' := (hapart.of_mem hmem).of_mem hc |>.here
    unfold StandsApart at hc'
    rw [hshape, heq, hword] at hc'
    exact absurd hc' (by simp)
  have hwritten : ∀ {t : SurveyedCode} {w}, body.at? p = some t → write? setting t = some w →
      GivesUpFront setting body p span := by
    intro t w ht hw
    obtain ⟨access, hmem, haccess, isArrow, field, hshape⟩ := exists_access_of_write? hw
    exact ⟨h, t, w, ht, hw, access, haccess, hmember ht hmem hshape⟩
  cases h with
  | @read t u ht hread _ =>
    have hshape : ∃ isArrow field, t.code.shape = .member isArrow field := by
      unfold read? at hread
      split at hread
      · rename_i isArrow field hshape
        obtain ⟨x, parts⟩ := t
        exact ⟨isArrow, field, hshape⟩
      · exact absurd hread (by simp)
    obtain ⟨isArrow, field, hshape⟩ := hshape
    obtain ⟨x, parts⟩ := t
    exact absurd rfl (hmember ht (self_mem_subtrees _) hshape)
  | whole ht hwrite _ => exact hwritten ht hwrite
  | hoisted hhoist _ =>
    obtain ⟨t, ht, hat⟩ := Option.bind_eq_some_iff.mp hhoist
    obtain ⟨u, operation, hwrite, -⟩ := exists_write_of_hoistAt hat
    exact hwritten ht hwrite

/-- What is queued while a part of a body is rendered is queued by actions. -/
theorem exists_localQueue_eq {fs : List Function}
    (hfull : ∀ f ∈ fs, ∀ b, f.body = some b → Everywhere Code.Full b)
    (hbody : body ∈ surveyFunctions setting.symbols fs) {t : SurveyedCode}
    (ht : body.at? p = some t) (s : Scan) :
    ∃ as, localQueue setting body p t s = (execAll setting as { s with queue := [] }).queue := by
  obtain ⟨hvisit, hbase⟩ := visitPerforms setting t.code (full_of_at? hfull hbody ht)
  unfold localQueue
  simp only
  split
  · rename_i hobject
    rw [Bool.and_eq_true] at hobject
    have hqueue := congrArg Scan.queue
      (hbase t.info.2 (ancestorsAt body p) hobject.2 { s with queue := [] })
    exact ⟨_, hqueue⟩
  · have hqueue := congrArg Scan.queue
      (hvisit t.info.2 (ancestorsAt body p) { s with queue := [] })
    exact ⟨_, hqueue⟩

end Usages

/-- The queues of a run: the one that is applied to the file, and those that parts of the
searched bodies are rendered with. -/
inductive QueueOf (config : AccessorsConfig) (u : SourceUnit) : EditQueue → Prop where
  | file : QueueOf config u ((scanUnit config u (select config.fields u).targets).queue
      ++ insertions u.primary (select config.fields u).targets)
  | part {body t : SurveyedCode} {p : List Nat} {s : Scan}
      (hbody : body ∈ surveyFunctions (Symbols.ofUnit u)
        (u.primary.functions.filter config.scope.includes))
      (ht : body.at? p = some t) (hs : s.Neat) :
      QueueOf config u (localQueue (.ofUnit config.fields u) body p t s)

namespace QueueOf

variable {config : AccessorsConfig} {u : SourceUnit} {queue : EditQueue}

theorem endsApart (h : QueueOf config u queue)
    (hfull : ∀ f ∈ u.primary.functions.filter config.scope.includes, ∀ b, f.body = some b →
      Everywhere Code.Full b)
    {e : Edit} (he : e ∈ queue) (hkind : e.kind ≠ .replace) : Text.endsApart e.text = true := by
  cases h with
  | file =>
    rcases List.mem_append.mp he with he | he
    · obtain ⟨env, hscan⟩ := scan_eq (.ofUnit config.fields u) _ hfull
      have hneat : Scan.Neat (execAll (.ofUnit config.fields u) (actsOfFunctions
          (.ofUnit config.fields u) (u.primary.functions.filter config.scope.includes)) {}) :=
        (Scan.Neat.invariant _).execAll _ ⟨by simp, by simp⟩
      refine hneat.inserted e ?_ hkind
      have hqueue := congrArg Scan.queue hscan
      exact hqueue ▸ he
    · exact endsApart_insertions he
  | @part body t p s hbody ht hs =>
    obtain ⟨as, hqueue⟩ := @exists_localQueue_eq (.ofUnit config.fields u) _ _ _ hfull hbody _ ht s
    have hneat : Scan.Neat (execAll (.ofUnit config.fields u) as { s with queue := [] }) :=
      (Scan.Neat.invariant _).execAll as ⟨by simp, hs.closings⟩
    rw [hqueue] at he
    exact hneat.inserted e he hkind

theorem rewritten (h : QueueOf config u queue)
    (hfull : ∀ f ∈ u.primary.functions.filter config.scope.includes, ∀ b, f.body = some b →
      Everywhere Code.Full b)
    {e : Edit} (he : e ∈ queue) (hkind : e.kind = .replace) :
    ∃ body ∈ surveyFunctions (Symbols.ofUnit u)
        (u.primary.functions.filter config.scope.includes),
      ∃ p, Rewritten (.ofUnit config.fields u) body p e.span := by
  cases h with
  | file =>
    rcases List.mem_append.mp he with he | he
    · exact (edit_of_scan (.ofUnit config.fields u) hfull he).1 hkind
    · exact absurd hkind (accessorPoint_of_mem_insertions he).1
  | part hbody ht hs =>
    obtain ⟨q, -, hq⟩ := rewritten_of_mem_localQueue hfull hbody ht he hkind
    exact ⟨_, hbody, q, hq⟩

end QueueOf

/-- Let no name and no access in a file stand directly behind a word. Then a replacement that is
queued runs together with the word ahead of it exactly if it begins with a word itself,
nothing is inserted where it starts, and it is a write that gives up something in front of its
access. -/
theorem fuses_iff_gives_up_front (config : AccessorsConfig) (path : String) (source : List Char)
    (parsed : Parsed) (headers : List SourceFile)
    (hapart : ∀ body ∈ Decl.bodiesOf (SourceFile.ofParsed path source parsed).decls,
      Everywhere (StandsApart source) body)
    {queue : EditQueue} (hqueue : QueueOf config ⟨.ofParsed path source parsed, headers⟩ queue)
    {e : Edit} (he : e ∈ queue) (hkind : e.kind = .replace) :
    let u : SourceUnit := ⟨.ofParsed path source parsed, headers⟩
    let fs := u.primary.functions.filter config.scope.includes
    queue.Fuses source e ↔
      Text.startsWithWord e.text = true ∧ Text.wordBefore source e.offset = true ∧
        (∀ i ∈ queue, i.kind ≠ .replace → i.offset ≠ e.offset) ∧
        ∃ body ∈ surveyFunctions (Symbols.ofUnit u) fs, ∃ p,
          GivesUpFront (.ofUnit config.fields u) body p e.span := by
  intro u fs
  have hfull : ∀ f ∈ fs, ∀ b, f.body = some b → Everywhere Code.Full b :=
    fun f hf b hb => full_body (List.mem_of_mem_filter hf) hb
  constructor
  · rintro ⟨hstarts, hword, hnone⟩
    refine ⟨hstarts, hword, ?_, ?_⟩
    · intro i hi hinserted hoffset
      exact hnone ⟨i, hi, hinserted, hoffset, hqueue.endsApart hfull hi hinserted⟩
    · obtain ⟨body, hbody, p, hp⟩ := hqueue.rewritten hfull he hkind
      refine ⟨body, hbody, p, hp.givesUpFront ?_ hword⟩
      have hcode : body.code ∈ fs.filterMap (·.body) := by
        rw [← code_surveyFunctions (Symbols.ofUnit u) fs]
        exact List.mem_map_of_mem hbody
      obtain ⟨f, hf, hb⟩ := List.mem_filterMap.mp hcode
      exact hapart _ (List.mem_filterMap.mpr ⟨f, List.mem_of_mem_filter hf, hb⟩)
  · rintro ⟨hstarts, hword, hnone, -⟩
    refine ⟨hstarts, hword, ?_⟩
    rintro ⟨i, hi, hinserted, hoffset, -⟩
    exact hnone i hi hinserted hoffset

section Example

open ParseTree

/-- A function with the statement `b=sizeof(a.x=3);`, in which the parentheses are all that
stands between the keyword and the access. -/
def sizeofText : List Char :=
  unitText "b=sizeof(a.x=3);"

def sizeofTree : ParseTree :=
  unitTree 45 [named "expression_statement" 29 45
    [named "assignment_expression" 29 44
      [filling "left" "identifier" 29 30 [],
       mark (some "operator") "=" 30 31,
       filling "right" "sizeof_expression" 31 44
         [filling "value" "parenthesized_expression" 37 44
            [named "assignment_expression" 38 43
               [accessTree "left" 38,
                mark (some "operator") "=" 41 42,
                filling "right" "number_literal" 42 43 []]]]]]]

def sizeofUnit : SourceUnit :=
  ⟨.ofParsed "f.cpp" sizeofText ⟨sizeofTree, false⟩, []⟩

def sizeofQueue : EditQueue :=
  (scanUnit ⟨["F::x"], .all⟩ sizeofUnit (select ["F::x"] sizeofUnit).targets).queue
    ++ insertions sizeofUnit.primary (select ["F::x"] sizeofUnit).targets

/-- The getter that takes the place of the parentheses runs together with `sizeof`. -/
theorem getter_joins_sizeof :
    (∀ body ∈ Decl.bodiesOf sizeofUnit.primary.decls,
      Everywhere (StandsApart sizeofText) body) ∧
    Edit.replace ⟨37, 44⟩ "a.getX()" ∈ sizeofQueue ∧
    sizeofQueue.Fuses sizeofText (.replace ⟨37, 44⟩ "a.getX()") := by
  decide +kernel

/-- The write in parentheses gives up what stands in front of its access. -/
theorem fuses_iff_gives_up_front_sizeof :
    let fs := sizeofUnit.primary.functions.filter (UsageScope.includes .all)
    sizeofQueue.Fuses sizeofText (.replace ⟨37, 44⟩ "a.getX()") ∧
      ∃ body ∈ surveyFunctions (Symbols.ofUnit sizeofUnit) fs, ∃ p,
        GivesUpFront (.ofUnit ["F::x"] sizeofUnit) body p ⟨37, 44⟩ := by
  intro fs
  have hfuses : sizeofQueue.Fuses sizeofText (.replace ⟨37, 44⟩ "a.getX()") := by
    decide +kernel
  have hiff := fuses_iff_gives_up_front ⟨["F::x"], .all⟩ "f.cpp" sizeofText ⟨sizeofTree, false⟩ []
    (by decide) .file (show Edit.replace ⟨37, 44⟩ "a.getX()" ∈ sizeofQueue by
      decide +kernel) rfl
  exact ⟨hfuses, (hiff.mp hfuses).2.2.2⟩

end Example

end Accessors

end Encapsulate
