import Encapsulate.Accessors.Transform
import Encapsulate.Proofs.Grammar
import Encapsulate.Proofs.Origins
import Encapsulate.Proofs.Placement
import Encapsulate.Proofs.Visiting

/-!
A run never fails to apply its edits. Code read from a sound and grammatical parse tree is
laid out in the text as its visits need it, and different bodies stand apart, so the edits of
all searched functions can be combined. Accessors go to places outside of all bodies, or to
the start of a line of which only blanks separate them.
-/

namespace Encapsulate

namespace Cpp.Code

open Encapsulate.Tree ParseTree

theorem text_of_empty {source : List Char} {t : ParseTree} (h : t.span.stop ≤ t.span.start) :
    text source t = "" := by
  have hzero : t.span.stop - t.span.start = 0 := by omega
  have hnone : ∀ cs, Text.takeBytes 0 cs = [] := by
    intro cs
    cases cs with
    | nil => rfl
    | cons c cs =>
      have hpos := c.utf8Size_pos
      rw [Text.takeBytes, if_neg (by omega)]
  rw [text, Text.sliceString, Text.slice, hzero, hnone]

theorem memberParts_field {source : List Char} {cs : List ParseTree} {isArrow : Bool}
    {name : String} (h : memberParts source cs = some (isArrow, name)) :
    ∃ v, field? "field" cs = some v ∧ name = text source v := by
  unfold memberParts at h
  cases ho : field? "argument" cs with
  | none => simp [ho] at h
  | some object =>
    cases hv : field? "field" cs with
    | none => simp [ho, hv] at h
    | some v =>
      simp only [ho, hv, Option.bind_eq_bind, Option.bind_some, Option.pure_def,
        Option.some.injEq, Prod.mk.injEq] at h
      exact ⟨v, rfl, h.2.symm⟩

/-- An access with a name covers the name. -/
theorem named_read {source : List Char} {t : ParseTree} (ht : Tidy t) (role : Role)
    {isArrow : Bool} {field : String} (h : (read source role t).shape = .member isArrow field)
    (hfield : field ≠ "") :
    (read source role t).span.start < (read source role t).span.stop := by
  induction t using induct_descendants with
  | h t ih =>
    obtain ⟨i, cs⟩ := t
    rw [read] at h ⊢
    cases hk : Construct.ofKind i.kind with
    | member =>
      simp only [hk] at h ⊢
      cases hparts : memberParts source cs with
      | none => simp [hparts, shape] at h
      | some parts =>
        obtain ⟨arrow, name⟩ := parts
        simp only [hparts, shape, info_node, Shape.member.injEq] at h
        obtain ⟨v, hv, hname⟩ := memberParts_field hparts
        change i.span.start < i.span.stop
        by_contra hempty
        have hin := ht.here.inside v (field?_mem hv)
        have hle := (ht.child (field?_mem hv)).here.start_le
        change i.span.contains v.span = true at hin
        rw [Span.contains_iff] at hin
        have htext : text source v = "" := text_of_empty (by omega)
        exact hfield (by rw [← h.2, hname, htext])
    | elseClause =>
      simp only [hk, readFirst_eq] at h ⊢
      cases hitem : cs.find? isItem with
      | none => simp [hitem, shape] at h
      | some c =>
        simp only [hitem, Option.map_some, Option.getD_some] at h ⊢
        have hc := List.mem_of_find?_eq_some hitem
        exact ih c (child_mem_descendants hc) (ht.child hc) h
    | declaration => simp [hk, shape] at h
    | loop kind => cases kind <;> simp [hk, shape] at h
    | braced | step | unary | paren | subscript =>
      simp only [hk] at h
      split at h <;> simp [shape] at h
    | _ => simp [hk, shape] at h

end Cpp.Code

namespace Accessors

open Cpp Encapsulate.Tree ParseTree

/-- Code read from a sound tree is laid out as the tree is. -/
theorem laid_read {source : List Char} {t : ParseTree} (ht : Sound source t) (role : Role) :
    Everywhere (Laid source) (Code.read source role t) := by
  refine Code.everywhere_read (K := Sound source) ?_ ?_ ?_ role ht
  · intro t ht v hv
    exact ht.of_mem_descendants hv
  · intro role t ht hmade
    have hnamed : ∀ isArrow field, (Code.read source role t).shape = .member isArrow field →
        field ≠ "" → (Code.read source role t).span.start < (Code.read source role t).span.stop :=
      fun _ _ hshape hfield => Code.named_read ht.tidy role hshape hfield
    have hnested : Code.Nested (Code.read source role t) :=
      (Code.nested_read ht.tidy source role).here
    obtain ⟨shape, pieces, hread, -, harity⟩ := hmade
    rw [hread] at hnamed hnested ⊢
    refine ⟨ht.tidy.here.start_le, ht.onBoundary.here.1, ht.onBoundary.here.2, hnested.inside,
      hnested.apart, ?_, hnamed⟩
    intro n hn
    rw [children_node, List.length_map]
    exact harity n hn
  · intro t i ht harity hspan
    have hstart := ht.onBoundary.here.1
    have hstop := ht.onBoundary.here.2
    have hle := ht.tidy.here.start_le
    have hfull : Code.Full (.node i []) := by
      intro n hn
      rw [Code.shape, info_node, harity] at hn
      exact absurd hn (by simp)
    have hnamed : ∀ isArrow field, Code.shape (.node i []) = .member isArrow field →
        field ≠ "" → (Code.span (.node i [])).start < (Code.span (.node i [])).stop := by
      intro isArrow field hshape _
      rw [Code.shape, info_node] at hshape
      rw [hshape] at harity
      exact absurd harity (by simp [Code.arity?])
    rcases hspan with hspan | hspan
    · exact ⟨by rw [Code.span, info_node, hspan]; exact hle,
        by rw [Code.span, info_node, hspan]; exact hstart,
        by rw [Code.span, info_node, hspan]; exact hstop, by simp, List.Pairwise.nil, hfull, hnamed⟩
    · exact ⟨by rw [Code.span, info_node, hspan]; exact Nat.le_refl _,
        by rw [Code.span, info_node, hspan]; exact hstop,
        by rw [Code.span, info_node, hspan]; exact hstop, by simp, List.Pairwise.nil, hfull, hnamed⟩

/-- The bodies of the functions of a file are laid out. -/
theorem laid_body {path : String} {source : List Char} {parsed : Parsed} {body : Code}
    (hsound : Sound source parsed.tree)
    (hbody : body ∈ Decl.bodiesOf (SourceFile.ofParsed path source parsed).decls) :
    Everywhere (Laid source) body := by
  obtain ⟨v, hv, rfl⟩ := (SourceFile.placed_ofParsed path source parsed).body body hbody
  exact laid_read (hsound.of_mem_descendants hv) .body

theorem produced_body {path : String} {source : List Char} {parsed : Parsed} {body : Code}
    (hgrammar : Everywhere Grammatical parsed.tree)
    (hbody : body ∈ Decl.bodiesOf (SourceFile.ofParsed path source parsed).decls) :
    Everywhere Produced body := by
  obtain ⟨v, hv, rfl⟩ := (SourceFile.placed_ofParsed path source parsed).body body hbody
  exact produced_read (hgrammar.of_mem_descendants hv) .body

/-- The bodies of the functions of a grammatical tree are settled where they are laid out. -/
theorem settled_of_laid {path : String} {source : List Char} {parsed : Parsed} {body : Code}
    (hgrammar : Everywhere Grammatical parsed.tree)
    (hbody : body ∈ Decl.bodiesOf (SourceFile.ofParsed path source parsed).decls)
    (hlaid : Everywhere (Laid source) body) (henclosing : Everywhere Enclosing body) :
    Everywhere (Settled source) body := by
  have hproduced := produced_body hgrammar hbody
  intro c hc
  exact ⟨hlaid c hc, (hproduced c hc).fenced (henclosing c hc)⟩

theorem settled_body {path : String} {source : List Char} {parsed : Parsed} {body : Code}
    (hsound : Sound source parsed.tree) (hgrammar : Everywhere Grammatical parsed.tree)
    (hbody : body ∈ Decl.bodiesOf (SourceFile.ofParsed path source parsed).decls)
    (hregular : Everywhere (Regular source) body) : Everywhere (Settled source) body :=
  settled_of_laid hgrammar hbody (laid_body hsound hbody) fun c hc => (hregular c hc).enclosing

section Search

variable {setting : Setting}

/-- Searching one function keeps to its body. -/
theorem turns_scanFunction {f : Function} {body : Code} (hbody : f.body = some body)
    (hsettled : Everywhere (Settled setting.file.source) body) :
    Turns setting [] [body.span] [body] fun s => scanFunction setting s f := by
  have henter : Still fun s => { s with env := Env.enter setting.symbols f } :=
    fun _ => ⟨rfl, rfl, fun h => h⟩
  have hvisit := visitTurns body hsettled [] (Context.root hsettled.here.onText)
  intro s hs
  simp only [scanFunction, hbody]
  exact hvisit.after_still henter s hs

/-- One function after the other: what a search queues can be combined. -/
theorem turns_scan (fs : List Function)
    (hrow : Row setting.file.source [] (fs.filterMap (·.body))) :
    Turns setting [] ((fs.filterMap (·.body)).map Code.span) (fs.filterMap (·.body))
      fun s => fs.foldl (scanFunction setting) s := by
  induction fs with
  | nil => exact Still.id.turns setting []
  | cons f fs ih =>
    cases hbody : f.body with
    | none =>
      rw [List.filterMap_cons_none hbody] at hrow ⊢
      intro s hs
      have hskip : scanFunction setting s f = s := by simp only [scanFunction, hbody]
      simp only [List.foldl_cons, hskip]
      exact ih hrow s hs
    | some body =>
      rw [List.filterMap_cons_some hbody] at hrow ⊢
      have hfirst := turns_scanFunction hbody (hrow.settled body (List.mem_cons_self ..))
      intro s hs
      simp only [List.foldl_cons]
      exact turns_cons hrow hfirst (ih hrow.tail) s hs

/-- Bodies that are settled and stand apart, in whatever order. -/
theorem Row.ofBodies {source : List Char} {bodies : List Code}
    (hsettled : ∀ body ∈ bodies, Everywhere (Settled source) body)
    (hapart : bodies.Pairwise fun a b : Code => Span.Apart a.span b.span) :
    Row source [] bodies :=
  ⟨fun body hbody => Context.root (hsettled body hbody).here.onText, hsettled, hapart, fun _ => rfl⟩

theorem scan_tame (setting : Setting) (fs : List Function)
    (hrow : Row setting.file.source [] (fs.filterMap (·.body))) :
    Tame setting.file.source [] ((fs.filterMap (·.body)).map Code.span) (fs.filterMap (·.body))
        (scan setting fs).queue ∧
      Combined (scan setting fs).diagnostics := by
  have hturn := turns_scan fs hrow {} (fun x hx => absurd hx (by simp))
  obtain ⟨new, hnew, htame⟩ := hturn.queue
  rw [List.nil_append] at hnew
  refine ⟨?_, hturn.combined fun d hd => absurd hd (by simp)⟩
  rw [scan, hnew]
  exact htame

end Search

/-- What a search replaces is the text of an expression, which a parser trims. -/
theorem trimmed_of_scan {setting : Setting} {fs : List Function}
    (hbodies : ∀ f ∈ fs, ∀ b, f.body = some b →
      Everywhere Code.Full b ∧ Everywhere (Regular setting.file.source) b)
    {e : Edit} (he : e ∈ (scan setting fs).queue) (hkind : e.kind = .replace)
    (hshaped : e.WellShaped) : Trimmed (Text.slice setting.file.source e.span) := by
  obtain ⟨body, hbody, p, hrewritten⟩ :=
    (edit_of_scan setting (fun f hf b hb => (hbodies f hf b hb).1) he).1 hkind
  obtain ⟨f, hf, hsurvey⟩ := List.mem_filterMap.mp hbody
  obtain ⟨b, hb, rfl⟩ := Option.map_eq_some_iff.mp hsurvey
  obtain ⟨t, ht, hspan, hsort⟩ := hrewritten.exists_expression
  have hmem : SurveyedCode.code t ∈ subtrees b := by
    rw [← code_survey setting.symbols (Env.enter setting.symbols f) b, SurveyedCode.code,
      SurveyedCode.code, subtrees_map]
    exact List.mem_map_of_mem ht
  have hregular := (hbodies f hf b hb).2 _ hmem
  unfold Edit.WellShaped at hshaped
  rw [hkind, ← hspan] at hshaped
  rw [← hspan]
  obtain ⟨i, parts⟩ := t
  exact hregular.trimmed hsort hshaped

section Insertion

/-- An insertion at a boundary that splits no trimmed part of the bodies. -/
structure Outside (source : List Char) (bodies : List Code) (e : Edit) : Prop where
  insertion : e.kind ≠ .replace
  point : e.span = .point e.offset
  boundary : Text.isBoundary source e.offset = true
  clear : ∀ range : Span, (∃ body ∈ bodies, (Code.span body).contains range = true) →
    Text.isBoundary source range.start = true → Text.isBoundary source range.stop = true →
    Trimmed (Text.slice source range) → ¬ range.strictlyContains e.offset = true

/-- An insertion at an offset that all bodies clear. -/
theorem Outside.ofClears {source : List Char} {bodies : List Code} {e : Edit}
    (hkind : e.kind ≠ .replace) (hpoint : e.span = .point e.offset)
    (hbound : Text.isBoundary source e.offset = true)
    (hclears : ∀ body ∈ bodies, Span.Clears e.offset (Code.span body)) :
    Outside source bodies e := by
  refine ⟨hkind, hpoint, hbound, ?_⟩
  rintro range ⟨body, hbody, hin⟩ - - -
  have hclear := hclears body hbody
  unfold Span.Clears at hclear
  simp only [Span.contains_iff, Span.strictlyContains_iff] at *
  omega

/-- An insertion at the start of a line with only blanks in front of an offset that all
bodies clear: a range that reached over the start of the line would end with a blank. -/
theorem Outside.ofLineStart {source : List Char} {bodies : List Code} {offset : Nat} {e : Edit}
    (hkind : e.kind ≠ .replace) (hpoint : e.span = .point e.offset)
    (hline : e.offset = Text.lineStart source offset)
    (hbound : Text.isBoundary source offset = true)
    (hblank : (Text.trim (Text.slice source ⟨Text.lineStart source offset, offset⟩)).isEmpty = true)
    (hclears : ∀ body ∈ bodies, Span.Clears offset (Code.span body)) :
    Outside source bodies e := by
  obtain ⟨hle, hstart⟩ := Text.lineStart_boundary hbound
  rw [← hline] at hblank hle hstart
  refine ⟨hkind, hpoint, hstart, ?_⟩
  rintro range ⟨body, hbody, hin⟩ hfirst hlast htrimmed hsplit
  have hclear := hclears body hbody
  unfold Span.Clears at hclear
  simp only [Span.contains_iff, Span.strictlyContains_iff] at hin hsplit
  have hover : range.start ≤ e.offset ∧ range.stop ≤ offset := by omega
  obtain ⟨c, hc, hend⟩ := Text.exists_last (b := ⟨e.offset, offset⟩) hfirst
    hlast hstart hbound hover.1 hsplit.2 hover.2
  have hnot := htrimmed.2 c hend
  rw [Text.isBlank_of_trim hblank hc] at hnot
  exact absurd hnot (by simp)

/-- Where accessors are inserted: at an offset that all bodies clear, or at the start of the line
of a record's closing brace, which they clear and which has only blanks in front of it. -/
theorem clears_of_insertions {path : String} {source : List Char} {parsed : Parsed}
    (hsound : Sound source parsed.tree) {targets : List Target} {e : Edit}
    (he : e ∈ insertions (SourceFile.ofParsed path source parsed) targets) :
    e.kind ≠ .replace ∧ e.span = .point e.offset ∧
      ∃ n, Text.isBoundary source n = true ∧
        (∀ body ∈ Decl.bodiesOf (SourceFile.ofParsed path source parsed).decls,
          Span.Clears n (Code.span body)) ∧
        (e.offset = n ∨ ∃ r ∈ (SourceFile.ofParsed path source parsed).records,
          n = r.closeBrace ∧ e.offset = Text.lineStart source n ∧
            (Text.trim (Text.slice source ⟨Text.lineStart source n, n⟩)).isEmpty = true) := by
  rw [insertions_eq] at he
  obtain ⟨t, -, hinsertion⟩ := List.mem_filterMap.mp he
  obtain ⟨r, hfind, hinsertion⟩ := Option.bind_eq_some_iff.mp hinsertion
  obtain ⟨hrecord, -⟩ := SourceFile.mem_of_findRecord hfind
  -- the offsets at which the record may be extended fall outside of all bodies
  have hanchor : ∀ n ∈ r.anchors, Text.isBoundary source n = true ∧
      ∀ body ∈ Decl.bodiesOf (SourceFile.ofParsed path source parsed).decls,
        Span.Clears n (Code.span body) := by
    intro n hn
    have hplaced := (SourceFile.placed_ofParsed path source parsed).anchor hsound n
      (List.mem_append_right _ (List.mem_flatMap.mpr ⟨r, hrecord, hn⟩))
    exact hplaced.2
  have hbrace := hanchor r.closeBrace (List.mem_cons_self ..)
  obtain ⟨hkind, hpoint, hcases⟩ := insertion_cases hinsertion
  refine ⟨hkind, hpoint, ?_⟩
  generalize hoffset : e.offset = n at hcases
  cases hcases with
  | afterMethod hlast =>
    have hm := List.mem_of_mem_filter (List.mem_of_getLast? hlast)
    obtain ⟨hbound, hclears⟩ :=
      hanchor _ (List.mem_cons_of_mem _ (List.mem_map_of_mem hm))
    exact ⟨_, hbound, hclears, Or.inl rfl⟩
  | beforeBrace hnone => exact ⟨_, hbrace.1, hbrace.2, Or.inl rfl⟩
  | lineOfBrace hnone hblank =>
    exact ⟨_, hbrace.1, hbrace.2, Or.inr ⟨r, hrecord, rfl, rfl, hblank⟩⟩

/-- Accessors are inserted outside of what is replaced. -/
theorem outside_insertions {path : String} {source : List Char} {parsed : Parsed}
    (hsound : Sound source parsed.tree) (targets : List Target) {e : Edit}
    (he : e ∈ insertions (SourceFile.ofParsed path source parsed) targets) :
    Outside source (Decl.bodiesOf (SourceFile.ofParsed path source parsed).decls) e := by
  obtain ⟨hkind, hpoint, n, hbound, hclears, hoffset | ⟨r, -, -, hline, hblank⟩⟩ :=
    clears_of_insertions hsound he
  · rw [← hoffset] at hbound hclears
    exact Outside.ofClears hkind hpoint hbound hclears
  · exact Outside.ofLineStart hkind hpoint hline hbound hblank hclears

end Insertion

section Run

theorem Combined.append {ds es : List Diagnostic} (hds : Combined ds) (hes : Combined es) :
    Combined (ds ++ es) := by
  intro d hd
  rcases List.mem_append.mp hd with hd | hd
  · exact hds d hd
  · exact hes d hd

/-- Edits of bodies none of which replaces a blank at either end. -/
structure Clipped (source : List Char) (searched : List Code) (queue : EditQueue) : Prop
    extends Tame source [] (searched.map Code.span) searched queue where
  trimmed : ∀ e ∈ queue, e.kind = .replace → Trimmed (Text.slice source e.span)

/-- The edits of the bodies and the insertions outside of them can be applied together. -/
theorem applicable_append {source : List Char} {bodies searched : List Code}
    {queue added : EditQueue} (hsub : ∀ body ∈ searched, body ∈ bodies)
    (hqueue : Clipped source searched queue)
    (hadded : ∀ e ∈ added, Outside source bodies e) :
    EditQueue.Applicable source 0 (queue ++ added) := by
  have hbounds : ∀ e ∈ queue ++ added, Text.isBoundary source e.span.start = true ∧
      Text.isBoundary source e.span.stop = true := by
    intro e he
    rcases List.mem_append.mp he with he | he
    · exact ⟨hqueue.start e he, hqueue.stop e he⟩
    · have hout := hadded e he
      exact ⟨hout.boundary, by rw [hout.point]; exact hout.boundary⟩
  constructor
  · intro e he
    obtain ⟨hstart, hstop⟩ := hbounds e he
    have hle := Text.isBoundary_width_le hstop
    simp only [EditQueue.fits, Nat.sub_zero, hstart, hstop, Bool.and_true, Bool.and_eq_true,
      decide_eq_true_eq]
    omega
  · intro e he
    rcases List.mem_append.mp he with he | he
    · exact hqueue.shaped e he
    · have hout := hadded e he
      have hstop : e.span.stop = e.span.start := by rw [hout.point]; rfl
      unfold Edit.WellShaped
      cases hkind : e.kind with
      | replace => exact absurd hkind hout.insertion
      | insertBefore => exact hstop
      | insertAfter => exact hstop
  · refine List.pairwise_append.mpr ⟨hqueue.compatible, ?_, ?_⟩
    · refine List.Pairwise.imp_of_mem ?_ (List.pairwise_of_forall fun _ _ => trivial)
      intro a b ha hb _
      have hka := (hadded a ha).insertion
      have hkb := (hadded b hb).insertion
      exact ⟨fun hk => absurd hk hka, fun hk => absurd hk hka, fun _ hk => absurd hk hkb⟩
    · intro a ha b hb
      have hout := hadded b hb
      refine ⟨fun _ hk => absurd hk hout.insertion, ?_, fun _ hk => absurd hk hout.insertion⟩
      intro hka _
      obtain ⟨r, hr, hin⟩ := hqueue.replaces a ha hka
      obtain ⟨body, hbody, rfl⟩ := List.mem_map.mp hr
      exact hout.clear a.span ⟨body, hsub body hbody, hin⟩ (hqueue.start a ha) (hqueue.stop a ha)
        (hqueue.trimmed a ha hka)

/-- The search of a file with a sound parse tree, whichever functions it takes. -/
theorem scanUnit_tame (config : AccessorsConfig) {path : String} {source : List Char}
    {parsed : Parsed} (headers : List SourceFile) (hsound : Sound source parsed.tree)
    (hgrammar : Everywhere Grammatical parsed.tree)
    (hregular : ∀ body ∈ Decl.bodiesOf (SourceFile.ofParsed path source parsed).decls,
      Everywhere (Regular source) body) (targets : List Target) :
    ∃ searched : List Code,
      (∀ body ∈ searched, body ∈ Decl.bodiesOf (SourceFile.ofParsed path source parsed).decls) ∧
      Clipped source searched
        (scanUnit config ⟨.ofParsed path source parsed, headers⟩ targets).queue ∧
      Combined (scanUnit config ⟨.ofParsed path source parsed, headers⟩ targets).diagnostics := by
  have hsub : (((SourceFile.ofParsed path source parsed).functions.filter
      config.scope.includes).filterMap (·.body)).Sublist
      (Decl.bodiesOf (SourceFile.ofParsed path source parsed).decls) :=
    List.filter_sublist.filterMap _
  have hrow : Row source [] (((SourceFile.ofParsed path source parsed).functions.filter
      config.scope.includes).filterMap (·.body)) := by
    refine Row.ofBodies ?_ ?_
    · intro body hbody
      exact settled_body hsound hgrammar (hsub.subset hbody) (hregular body (hsub.subset hbody))
    · exact ((SourceFile.placed_ofParsed path source parsed).apart hsound.tidy).sublist hsub
  obtain ⟨htame, hcombined⟩ := scan_tame ⟨.ofParsed path source parsed,
    Symbols.ofUnit ⟨.ofParsed path source parsed, headers⟩, targets⟩ _ hrow
  refine ⟨_, fun body hbody => hsub.subset hbody, ⟨htame, fun e he hkind => ?_⟩, hcombined⟩
  refine trimmed_of_scan (fun f hf b hb => ?_) he hkind (htame.shaped e he)
  have hmem : b ∈ Decl.bodiesOf (SourceFile.ofParsed path source parsed).decls :=
    hsub.subset (List.mem_filterMap.mpr ⟨f, hf, hb⟩)
  exact ⟨full_body (List.mem_of_mem_filter hf) hb, hregular b hmem⟩

end Run

section Example

def nestedText : List Char :=
  unitText "a.x=[&]\x7bint b=a.x++;\x7d;"

end Example

end Accessors

end Encapsulate
