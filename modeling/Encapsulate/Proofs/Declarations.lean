import Encapsulate.Proofs.Outline

/-!
Where the declarations of a file stand in its text. Every body is read from a tree
below the one that is read, and in a tidy tree different bodies stand apart. The
offsets at which a record may be extended, the ends of its member functions and its
closing brace, fall outside of all bodies.
-/

namespace Encapsulate

namespace Span

/-- Whether an offset falls outside of a span or on one of its ends. -/
def Clears (offset : Nat) (span : Span) : Prop :=
  span.stop ≤ offset ∨ offset ≤ span.start

/-- An offset of one span is outside of whatever is apart from it. -/
theorem Apart.clears {a b : Span} (h : Apart a b) {n : Nat} (hstart : a.start ≤ n)
    (hstop : n ≤ a.stop) : Clears n b := by
  unfold Apart at h
  unfold Clears
  omega

end Span

namespace Cpp

open Encapsulate.Tree ParseTree

namespace ParseTree

def OnBoundary (source : List Char) (t : ParseTree) : Prop :=
  Text.isBoundary source t.span.start = true ∧ Text.isBoundary source t.span.stop = true

instance (source : List Char) (t : ParseTree) : Decidable (OnBoundary source t) :=
  inferInstanceAs (Decidable (_ ∧ _))

/-- The body of a record has a closing brace after all of its members. -/
def Braced (t : ParseTree) : Prop :=
  DeclConstruct.ofKind t.kind = .record → ∀ body, field? "body" t.children = some body →
    ∃ brace ∈ body.children, ParseTree.kind brace = "\x7d" ∧
      ∀ c ∈ items body.children, (ParseTree.span c).stop ≤ (ParseTree.span brace).start

instance (t : ParseTree) : Decidable (Braced t) :=
  inferInstanceAs (Decidable (DeclConstruct.ofKind t.kind = .record →
    ∀ body ∈ field? "body" t.children,
      ∃ brace ∈ body.children, ParseTree.kind brace = "\x7d" ∧
        ∀ c ∈ items body.children, (ParseTree.span c).stop ≤ (ParseTree.span brace).start))

/-- A tidy tree with boundaries of characters at the ends of its nodes and with
closed records. -/
structure Sound (source : List Char) (t : ParseTree) : Prop where
  tidy : Tidy t
  onBoundary : Everywhere (OnBoundary source) t
  braced : Everywhere Braced t

instance (source : List Char) (t : ParseTree) : Decidable (Sound source t) :=
  decidable_of_iff (Tidy t ∧ Everywhere (OnBoundary source) t ∧ Everywhere Braced t)
    ⟨fun h => ⟨h.1, h.2.1, h.2.2⟩, fun h => ⟨h.1, h.2, h.3⟩⟩

namespace Sound

variable {source : List Char} {t v : ParseTree}

theorem of_mem_descendants (h : Sound source t) (hv : v ∈ descendants t) : Sound source v :=
  ⟨h.tidy.of_mem_descendants hv, h.onBoundary.of_mem_descendants hv,
    h.braced.of_mem_descendants hv⟩

theorem child (h : Sound source t) (hv : v ∈ t.children) : Sound source v :=
  h.of_mem_descendants (child_mem_descendants hv)

end Sound

end ParseTree

def Record.anchors (r : Record) : List Nat :=
  r.closeBrace :: r.methods.map (·.span.stop)

namespace Decl

def bodiesOf (ds : List Decl) : List Code :=
  (functionsOf ds).filterMap (·.body)

theorem functionsOf_append (as bs : List Decl) :
    functionsOf (as ++ bs) = functionsOf as ++ functionsOf bs := by
  induction as with
  | nil => simp [functionsOf]
  | cons a as ih => simp [functionsOf, ih]

theorem recordsOf_append (as bs : List Decl) :
    recordsOf (as ++ bs) = recordsOf as ++ recordsOf bs := by
  induction as with
  | nil => simp [recordsOf]
  | cons a as ih => simp [recordsOf, ih]

theorem bodiesOf_append (as bs : List Decl) :
    bodiesOf (as ++ bs) = bodiesOf as ++ bodiesOf bs := by
  simp [bodiesOf, functionsOf_append]

theorem bodiesOf_flatMap (l : List ParseTree) (g : ParseTree → List Decl) :
    bodiesOf (l.flatMap g) = l.flatMap fun c => bodiesOf (g c) := by
  induction l with
  | nil => rfl
  | cons c l ih => rw [List.flatMap_cons, bodiesOf_append, ih, List.flatMap_cons]

theorem recordsOf_flatMap (l : List ParseTree) (g : ParseTree → List Decl) :
    recordsOf (l.flatMap g) = l.flatMap fun c => recordsOf (g c) := by
  induction l with
  | nil => rfl
  | cons c l ih => rw [List.flatMap_cons, recordsOf_append, ih, List.flatMap_cons]

theorem functionsOf_nest (segments : List String) (ds : List Decl) :
    functionsOf (nest segments ds) = functionsOf ds := by
  have nested : ∀ segments : List String, functionsOf
      (segments.foldr (fun name inner => [.space (some name) inner]) ds) = functionsOf ds := by
    intro segments
    induction segments with
    | nil => rfl
    | cons s segments ih => simpa [functionsOf, functions] using ih
  cases segments with
  | nil => simp [nest, functionsOf, functions]
  | cons s segments => exact nested (s :: segments)

theorem recordsOf_nest (segments : List String) (ds : List Decl) :
    recordsOf (nest segments ds) = recordsOf ds := by
  have nested : ∀ segments : List String, recordsOf
      (segments.foldr (fun name inner => [.space (some name) inner]) ds) = recordsOf ds := by
    intro segments
    induction segments with
    | nil => rfl
    | cons s segments ih => simpa [recordsOf, records] using ih
  cases segments with
  | nil => simp [nest, recordsOf, records]
  | cons s segments => exact nested (s :: segments)

/-- Declarations that come from the tree `t`, and offsets of `t` that fall outside of
their bodies, as do the anchors of their records. -/
structure Placed (source : List Char) (t : ParseTree) (offsets : List Nat) (ds : List Decl) :
    Prop where
  body : ∀ b ∈ bodiesOf ds, ∃ v ∈ descendants t, b = Code.read source .body v
  apart : Tidy t → (bodiesOf ds).Pairwise fun a b : Code => Span.Apart a.span b.span
  anchor : Sound source t → ∀ n ∈ offsets ++ (recordsOf ds).flatMap Record.anchors,
    (t.span.start ≤ n ∧ n ≤ t.span.stop) ∧ Text.isBoundary source n = true ∧
      ∀ b ∈ bodiesOf ds, Span.Clears n (Code.span b)

namespace Placed

variable {source : List Char} {t v : ParseTree} {offsets : List Nat} {ds : List Decl}

theorem inside (h : Placed source t offsets ds) (ht : Tidy t) {b : Code} (hb : b ∈ bodiesOf ds) :
    t.span.contains b.span = true := by
  obtain ⟨v, hv, rfl⟩ := h.body b hb
  exact Span.contains_trans (span_contains_of_mem_descendants ht hv)
    (Code.contains_span_read (ht.of_mem_descendants hv) source .body)

/-- Only the bodies and the records matter. -/
theorem congr {es : List Decl} (h : Placed source t offsets ds) (hb : bodiesOf es = bodiesOf ds)
    (hr : recordsOf es = recordsOf ds) : Placed source t offsets es :=
  ⟨hb ▸ h.body, hb ▸ h.apart, hb ▸ hr ▸ h.anchor⟩

theorem append_empty {es : List Decl} (h : Placed source t offsets ds) (hb : bodiesOf es = [])
    (hr : recordsOf es = []) : Placed source t offsets (ds ++ es) := by
  refine h.congr ?_ ?_
  · rw [bodiesOf_append, hb, List.append_nil]
  · rw [recordsOf_append, hr, List.append_nil]

/-- What comes from a part of a tree comes from the tree. -/
theorem up (h : Placed source v offsets ds) (hv : v ∈ descendants t) :
    Placed source t offsets ds := by
  constructor
  · intro b hb
    obtain ⟨w, hw, hbw⟩ := h.body b hb
    exact ⟨w, descendants_trans hw hv, hbw⟩
  · intro ht
    exact h.apart (ht.of_mem_descendants hv)
  · intro ht n hn
    have hin := span_contains_of_mem_descendants ht.tidy hv
    obtain ⟨hv, hbound, hclear⟩ := h.anchor (ht.of_mem_descendants hv) n hn
    simp only [Span.contains_iff] at hin
    exact ⟨by omega, hbound, hclear⟩

/-- The end of a tree falls outside of all that comes from it. -/
theorem atStop (h : Placed source t [] ds) (hoff : ∀ n ∈ offsets, n = t.span.stop) :
    Placed source t offsets ds := by
  refine ⟨h.body, h.apart, ?_⟩
  intro ht n hn
  rcases List.mem_append.mp hn with hn | hn
  · rw [hoff n hn]
    refine ⟨⟨ht.tidy.here.start_le, Nat.le_refl _⟩, ht.onBoundary.here.2, fun b hb => ?_⟩
    have hin := h.inside ht.tidy hb
    simp only [Span.contains_iff] at hin
    exact Or.inl hin.2
  · exact h.anchor ht n (List.mem_append_right _ hn)

/-- What comes from several children of a tree. -/
theorem ofChildren {l : List ParseTree} (hl : l.Sublist t.children)
    {o : ParseTree → List Nat} {g : ParseTree → List Decl}
    (hg : ∀ c ∈ l, Placed source c (o c) (g c)) :
    Placed source t (l.flatMap o) (l.flatMap g) := by
  have hdesc : ∀ c ∈ l, c ∈ descendants t := fun c hc => child_mem_descendants (hl.subset hc)
  constructor
  · intro b hb
    rw [bodiesOf_flatMap] at hb
    obtain ⟨c, hc, hbc⟩ := List.mem_flatMap.mp hb
    exact ((hg c hc).up (hdesc c hc)).body b hbc
  · intro ht
    rw [bodiesOf_flatMap]
    refine List.pairwise_flatMap.mpr ⟨fun c hc => (hg c hc).apart (ht.child (hl.subset hc)), ?_⟩
    refine (ht.here.apart.sublist hl).imp_of_mem ?_
    intro c d hc hd hcd a ha b hb
    exact hcd.mono ((hg c hc).inside (ht.child (hl.subset hc)) ha)
      ((hg d hd).inside (ht.child (hl.subset hd)) hb)
  · intro ht n hn
    have hmem : ∃ c ∈ l, n ∈ o c ++ (recordsOf (g c)).flatMap Record.anchors := by
      rcases List.mem_append.mp hn with hn | hn
      · obtain ⟨c, hc, hnc⟩ := List.mem_flatMap.mp hn
        exact ⟨c, hc, List.mem_append_left _ hnc⟩
      · rw [recordsOf_flatMap, List.flatMap_assoc] at hn
        obtain ⟨c, hc, hnc⟩ := List.mem_flatMap.mp hn
        exact ⟨c, hc, List.mem_append_right _ hnc⟩
    obtain ⟨c, hc, hnc⟩ := hmem
    obtain ⟨hwithin, hbound, hclear⟩ := (hg c hc).anchor (ht.child (hl.subset hc)) n hnc
    refine ⟨(((hg c hc).up (hdesc c hc)).anchor ht n hnc).1, hbound, ?_⟩
    intro b hb
    rw [bodiesOf_flatMap] at hb
    obtain ⟨d, hd, hbd⟩ := List.mem_flatMap.mp hb
    by_cases hcd : c = d
    · subst hcd
      exact hclear b hbd
    · have hap := ht.tidy.here.apart_of_ne (hl.subset hc) (hl.subset hd) hcd
      exact (hap.mono (Span.contains_refl _)
        ((hg d hd).inside (ht.tidy.child (hl.subset hd)) hbd)).clears hwithin.1 hwithin.2

/-- The offset of the closing brace of a body that has one. -/
theorem closeBrace_eq {body brace : ParseTree} (ht : Tidy body) (hmem : brace ∈ body.children)
    (hkind : ParseTree.kind brace = "\x7d") :
    ∃ last ∈ body.children, closeBrace body = (ParseTree.span last).start ∧
      (ParseTree.span brace).start ≤ (ParseTree.span last).start := by
  have hbrace : brace ∈ body.children.filter (·.info.kind == "\x7d") := by
    refine List.mem_filter.mpr ⟨hmem, ?_⟩
    simpa [ParseTree.kind] using hkind
  have hsub : (body.children.filter (·.info.kind == "\x7d")).Sublist body.children :=
    List.filter_sublist
  obtain ⟨init, last, hlast⟩ :=
    (List.eq_nil_or_concat' _).resolve_left (List.ne_nil_of_mem hbrace)
  have hlastmem : last ∈ body.children := by
    refine hsub.subset ?_
    rw [hlast]
    simp
  refine ⟨last, hlastmem, ?_, ?_⟩
  · simp [closeBrace, hlast, ParseTree.span]
  · rw [hlast] at hbrace
    rcases List.mem_append.mp hbrace with hbrace | hbrace
    · have hpair := ht.here.inOrder.sublist hsub
      rw [hlast] at hpair
      have hafter := (List.pairwise_append.mp hpair).2.2 brace hbrace last (by simp)
      exact Nat.le_trans (ht.child hmem).here.start_le hafter
    · exact Nat.le_of_eq (by rw [List.mem_singleton.mp hbrace])

/-- A record whose members come from the items of the body among its children. -/
theorem ofRecord {r : Record} {body : ParseTree} (hkind : DeclConstruct.ofKind t.kind = .record)
    (hbody : field? "body" t.children = some body) (hclose : r.closeBrace = closeBrace body)
    {o : ParseTree → List Nat} {g : ParseTree → List Decl}
    (hg : ∀ c ∈ items body.children, Placed source c (o c) (g c))
    (hmethods : r.methods.map (·.span.stop) = (items body.children).flatMap o) :
    Placed source t [] [.record r ((items body.children).flatMap g)] := by
  have hchild := field?_mem hbody
  have hds := ofChildren (items_sublist body.children) hg
  have hup := hds.up (child_mem_descendants hchild)
  have hbodies : bodiesOf [.record r ((items body.children).flatMap g)] =
      bodiesOf ((items body.children).flatMap g) := by
    simp [bodiesOf, functionsOf, functions]
  have hrecords : recordsOf [.record r ((items body.children).flatMap g)] =
      r :: recordsOf ((items body.children).flatMap g) := by
    simp [recordsOf, records]
  constructor
  · rw [hbodies]
    exact hup.body
  · rw [hbodies]
    exact hup.apart
  · intro ht n hn
    rw [hrecords, List.nil_append, List.flatMap_cons, List.mem_append] at hn
    rw [hbodies]
    rcases hn with hn | hn
    · rcases List.mem_cons.mp hn with rfl | hn
      · -- the brace that counts is the last one, so it follows every member as well
        have hsound := ht.child hchild
        obtain ⟨brace, hmem, hkind', hafter⟩ := ht.braced.here hkind body hbody
        obtain ⟨last, hlast, hoffset, hle⟩ := closeBrace_eq hsound.tidy hmem hkind'
        have hin := span_contains_of_mem_descendants ht.tidy
          (descendants_trans (child_mem_descendants hlast) (child_mem_descendants hchild))
        simp only [Span.contains_iff] at hin
        have hlaid := (hsound.tidy.child hlast).here.start_le
        rw [hclose, hoffset]
        refine ⟨by omega, (hsound.child hlast).onBoundary.here.1, fun b hb => ?_⟩
        rw [bodiesOf_flatMap] at hb
        obtain ⟨c, hc, hbc⟩ := List.mem_flatMap.mp hb
        have hinside := (hg c hc).inside (hsound.tidy.child (Code.mem_children_of_mem_items hc)) hbc
        have hstop := hafter c hc
        simp only [Span.contains_iff] at hinside
        exact Or.inl (by omega)
      · rw [hmethods] at hn
        exact hup.anchor ht n (List.mem_append_left _ hn)
    · exact hup.anchor ht n (List.mem_append_right _ hn)

end Placed

theorem placed_readFunction {source : List Char} {scope : List String} {record : Option String}
    {t : ParseTree} {f : Function} (h : readFunction source scope record t = some f) :
    Placed source t [] [.function f] := by
  have hbodies : bodiesOf [.function f] = f.body.toList := by
    cases hb : f.body <;> simp [bodiesOf, functionsOf, functions, hb]
  have hbody : f.body = (field? "body" t.children).map (Code.read source .body) := by
    rw [← Code.readField_eq]
    unfold readFunction at h
    obtain ⟨declarator, -, h⟩ := Option.bind_eq_some_iff.mp h
    obtain ⟨signature, -, h⟩ := Option.bind_eq_some_iff.mp h
    obtain ⟨g, -, h⟩ := Option.bind_eq_some_iff.mp h
    simp only [Option.pure_def, Option.some.injEq] at h
    rw [← h]
  refine ⟨?_, ?_, by simp [recordsOf, records]⟩
  · intro b hb
    rw [hbodies, hbody, Option.mem_toList, Option.map_eq_some_iff] at hb
    obtain ⟨v, hv, rfl⟩ := hb
    exact ⟨v, child_mem_descendants (field?_mem hv), rfl⟩
  · intro _
    rw [hbodies]
    cases f.body <;> simp

/-- A declarator outside of records introduces neither a body nor a record. -/
theorem readDeclarator_empty (source : List Char) (scope : List String)
    (t declarator : ParseTree) :
    bodiesOf (readDeclarator source scope t declarator) = [] ∧
      recordsOf (readDeclarator source scope t declarator) = [] := by
  unfold readDeclarator
  split
  · rename_i signature _
    cases hf : readPrototype source scope t declarator signature with
    | none => exact ⟨rfl, rfl⟩
    | some f =>
      simp [bodiesOf, functionsOf, functions, recordsOf, records, (readPrototype_parts hf).2]
  · simp only
    generalize Declared.bind? _ _ _ = binding
    cases binding <;> exact ⟨rfl, rfl⟩

theorem readDeclarators_empty (source : List Char) (scope : List String) (t : ParseTree)
    (declarators : List ParseTree) :
    bodiesOf (declarators.flatMap (readDeclarator source scope t)) = [] ∧
      recordsOf (declarators.flatMap (readDeclarator source scope t)) = [] := by
  rw [bodiesOf_flatMap, recordsOf_flatMap]
  constructor
  · simp [(readDeclarator_empty source scope t _).1]
  · simp [(readDeclarator_empty source scope t _).2]

/-- All that is read from a tree is placed in it. -/
theorem kept_placed (source : List Char) :
    Kept source fun _ t ms ds => Placed source t (ms.map (·.span.stop)) ds where
  up hv h := h.up hv
  children hl hg := by
    rw [List.map_flatMap]
    exact Placed.ofChildren hl hg
  methods hms h := by
    refine h.atStop ?_
    intro n hn
    obtain ⟨m, hm, rfl⟩ := List.mem_map.mp hn
    rw [hms m hm]
  nest h := h.congr (by rw [bodiesOf, functionsOf_nest]; rfl) (recordsOf_nest _ _)
  record hkind _ hof hitems := by
    rw [hof.decls_eq]
    refine Placed.ofRecord hkind hof.body_eq hof.closeBrace_eq hitems ?_
    rw [hof.methods_eq, List.map_flatMap]
  function hf := placed_readFunction hf
  declarators h :=
    h.append_empty (readDeclarators_empty ..).1 (readDeclarators_empty ..).2

end Decl

/-- The declarations of a file are placed in its tree. -/
theorem SourceFile.placed_ofParsed (path : String) (source : List Char) (parsed : Parsed) :
    Decl.Placed source parsed.tree [] (ofParsed path source parsed).decls :=
  (Decl.kept_placed source).ofParsed path parsed

end Cpp

end Encapsulate
