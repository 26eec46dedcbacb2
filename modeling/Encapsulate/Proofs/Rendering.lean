import Encapsulate.Proofs.Edits
import Encapsulate.Proofs.Survey

/-!
Rewriting one usage. Rendering a part of it applies all that was queued inside the part,
so only insertions at statements around it are left over; the replacement then covers
the site and its parentheses, and a helper statement goes to an end of the boundary
statement. All of these edits can be combined.
-/

namespace Encapsulate.Accessors

open Cpp Encapsulate.Tree

section Site

variable {setting : Setting} {ancestors : List CodeNode}

/-- A single region that the hosts above are around. -/
theorem Area.ofRegion {source : List Char} {r : Span}
    (h : ∀ m ∈ ancestors, isHost m = true → m.span.contains r = true) :
    Area source ancestors [r] [] := by
  refine ⟨by simp, by simp, ?_⟩
  intro m hm hhost r' hr'
  rw [List.mem_singleton.mp hr']
  exact h m hm hhost

/-- A site with its parentheses. -/
theorem Area.ofSite {source : List Char} {site : CodeNode}
    (h : Context source site ancestors) :
    Area source ancestors [parenthesizedSpan site ancestors] [] := by
  refine Area.ofRegion ?_
  intro m hm hhost
  exact contains_parenthesizedSpan h.nested hm (isParen_eq_false_of_isHost hhost)

theorem turns_replace {n : CodeNode} (hn : OnText setting.file.source n)
    (hne : n.span.start < n.span.stop) (text : String) :
    Turns setting ancestors [n.span] [] fun s => s.push (.replace n.span text) := by
  intro s hs
  refine ⟨hs, ⟨[.replace n.span text], rfl, ?_⟩, fun h => h⟩
  have hmem : ∀ e ∈ [Edit.replace n.span text], e = .replace n.span text := by
    intro e he
    exact List.mem_singleton.mp he
  constructor
  · intro e he
    rw [hmem e he]
    exact hne
  · intro e he
    rw [hmem e he]
    exact hn.start
  · intro e he
    rw [hmem e he]
    exact hn.stop
  · intro e he _
    rw [hmem e he]
    exact ⟨n.span, List.mem_singleton_self _, Span.contains_refl _⟩
  · intro e he hkind
    rw [hmem e he] at hkind
    exact absurd rfl hkind
  · exact List.pairwise_singleton ..

/-- A helper statement is made only where one may stand. -/
theorem strategy_of_helper {calls : Accesses} {strategy : Strategy} {side : Side} {text : String}
    (h : (Plan.make calls strategy).helper = some (side, text)) : strategy = .hoist side := by
  unfold Plan.make at h
  split at h
  · simp at h
  · simp only [Option.some.injEq, Prod.mk.injEq] at h
    rw [h.1]
  · simp at h

/-- The edits of a plan fall on the site and its parentheses, and on the ends of its
boundary statement. -/
theorem turns_apply {site : CodeNode} (hctx : Context setting.file.source site ancestors)
    (hne : site.span.start < site.span.stop) (operation : Operation) (b : Option Boundary)
    (plan : Plan)
    (hhelper : ∀ side text b', plan.helper = some (side, text) → b = some b' →
      IsHosted ancestors b') :
    Turns setting ancestors [parenthesizedSpan site ancestors] []
      fun s => s.apply site ancestors operation b plan := by
  obtain ⟨m, hm, hspan⟩ := exists_parenthesizedSpan site ancestors
  have houter := parenthesizedSpan_contains hctx
  have hsite := hctx.onText site (List.mem_cons_self ..)
  -- neither the site nor its parentheses are empty
  have hwide : Turns setting ancestors [m.span] [] fun s =>
      (s.push (.replace m.span plan.replacement)).count operation := by
    refine (turns_replace (hctx.onText m hm) ?_ _).before_still (Scan.still_count operation)
    rw [hspan, Span.contains_iff] at houter
    omega
  have hnarrow : Turns setting ancestors [site.span] [] fun s =>
      (s.push (.replace site.span plan.replacement)).count operation :=
    (turns_replace hsite hne _).before_still (Scan.still_count operation)
  have harea : Area setting.file.source ancestors [m.span] [] := by
    rw [← hspan]
    exact Area.ofSite hctx
  unfold Scan.apply
  rw [hspan]
  split
  · rename_i side text b' hplan
    have hhosted := hhelper side text b' hplan rfl
    exact hwide.comp harea Area.nil (by simp [RegionsApart])
      (turns_hoist hhosted (fun n hn => hctx.onText n (List.mem_cons_of_mem _ hn)) side text)
  · exact hwide
  · refine hnarrow.mono ?_ (by simp)
    intro r hr
    rw [List.mem_singleton.mp hr]
    exact ⟨m.span, List.mem_singleton_self _, by rw [← hspan]; exact houter⟩

/-- What is queued inside a part can be applied to its text. -/
theorem Tame.applicable_inside {source : List Char} {d : Code} {new : EditQueue}
    (hd : OnText source d.info) (h : Tame source ancestors [d.span] [d] new) :
    EditQueue.Applicable (Text.slice source d.span) d.span.start
      (new.filter (Edit.isInside d.span)) := by
  have hle : d.span.start ≤ d.span.stop := hd.start_le
  have hwidth : Text.width (Text.slice source d.span) = d.span.stop - d.span.start :=
    Text.width_slice hd.start hd.stop hd.start_le
  constructor
  · intro e he
    obtain ⟨hmem, hinside⟩ := List.mem_filter.mp he
    have hwithin : d.span.start ≤ e.span.start ∧ e.span.start ≤ d.span.stop ∧
        d.span.start ≤ e.span.stop ∧ e.span.stop ≤ d.span.stop := by
      have hshaped := h.shaped e hmem
      unfold Edit.WellShaped at hshaped
      unfold Edit.isInside at hinside
      cases hkind : e.kind with
      | replace =>
        simp only [hkind, Span.contains_iff] at hshaped hinside
        omega
      | insertBefore =>
        simp only [hkind, Span.strictlyContains_iff, Edit.offset] at hshaped hinside
        omega
      | insertAfter =>
        simp only [hkind, Span.strictlyContains_iff, Edit.offset] at hshaped hinside
        omega
    obtain ⟨h₁, h₂, h₃, h₄⟩ := hwithin
    have hfirst := Text.isBoundary_slice hd.start hd.stop (h.start e hmem) h₁ h₂
    have hlast := Text.isBoundary_slice hd.start hd.stop (h.stop e hmem) h₃ h₄
    unfold EditQueue.fits
    simp only [Bool.and_eq_true, decide_eq_true_eq]
    exact ⟨⟨⟨h₁, by omega⟩, hfirst⟩, hlast⟩
  · intro e he
    exact h.shaped e (List.mem_of_mem_filter he)
  · exact h.compatible.sublist List.filter_sublist

/-- What is left over belongs to statements around the part. -/
theorem Tame.handedOn {source : List Char} {d : Code} {new : EditQueue}
    (hd : Everywhere (Settled source) d) (hencloses : Encloses d)
    (h : Tame source ancestors [d.span] [d] new) :
    Tame source ancestors [] [] (new.filter fun e => !Edit.isInside d.span e) := by
  have hmem : ∀ e ∈ new.filter (fun e => !Edit.isInside d.span e),
      e ∈ new ∧ Edit.isInside d.span e = false := by
    intro e he
    simpa using List.mem_filter.mp he
  have hkind : ∀ e ∈ new.filter (fun e => !Edit.isInside d.span e), e.kind ≠ .replace := by
    intro e he hreplace
    obtain ⟨hnew, houtside⟩ := hmem e he
    obtain ⟨r, hr, hin⟩ := h.replaces e hnew hreplace
    rw [List.mem_singleton.mp hr] at hin
    simp only [Edit.isInside, hreplace, hin] at houtside
    exact absurd houtside (by simp)
  refine ⟨fun e he => h.shaped e (hmem e he).1, fun e he => h.start e (hmem e he).1,
    fun e he => h.stop e (hmem e he).1, fun e he hreplace => absurd hreplace (hkind e he), ?_,
    h.compatible.sublist List.filter_sublist⟩
  intro e he _
  obtain ⟨hnew, houtside⟩ := hmem e he
  rcases h.inserts e hnew (hkind e he) with hanc | ⟨m, hm, hhost, hend⟩
  · exact Or.inl hanc
  · -- an end of a statement inside the part is strictly inside it
    obtain ⟨x, hx, hmx⟩ := mem_subtreesOf.mp hm
    rw [List.mem_singleton.mp hx] at hmx
    obtain ⟨hstart, hstop⟩ := hencloses m hmx hhost
    have hle : (Code.span m).start ≤ (Code.span m).stop := (hd.of_mem hmx).here.onText.start_le
    have hinside : d.span.strictlyContains e.offset = true := by
      rw [Span.strictlyContains_iff]
      unfold EndOf at hend
      omega
    have hboth : Edit.isInside d.span e = true := by
      unfold Edit.isInside
      cases hk : e.kind with
      | replace => exact absurd hk (hkind e he)
      | insertBefore => exact hinside
      | insertAfter => exact hinside
    rw [houtside] at hboth
    exact absurd hboth (by simp)

/-- Rendering a part leaves only insertions at statements around it. -/
theorem turns_render {d : Code} {f : Scan → Scan}
    (hd : Everywhere (Settled setting.file.source) d) (hencloses : Encloses d)
    (hf : Turns setting ancestors [d.span] [d] f) :
    Turns setting ancestors [] [] fun s => (s.render setting d.span f).1 := by
  intro s hs
  have hturn := hf { s with queue := [] } hs
  obtain ⟨new, hnew, htame⟩ := hturn.queue
  rw [List.nil_append] at hnew
  obtain ⟨text, htext⟩ := (htame.applicable_inside hd.here.onText).apply_isOk
  have hrender : (s.render setting d.span f).1 =
      { f { s with queue := [] } with
        queue := s.queue ++ new.filter fun e => !Edit.isInside d.span e } := by
    simp only [Scan.render, EditQueue.partition, hnew, List.partition_eq_filter_filter, htext]
    rfl
  simp only [hrender]
  exact ⟨hturn.opened, ⟨_, rfl, htame.handedOn hd hencloses⟩, hturn.combined⟩

end Site

/-- Only expressions have a class. -/
theorem sort_of_classOf {env : Env} {symbols : Symbols} {c : Code} {record : String}
    (h : env.classOf symbols c = some record) : c.shape.sort = .expression := by
  obtain ⟨i, cs⟩ := c
  rw [Env.classOf] at h
  rw [Code.shape, info_node]
  cases hi : i.shape with
  | member isArrow field => rfl
  | unary op => rfl
  | identifier name => rfl
  | this => rfl
  | paren => rfl
  | subscript => rfl
  | call => rfl
  | conditional => rfl
  | comma => rfl
  | _ => simp [hi] at h

/-- A usage is an access whose object is an expression. -/
theorem exists_access_of_usage? {setting : Setting} {env : Env} {c : Code} {u : Usage}
    (h : usage? setting env c = some u) :
    ∃ i rest, (∃ isArrow field, i.shape = .member isArrow field) ∧
      (.node i (u.base :: rest) : Code) ∈ subtrees c ∧ u.base.shape.sort = .expression := by
  induction c using Tree.inductionOn with
  | h i cs ih =>
    by_cases hparen : i.shape = .paren
    · cases cs with
      | nil =>
        have hp : i.isParen = true := by simp [CodeNode.isParen, hparen]
        simp only [usage?, Code.unparen, Tree.skip, Tree.skipFirst, hp, if_true, hparen] at h
        exact absurd h (by simp)
      | cons c cs =>
        rw [usage?_paren setting hparen] at h
        obtain ⟨j, rest, hshape, hmem, hbase⟩ := ih c (List.mem_cons_self ..) h
        exact ⟨j, rest, hshape,
          mem_subtrees_node.mpr (Or.inr ⟨c, List.mem_cons_self .., hmem⟩), hbase⟩
    · by_cases hmember : ∃ isArrow field, i.shape = .member isArrow field
      · obtain ⟨isArrow, field, hi⟩ := hmember
        have hp : i.isParen = false := by simp [CodeNode.isParen, hparen]
        simp only [usage?, Code.unparen, Tree.skip, hp, Bool.false_eq_true, if_false, hi] at h
        cases cs with
        | nil => simp at h
        | cons base rest =>
          simp only [Option.bind_eq_some_iff, Option.map_eq_some_iff] at h
          obtain ⟨reached, hresolve, target, -, rfl⟩ := h
          refine ⟨i, rest, ⟨isArrow, field, hi⟩, self_mem_subtrees _, ?_⟩
          simp only [Env.resolveMember, Code.shape, info_node, children_node, hi,
            Env.classOfFirst, Option.bind_eq_some_iff] at hresolve
          obtain ⟨record, hclass, -⟩ := hresolve
          exact sort_of_classOf hclass
      · have hother : ∀ isArrow field, i.shape ≠ .member isArrow field :=
          fun isArrow field hi => hmember ⟨isArrow, field, hi⟩
        rw [usage?_other setting hparen hother] at h
        exact absurd h (by simp)

/-- What is known of a usage inside settled code. -/
structure Located (c : Code) (u : Usage) : Prop where
  nonempty : c.span.start < c.span.stop
  mem : u.base ∈ subtrees c
  encloses : Encloses u.base

theorem located_of_usage? {setting : Setting} {source : List Char} {env : Env} {c : Code}
    {u : Usage} (hc : Everywhere (Settled source) c) (h : usage? setting env c = some u) :
    Located c u := by
  obtain ⟨i, rest, ⟨isArrow, field, hi⟩, haccess, hexpr⟩ := exists_access_of_usage? h
  have hmem : u.base ∈ subtrees c := by
    refine mem_subtrees_trans c ?_ haccess
    exact mem_subtrees_node.mpr (Or.inr ⟨u.base, List.mem_cons_self .., self_mem_subtrees _⟩)
  refine ⟨?_, hmem, (hc.of_mem hmem).here.enclosing hexpr⟩
  have hne := (hc.of_mem haccess).here.access hi
  have hin := span_contains_of_mem_subtrees hc haccess
  rw [Span.contains_iff] at hin
  omega

section Rewrite

variable {setting : Setting} {ancestors : List CodeNode}

theorem isHost_eq_false_of_sort {n : CodeNode} (h : n.shape.sort ≠ .statement) :
    isHost n = false := by
  rw [Bool.eq_false_iff]
  intro hhost
  exact h (isHost_iff.mp hhost).1

/-- Edits of parts of some code are edits of the code. -/
theorem Turns.ofParts {c : Code} {ds : List Code} {f : Scan → Scan} {region : Span}
    (hf : Turns setting ancestors (ds.map Code.span) ds f) (hds : ∀ d ∈ ds, d ∈ subtrees c)
    (hc : Everywhere (Settled setting.file.source) c) (hregion : region.contains c.span = true) :
    Turns setting ancestors [region] [c] f := by
  refine hf.mono ?_ ?_
  · intro r hr
    obtain ⟨d, hd, rfl⟩ := List.mem_map.mp hr
    have hin := span_contains_of_mem_subtrees hc (hds d hd)
    exact ⟨region, List.mem_singleton_self _, Span.contains_trans hregion hin⟩
  · intro e he
    obtain ⟨d, hd, hed⟩ := mem_subtreesOf.mp he
    exact mem_subtreesOf.mpr ⟨c, List.mem_singleton_self _,
      mem_subtrees_trans c hed (hds d hd)⟩

/-- Code below the ancestors that is visited or rendered on its own. -/
structure Part (setting : Setting) (ancestors : List CodeNode) (d : Code) (f : Scan → Scan) :
    Prop where
  settled : Everywhere (Settled setting.file.source) d
  encloses : Encloses d
  framed : ∀ m ∈ ancestors, isHost m = true → m.span.contains d.span = true
  turns : Turns setting ancestors [d.span] [d] f

namespace Part

variable {d e : Code} {f g : Scan → Scan}

theorem area (h : Part setting ancestors d f) :
    Area setting.file.source ancestors [d.span] [d] := by
  constructor
  · intro e he
    rw [List.mem_singleton.mp he]
    exact h.settled
  · intro e he
    rw [List.mem_singleton.mp he]
    exact ⟨d.span, List.mem_singleton_self _, Span.contains_refl _⟩
  · intro m hm hhost r hr
    rw [List.mem_singleton.mp hr]
    exact h.framed m hm hhost

theorem render (h : Part setting ancestors d f) :
    Turns setting ancestors [] [] fun s => (s.render setting d.span f).1 :=
  turns_render h.settled h.encloses h.turns

/-- Two parts that stand apart, one after the other. -/
theorem comp (h : Part setting ancestors d f) (h' : Part setting ancestors e g)
    (hapart : Span.Apart d.span e.span) :
    Turns setting ancestors [d.span, e.span] [d, e] fun s => g (f s) := by
  refine h.turns.comp h.area h'.area ?_ h'.turns
  intro r hr r' hr'
  rw [List.mem_singleton.mp hr, List.mem_singleton.mp hr']
  exact hapart

end Part

/-- A rewritten usage replaces the site, a refused one replaces inside the object and the
right-hand side. -/
theorem turns_rewriteSite {site : CodeNode} {cs : List Code}
    (hctx : Context setting.file.source site ancestors)
    (hsettled : Everywhere (Settled setting.file.source) (.node site cs))
    (hne : site.span.start < site.span.stop) (u : Usage) (operation : Operation)
    {visitBase : Scan → Scan} {right : Option Scan.RightSide}
    (hmem : u.base ∈ subtrees (.node site cs)) (hbase : Part setting ancestors u.base visitBase)
    (hright : ∀ r, right = some r → r.code ∈ cs ∧ Span.Apart u.base.span r.code.span ∧
      Part setting ancestors r.code r.visit) :
    Turns setting ancestors [parenthesizedSpan site ancestors] [.node site cs]
      fun s => s.rewriteSite setting site ancestors u operation visitBase right := by
  have houter : (parenthesizedSpan site ancestors).contains (Code.span (.node site cs)) = true :=
    parenthesizedSpan_contains hctx
  unfold Scan.rewriteSite
  simp only
  split
  · -- refused: the object and the right-hand side are visited in place
    rename_i reason _
    have hreport := Scan.still_reportRefusal setting site.span.start u.target operation reason
    cases right with
    | none =>
      have hturns : Turns setting ancestors ([u.base].map Code.span) [u.base] _ :=
        hbase.turns.after_still hreport
      refine hturns.ofParts ?_ hsettled houter
      intro d hd
      rw [List.mem_singleton.mp hd]
      exact hmem
    | some r =>
      obtain ⟨hr, hapart, hpart⟩ := hright r rfl
      have hturns : Turns setting ancestors ([u.base, r.code].map Code.span) [u.base, r.code] _ :=
        (hbase.comp hpart hapart).after_still hreport
      refine hturns.ofParts ?_ hsettled houter
      intro d hd
      rcases List.mem_pair.mp hd with rfl | rfl
      · exact hmem
      · exact mem_subtrees_node.mpr (Or.inr ⟨_, hr, self_mem_subtrees _⟩)
  · -- rewritten: what is rendered leaves insertions only, which the site does not cover
    have hnote := Scan.still_noteDuplicate setting site.span.start u operation
    have hrest : Turns setting ancestors [] [] fun s => (s.renderRight setting right).1 := by
      cases right with
      | none => exact Still.id.turns setting ancestors
      | some r => exact (hright r rfl).2.2.render
    have hrendered := (hbase.render.after_still hnote).comp Area.nil Area.nil
      (by simp [RegionsApart]) hrest
    intro s hs
    have hfirst := hrendered s hs
    refine (hfirst.trans Area.nil (Area.ofSite hctx) (by simp [RegionsApart])
      (turns_apply hctx hne operation _ _ ?_ _ hfirst.opened)).mono ?_ ?_
    · intro side text b hhelper hb
      have hchoose := strategy_of_helper hhelper
      rw [hb, Option.map_some] at hchoose
      have hboundary : boundary setting.file.source site ancestors = some b := by
        cases operation with
        | read => exact absurd hb (by simp)
        | _ => exact hb
      exact isHosted_of_choose hboundary hchoose
    · intro r hr
      exact ⟨r, hr, Span.contains_refl r⟩
    · simp

end Rewrite

end Encapsulate.Accessors
