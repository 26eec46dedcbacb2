import Encapsulate.Proofs.Rendering

/-!
Visiting code queues edits that can be combined. By recursion on the code, every visit
replaces within the span of the code, up to parentheses around it, and inserts at the
ends of statements inside and around it. Parts that stand apart are visited one after
the other, and a block that was opened around a statement is closed at its end.
-/

namespace Encapsulate.Accessors

open Cpp Encapsulate.Tree

/-- Code side by side below the same ancestors, the innermost of which is no parenthesis. -/
structure Row (source : List Char) (ancestors : List CodeNode) (cs : List Code) : Prop where
  context : ∀ c ∈ cs, Context source c.info ancestors
  settled : ∀ c ∈ cs, Everywhere (Settled source) c
  apart : cs.Pairwise fun a b : Code => Span.Apart a.span b.span
  bare : ∀ n : CodeNode, parenthesizedSpan n ancestors = n.span

namespace Row

variable {source : List Char} {ancestors : List CodeNode} {c : Code} {cs : List Code}

theorem ofNode {i : CodeNode} (hctx : Context source i ancestors)
    (hsettled : Everywhere (Settled source) (.node i cs)) (hi : i.isParen = false) :
    Row source (i :: ancestors) cs := by
  refine ⟨fun c hc => hctx.child hsettled hc, fun c hc => hsettled.child hc,
    hsettled.here.apart, ?_⟩
  intro n
  simp [parenthesizedSpan, hi]

theorem tail (h : Row source ancestors (c :: cs)) : Row source ancestors cs :=
  ⟨fun d hd => h.context d (List.mem_cons_of_mem _ hd),
    fun d hd => h.settled d (List.mem_cons_of_mem _ hd), (List.pairwise_cons.mp h.apart).2, h.bare⟩

theorem head (h : Row source ancestors (c :: cs)) : Row source ancestors [c] := by
  refine ⟨?_, ?_, List.pairwise_singleton .., h.bare⟩
  · intro d hd
    rw [List.mem_singleton.mp hd]
    exact h.context c (List.mem_cons_self ..)
  · intro d hd
    rw [List.mem_singleton.mp hd]
    exact h.settled c (List.mem_cons_self ..)

theorem framed (h : Row source ancestors cs) (hc : c ∈ cs) :
    ∀ m ∈ ancestors, m.span.contains c.span = true :=
  (List.pairwise_cons.mp (h.context c hc).nested).1

theorem area (h : Row source ancestors cs) : Area source ancestors (cs.map Code.span) cs := by
  refine ⟨h.settled, fun d hd => ⟨d.span, List.mem_map_of_mem hd, Span.contains_refl _⟩, ?_⟩
  intro m hm _ r hr
  obtain ⟨d, hd, rfl⟩ := List.mem_map.mp hr
  exact h.framed hd m hm

end Row

section Visit

variable {setting : Setting} {ancestors : List CodeNode}

def VisitTurns (setting : Setting) (c : Code) : Prop :=
  ∀ ancestors, Context setting.file.source c.info ancestors →
    Turns setting ancestors [parenthesizedSpan c.info ancestors] [c] (visit setting ancestors c)

def BaseTurns (setting : Setting) (c : Code) : Prop :=
  ∀ ancestors env u, Context setting.file.source c.info ancestors →
    usage? setting env c = some u →
    Turns setting ancestors [u.base.span] [u.base] (visitBase setting ancestors c)

/-- One part after the other. -/
theorem turns_cons {c : Code} {cs : List Code} {f g : Scan → Scan}
    (hrow : Row setting.file.source ancestors (c :: cs))
    (hf : Turns setting ancestors [c.span] [c] f)
    (hg : Turns setting ancestors (cs.map Code.span) cs g) :
    Turns setting ancestors ((c :: cs).map Code.span) (c :: cs) fun s => g (f s) := by
  refine hf.comp hrow.head.area hrow.tail.area ?_ hg
  intro r hr r' hr'
  obtain ⟨d, hd, rfl⟩ := List.mem_map.mp hr'
  rw [List.mem_singleton.mp hr]
  exact (List.pairwise_cons.mp hrow.apart).1 d hd

/-- Code in a row is visited within its own span. -/
theorem turns_visit {c : Code} {cs : List Code} (h : VisitTurns setting c)
    (hrow : Row setting.file.source ancestors (c :: cs)) :
    Turns setting ancestors [c.span] [c] (visit setting ancestors c) := by
  have hturns := h ancestors (hrow.context c (List.mem_cons_self ..))
  rwa [hrow.bare] at hturns

theorem turns_visitAll {cs : List Code} (hcs : ∀ c ∈ cs, VisitTurns setting c)
    (hrow : Row setting.file.source ancestors cs) :
    Turns setting ancestors (cs.map Code.span) cs (visitAll setting ancestors cs) := by
  induction cs with
  | nil => exact Still.id.turns setting ancestors
  | cons c cs ih =>
    have hfirst := turns_visit (hcs c (List.mem_cons_self ..)) hrow
    have hrest := ih (fun d hd => hcs d (List.mem_cons_of_mem _ hd)) hrow.tail
    intro s hs
    rw [visitAll]
    exact turns_cons hrow hfirst hrest s hs

theorem turns_visitParams {cs : List Code} (hcs : ∀ c ∈ cs, VisitTurns setting c)
    (hrow : Row setting.file.source ancestors cs) (params : List Var) :
    Turns setting ancestors (cs.map Code.span) cs (visitParams setting ancestors params cs) := by
  induction cs generalizing params with
  | nil => exact (Scan.still_declareAll setting params).turns setting ancestors
  | cons c cs ih =>
    have hlater : ∀ d ∈ cs, VisitTurns setting d := fun d hd => hcs d (List.mem_cons_of_mem _ hd)
    have hfirst := (turns_visit (hcs c (List.mem_cons_self ..)) hrow).after_still
      (Scan.still_declareAll setting (params.takeWhile (!·.isInitialized)))
    intro s hs
    rw [visitParams]
    cases hdrop : params.dropWhile (!·.isInitialized) with
    | nil => exact turns_cons hrow hfirst (turns_visitAll hlater hrow.tail) s hs
    | cons v later =>
      exact turns_cons hrow hfirst
        ((ih hlater hrow.tail later).after_still (Scan.still_declare setting v none)) s hs

/-- The object of a usage is visited within the usage. -/
theorem turns_visitBase {c : Code} {cs : List Code} (h : BaseTurns setting c)
    (hrow : Row setting.file.source ancestors (c :: cs)) {env : Env} {u : Usage}
    (hu : usage? setting env c = some u) :
    Turns setting ancestors [c.span] [c] (visitBase setting ancestors c) := by
  have hsettled := hrow.settled c (List.mem_cons_self ..)
  have hturns : Turns setting ancestors ([u.base].map Code.span) [u.base] _ :=
    h ancestors env u (hrow.context c (List.mem_cons_self ..)) hu
  refine hturns.ofParts ?_ hsettled (Span.contains_refl _)
  intro d hd
  rw [List.mem_singleton.mp hd]
  exact (located_of_usage? hsettled hu).mem

/-- The initializer of a variable, whether or not the variable is a reference through
which a target escapes. -/
theorem turns_initializer {c : Code} {cs : List Code} (hvisit : VisitTurns setting c)
    (hbase : BaseTurns setting c) (hrow : Row setting.file.source ancestors (c :: cs)) (v : Var) :
    Turns setting ancestors [c.span] [c] fun s => match usage? setting s.env c with
      | some u =>
        if v.type.isMutableReference then
          visitBase setting ancestors c (s.reportEscape setting c.span.start u.target
            "it is bound to a non-const reference")
        else
          visit setting ancestors c s
      | none => visit setting ancestors c s := by
  intro s hs
  simp only
  cases hu : usage? setting s.env c with
  | none => exact turns_visit hvisit hrow s hs
  | some u =>
    by_cases href : v.type.isMutableReference
    · simp only [href, if_true]
      exact (turns_visitBase hbase hrow hu).after_still
        (Scan.still_reportEscape setting c.span.start u.target _) s hs
    · simp only [href, Bool.false_eq_true, if_false]
      exact turns_visit hvisit hrow s hs

theorem turns_visitVars {cs : List Code} (hcs : ∀ c ∈ cs, VisitTurns setting c)
    (hbase : ∀ c ∈ cs, BaseTurns setting c) (hrow : Row setting.file.source ancestors cs)
    (vars : List Var) :
    Turns setting ancestors (cs.map Code.span) cs (visitVars setting ancestors vars cs) := by
  induction cs generalizing vars with
  | nil => exact (Scan.still_declareAll setting vars).turns setting ancestors
  | cons c cs ih =>
    have hvisit := hcs c (List.mem_cons_self ..)
    have hlater : ∀ d ∈ cs, VisitTurns setting d := fun d hd => hcs d (List.mem_cons_of_mem _ hd)
    have hlaterBase : ∀ d ∈ cs, BaseTurns setting d :=
      fun d hd => hbase d (List.mem_cons_of_mem _ hd)
    have hdeclared := Scan.still_declareAll setting (vars.takeWhile (!·.isInitialized))
    intro s hs
    rw [visitVars]
    cases hdrop : vars.dropWhile (!·.isInitialized) with
    | nil =>
      exact turns_cons hrow ((turns_visit hvisit hrow).after_still hdeclared)
        (turns_visitAll hlater hrow.tail) s hs
    | cons v later =>
      have hfirst := (turns_initializer hvisit (hbase c (List.mem_cons_self ..)) hrow
        v).after_still hdeclared
      exact turns_cons hrow hfirst ((ih hlater hlaterBase hrow.tail later).after_still
        (Scan.still_declare setting v _)) s hs

theorem turns_visitLoop {cs : List Code} (hcs : ∀ c ∈ cs, VisitTurns setting c)
    (hrow : Row setting.file.source ancestors cs) (element : Option Var) (range : Option Code) :
    Turns setting ancestors (cs.map Code.span) cs
      (visitLoop setting ancestors element range cs) := by
  induction cs generalizing range with
  | nil => exact Still.id.turns setting ancestors
  | cons c cs ih =>
    have hlater : ∀ d ∈ cs, VisitTurns setting d := fun d hd => hcs d (List.mem_cons_of_mem _ hd)
    have hfirst := turns_visit (hcs c (List.mem_cons_self ..)) hrow
    intro s hs
    rw [visitLoop.eq_def]
    simp only
    split
    · have hbody := turns_visitAll hlater hrow.tail
      cases element with
      | none => exact turns_cons hrow hfirst hbody s hs
      | some v =>
        exact turns_cons hrow (hfirst.after_still (Scan.still_declare setting v _)) hbody s hs
    · exact turns_cons hrow hfirst (ih hlater hrow.tail (some c)) s hs
    · exact turns_cons hrow hfirst (ih hlater hrow.tail range) s hs

/-- Edits of the children of a node that is no host are edits of the node. -/
theorem Turns.up {i : CodeNode} {cs : List Code} {f : Scan → Scan}
    (hf : Turns setting (i :: ancestors) (cs.map Code.span) cs f)
    (hctx : Context setting.file.source i ancestors)
    (hsettled : Everywhere (Settled setting.file.source) (.node i cs)) (hi : isHost i = false) :
    Turns setting ancestors [parenthesizedSpan i ancestors] [.node i cs] f := by
  refine (hf.of_cons hi).ofParts ?_ hsettled (parenthesizedSpan_contains hctx)
  intro d hd
  exact mem_subtrees_node.mpr (Or.inr ⟨d, hd, self_mem_subtrees d⟩)

theorem Part.of_cons {i : CodeNode} {d : Code} {f : Scan → Scan}
    (h : Part setting (i :: ancestors) d f) (hi : isHost i = false) :
    Part setting ancestors d f :=
  ⟨h.settled, h.encloses, fun m hm => h.framed m (List.mem_cons_of_mem _ hm), h.turns.of_cons hi⟩

/-- The object of a usage, on its own. -/
theorem Part.ofBase {c : Code} {env : Env} {u : Usage} {f : Scan → Scan}
    (hctx : Context setting.file.source c.info ancestors)
    (hsettled : Everywhere (Settled setting.file.source) c) (hu : usage? setting env c = some u)
    (hturns : Turns setting ancestors [u.base.span] [u.base] f) :
    Part setting ancestors u.base f := by
  have hlocated := located_of_usage? hsettled hu
  refine ⟨hsettled.of_mem hlocated.mem, hlocated.encloses, ?_, hturns⟩
  intro m hm _
  exact Span.contains_trans ((List.pairwise_cons.mp hctx.nested).1 m hm)
    (span_contains_of_mem_subtrees hsettled hlocated.mem)

section Sites

variable {i : CodeNode} {cs : List Code} (hctx : Context setting.file.source i ancestors)
  (hsettled : Everywhere (Settled setting.file.source) (.node i cs))

include hctx hsettled

/-- A child of a site of which the usage is part, with the usage's object on its own. -/
theorem operand_usage (hsort : i.shape.sort = .expression) {c : Code} (hc : c ∈ cs)
    (hbase : BaseTurns setting c) {env : Env} {u : Usage} (hu : usage? setting env c = some u) :
    i.span.start < i.span.stop ∧ u.base ∈ subtrees (.node i cs) ∧
      c.span.contains u.base.span = true ∧
      Part setting ancestors u.base (visitBase setting (i :: ancestors) c) := by
  have hchild := hctx.child hsettled hc
  have hc' := hsettled.child hc
  have hlocated := located_of_usage? hc' hu
  have hin := hsettled.here.inside c hc
  refine ⟨?_, mem_subtrees_node.mpr (Or.inr ⟨c, hc, hlocated.mem⟩),
    span_contains_of_mem_subtrees hc' hlocated.mem, ?_⟩
  · have hne := hlocated.nonempty
    rw [Span.contains_iff] at hin
    change (Code.span (.node i cs)).start < (Code.span (.node i cs)).stop
    omega
  · exact (Part.ofBase hchild hc' hu (hbase _ env u hchild hu)).of_cons
      (isHost_eq_false_of_sort (by simp [hsort]))

theorem turns_visitStep {op : StepOp} {fixity : Fixity} (hi : i.shape = .step op fixity)
    (hlen : cs.length = 1) (hcs : ∀ c ∈ cs, VisitTurns setting c)
    (hbase : ∀ c ∈ cs, BaseTurns setting c) :
    Turns setting ancestors [parenthesizedSpan i ancestors] [.node i cs]
      (visitStep setting ancestors i op fixity cs) := by
  have hsort : i.shape.sort = .expression := by rw [hi]; rfl
  have hparen : i.isParen = false := by simp [CodeNode.isParen, hi]
  have hrow := Row.ofNode hctx hsettled hparen
  obtain ⟨operand, rfl⟩ := List.length_eq_one_iff.mp hlen
  intro s hs
  rw [visitStep]
  cases hu : usage? setting s.env operand with
  | none =>
    have hhost := isHost_eq_false_of_sort (n := i) (by simp [hsort])
    exact (turns_visitAll hcs hrow).up hctx hsettled hhost s hs
  | some u =>
    obtain ⟨hne, hmem, -, hpart⟩ := operand_usage hctx hsettled hsort (List.mem_singleton_self _)
      (hbase operand (List.mem_singleton_self _)) hu
    exact turns_rewriteSite hctx hsettled hne u (.step op fixity) hmem hpart (by simp) s hs

theorem turns_visitAddressOf (hi : i.shape = .unary .addressOf)
    (hlen : cs.length = 1) (hcs : ∀ c ∈ cs, VisitTurns setting c)
    (hbase : ∀ c ∈ cs, BaseTurns setting c) :
    Turns setting ancestors [parenthesizedSpan i ancestors] [.node i cs]
      (visitAddressOf setting ancestors i cs) := by
  have hsort : i.shape.sort = .expression := by rw [hi]; rfl
  have hhost : isHost i = false := isHost_eq_false_of_sort (by simp [hsort])
  have hparen : i.isParen = false := by simp [CodeNode.isParen, hi]
  have hrow := Row.ofNode hctx hsettled hparen
  obtain ⟨operand, rfl⟩ := List.length_eq_one_iff.mp hlen
  intro s hs
  rw [visitAddressOf]
  cases hu : usage? setting s.env operand with
  | none => exact (turns_visitAll hcs hrow).up hctx hsettled hhost s hs
  | some u =>
    have hturns : Turns setting (i :: ancestors) ([operand].map Code.span) [operand] _ :=
      (turns_visitBase (hbase operand (List.mem_singleton_self _)) hrow hu).after_still
        (Scan.still_reportEscape setting i.span.start u.target "its address is taken")
    exact hturns.up hctx hsettled hhost s hs

theorem turns_visitAssign {op : Option CompoundOp} (hi : i.shape = .assign op)
    (hlen : cs.length = 2) (hcs : ∀ c ∈ cs, VisitTurns setting c)
    (hbase : ∀ c ∈ cs, BaseTurns setting c) :
    Turns setting ancestors [parenthesizedSpan i ancestors] [.node i cs]
      (visitAssign setting ancestors i op cs) := by
  have hsort : i.shape.sort = .expression := by rw [hi]; rfl
  have hhost : isHost i = false := isHost_eq_false_of_sort (by simp [hsort])
  have hparen : i.isParen = false := by simp [CodeNode.isParen, hi]
  have hrow := Row.ofNode hctx hsettled hparen
  obtain ⟨left, right, rfl⟩ := List.length_eq_two.mp hlen
  have hleft : left ∈ [left, right] := List.mem_cons_self ..
  have hright : right ∈ [left, right] := by simp
  intro s hs
  rw [visitAssign]
  cases hu : usage? setting s.env left with
  | none => exact (turns_visitAll hcs hrow).up hctx hsettled hhost s hs
  | some u =>
    obtain ⟨hne, hmem, hin, hpart⟩ := operand_usage hctx hsettled hsort hleft (hbase left hleft) hu
    have hassign : isAssignment (.node i [left, right]) = true := by
      rw [isAssignment, Code.shape, info_node, hi]
    have hvisit : Part setting (i :: ancestors) right (visit setting (i :: ancestors) right) :=
      ⟨hsettled.child hright, hsettled.here.right hassign left right rfl,
        fun m hm _ => hrow.framed hright m hm, turns_visit (hcs right hright) hrow.tail⟩
    refine turns_rewriteSite hctx hsettled hne u (.ofAssign op) hmem hpart ?_ s hs
    intro r hr
    rw [← Option.some.inj hr]
    have hapart := (List.pairwise_cons.mp hrow.apart).1 right (List.mem_singleton_self _)
    exact ⟨hright, hapart.mono hin (Span.contains_refl _), hvisit.of_cons hhost⟩

theorem turns_visitMember {isArrow : Bool} {field : String} (hi : i.shape = .member isArrow field)
    (hcs : ∀ c ∈ cs, VisitTurns setting c) (hbase : BaseTurns setting (.node i cs)) :
    Turns setting ancestors [parenthesizedSpan i ancestors] [.node i cs] fun s =>
      match usage? setting s.env (.node i cs) with
      | some u =>
        s.rewriteSite setting i ancestors u .read (visitAll setting (i :: ancestors) cs) none
      | none =>
        visitAll setting (i :: ancestors) cs
          (s.reportUnresolved setting i.span field (s.env.classOfFirst setting.symbols cs)) := by
  have hsort : i.shape.sort = .expression := by rw [hi]; rfl
  have hparen : i.isParen = false := by simp [CodeNode.isParen, hi]
  intro s hs
  simp only
  cases hu : usage? setting s.env (.node i cs) with
  | none =>
    have hturns := (turns_visitAll hcs (Row.ofNode hctx hsettled hparen)).after_still
      (Scan.still_reportUnresolved setting i.span field (s.env.classOfFirst setting.symbols cs))
    exact hturns.up hctx hsettled (isHost_eq_false_of_sort (by simp [hsort])) s hs
  | some u =>
    have hturns := hbase ancestors s.env u hctx hu
    have hvisit : visitBase setting ancestors (.node i cs) =
        visitAll setting (i :: ancestors) cs := by
      funext s'
      rw [visitBase, hi]
    rw [hvisit] at hturns
    have hlocated := located_of_usage? hsettled hu
    have hpart : Part setting ancestors u.base _ :=
      Part.ofBase (c := .node i cs) hctx hsettled hu hturns
    exact turns_rewriteSite hctx hsettled hlocated.nonempty u .read hlocated.mem hpart
      (by simp) s hs

end Sites

/-- The object of an access is its first part. -/
theorem base_of_usage? {i : CodeNode} {isArrow : Bool} {field : String}
    (hi : i.shape = .member isArrow field) {env : Env} {base : Code} {rest : List Code} {u : Usage}
    (h : usage? setting env (.node i (base :: rest)) = some u) : u.base = base := by
  have hp : i.isParen = false := by simp [CodeNode.isParen, hi]
  simp only [usage?, Code.unparen, Tree.skip, hp, Bool.false_eq_true, if_false, hi,
    Option.bind_eq_some_iff, Option.map_eq_some_iff] at h
  obtain ⟨reached, -, target, -, rfl⟩ := h
  rfl

/-- The object of a usage inside parentheses. -/
theorem baseTurns_node {i : CodeNode} {cs : List Code}
    (hsettled : Everywhere (Settled setting.file.source) (.node i cs))
    (hcs : ∀ c ∈ cs, VisitTurns setting c) (hbase : ∀ c ∈ cs, BaseTurns setting c) :
    BaseTurns setting (.node i cs) := by
  intro ancestors env u hctx hu
  rw [info_node] at hctx
  have hlen : ∀ n, Code.arity? i.shape = some n → cs.length = n := hsettled.here.full
  by_cases hparen : i.shape = .paren
  · obtain ⟨c, rfl⟩ := List.length_eq_one_iff.mp (hlen 1 (by rw [hparen]; rfl))
    have hc : c ∈ [c] := List.mem_singleton_self c
    have hvisit : visitBase setting ancestors (.node i [c]) =
        visitBase setting (i :: ancestors) c := by
      funext s
      rw [visitBase, hparen]
      rfl
    rw [usage?_paren setting hparen] at hu
    rw [hvisit]
    exact (hbase c hc (i :: ancestors) env u (hctx.child hsettled hc) hu).of_cons
      (isHost_eq_false_of_sort (by simp [hparen, Shape.sort]))
  · by_cases hmember : ∃ isArrow field, i.shape = .member isArrow field
    · obtain ⟨isArrow, field, hi⟩ := hmember
      obtain ⟨base, rfl⟩ := List.length_eq_one_iff.mp (hlen 1 (by rw [hi]; rfl))
      have hvisit : visitBase setting ancestors (.node i [base]) =
          visitAll setting (i :: ancestors) [base] := by
        funext s
        rw [visitBase, hi]
      have hrow := Row.ofNode hctx hsettled (by simp [CodeNode.isParen, hi])
      rw [hvisit, base_of_usage? hi hu]
      exact (turns_visitAll hcs hrow).of_cons
        (isHost_eq_false_of_sort (by simp [hi, Shape.sort]))
    · have hother : ∀ isArrow field, i.shape ≠ .member isArrow field :=
        fun isArrow field h => hmember ⟨isArrow, field, h⟩
      rw [usage?_other setting hparen hother] at hu
      exact absurd hu (by simp)

/-- The end of the block around a statement is inserted when all edits inside it are
queued. -/
theorem turns_close {i : CodeNode} {cs : List Code} {f : Scan → Scan}
    (hctx : Context setting.file.source i ancestors)
    (hsettled : Everywhere (Settled setting.file.source) (.node i cs))
    (hf : Turns setting (i :: ancestors) (cs.map Code.span) cs f) :
    Turns setting ancestors [i.span] [.node i cs]
      fun s => (f s).close ancestors.length i.span.stop := by
  intro s hs
  have hturn := hf s hs.cons
  obtain ⟨new, hnew, htame⟩ := hturn.queue
  have hinside : ∀ r ∈ cs.map Code.span, ∃ r' ∈ [i.span], r'.contains r = true := by
    intro r hr
    obtain ⟨c, hc, rfl⟩ := List.mem_map.mp hr
    exact ⟨i.span, List.mem_singleton_self _, hsettled.here.inside c hc⟩
  have hnode : ∀ {new : EditQueue},
      Tame setting.file.source (i :: ancestors) (cs.map Code.span) cs new →
      Tame setting.file.source ancestors [i.span] [.node i cs] new :=
    fun h => h.ofChildren.mono hinside fun d hd => hd
  simp only [Scan.close]
  cases hlookup : (f s).closings.lookup ancestors.length with
  | none =>
    refine ⟨hturn.opened.of_cons ?_, ⟨new, hnew, hnode htame⟩, hturn.combined⟩
    intro _ x hx hdepth
    have hne := List.lookup_eq_none_iff.mp hlookup x hx
    rw [hdepth] at hne
    exact absurd hne (by simp)
  | some text =>
    -- a block was opened at this depth, so the node is a host
    obtain ⟨front, back, hclosings, -⟩ := List.lookup_eq_some_iff.mp hlookup
    have hhost : isHost i = true := by
      refine hturn.opened.isHost_head (x := (ancestors.length, text)) ?_ rfl
      simp [hclosings]
    refine ⟨?_, ⟨new ++ [.insertAfter i.span.stop text], ?_, hnode ?_⟩, hturn.combined⟩
    · have hopened : Opened (i :: ancestors)
          ((f s).closings.filter (·.1 != ancestors.length)) :=
        fun x hx => hturn.opened x (List.mem_of_mem_filter hx)
      refine hopened.of_cons ?_
      intro _ x hx
      simpa using (List.mem_filter.mp hx).2
    · simp only [Scan.push, hnew, List.append_assoc]
    · have hrow := Row.ofNode hctx hsettled (isParen_eq_false_of_isHost hhost)
      have hlast : Tame setting.file.source (i :: ancestors) [] []
          [.insertAfter i.span.stop text] := by
        refine Tame.ofInsertions ?_
        intro e he
        rw [List.mem_singleton.mp he]
        exact ⟨by simp [Edit.insertAfter], i, List.mem_cons_self .., hhost,
          hctx.onText i (List.mem_cons_self ..), Or.inr rfl⟩
      have hboth := htame.append hrow.area Area.nil (by simp [RegionsApart]) hlast
      simpa only [List.append_nil] using hboth

/-- What is inside parentheses may be replaced with them. -/
theorem turns_paren {i : CodeNode} {cs : List Code} (hi : i.shape = .paren)
    (hctx : Context setting.file.source i ancestors)
    (hsettled : Everywhere (Settled setting.file.source) (.node i cs))
    (hcs : ∀ c ∈ cs, VisitTurns setting c) :
    Turns setting ancestors [parenthesizedSpan i ancestors] [.node i cs]
      (visitAll setting (i :: ancestors) cs) := by
  have hlen : ∀ n, Code.arity? i.shape = some n → cs.length = n := hsettled.here.full
  obtain ⟨c, rfl⟩ := List.length_eq_one_iff.mp (hlen 1 (by rw [hi]; rfl))
  have hc : c ∈ [c] := List.mem_singleton_self c
  have hturns := hcs c hc (i :: ancestors) (hctx.child hsettled hc)
  rw [parenthesizedSpan, if_pos (by simp [CodeNode.isParen, hi])] at hturns
  refine (hturns.of_cons (isHost_eq_false_of_sort (by simp [hi, Shape.sort]))).mono ?_ ?_
  · intro r hr
    exact ⟨r, hr, Span.contains_refl r⟩
  · intro d hd
    obtain ⟨e, he, hde⟩ := mem_subtreesOf.mp hd
    exact mem_subtreesOf.mpr ⟨_, List.mem_singleton_self _,
      mem_subtrees_node.mpr (Or.inr ⟨e, he, hde⟩)⟩

theorem visitTurns_node {i : CodeNode} {cs : List Code}
    (hsettled : Everywhere (Settled setting.file.source) (.node i cs))
    (hcs : ∀ c ∈ cs, VisitTurns setting c) (hbase : ∀ c ∈ cs, BaseTurns setting c) :
    VisitTurns setting (.node i cs) := by
  intro ancestors hctx
  rw [info_node] at hctx ⊢
  have hlen : ∀ n, Code.arity? i.shape = some n → cs.length = n := hsettled.here.full
  have hclosed : ∀ {f : Scan → Scan}, Turns setting (i :: ancestors) (cs.map Code.span) cs f →
      Turns setting ancestors [parenthesizedSpan i ancestors] [.node i cs]
        fun s => (f s).close ancestors.length i.span.stop := by
    intro f hf
    refine (turns_close hctx hsettled hf).mono ?_ fun d hd => hd
    intro r hr
    rw [List.mem_singleton.mp hr]
    exact ⟨_, List.mem_singleton_self _, parenthesizedSpan_contains hctx⟩
  have hscoped : ∀ {f : Scan → Scan}, Turns setting (i :: ancestors) (cs.map Code.span) cs f →
      Turns setting (i :: ancestors) (cs.map Code.span) cs fun s => (f s.pushScope).popScope :=
    fun hf => (hf.after_still Scan.still_pushScope).before_still Scan.still_popScope
  have hhost : i.shape.sort ≠ .statement → isHost i = false := isHost_eq_false_of_sort
  have hrow : i.shape ≠ .paren → Row setting.file.source (i :: ancestors) cs :=
    fun hi => Row.ofNode hctx hsettled (by simp [CodeNode.isParen, hi])
  have hall : i.shape ≠ .paren →
      Turns setting (i :: ancestors) (cs.map Code.span) cs (visitAll setting (i :: ancestors) cs) :=
    fun hi => turns_visitAll hcs (hrow hi)
  change Turns _ _ _ _ fun s => visit setting ancestors (.node i cs) s
  unfold visit
  cases hi : i.shape with
  | assign op => exact turns_visitAssign hctx hsettled hi (hlen 2 (by rw [hi]; rfl)) hcs hbase
  | step op fixity =>
    exact turns_visitStep hctx hsettled hi (hlen 1 (by rw [hi]; rfl)) hcs hbase
  | member isArrow field =>
    exact turns_visitMember hctx hsettled hi hcs (baseTurns_node hsettled hcs hbase)
  | paren => exact turns_paren hi hctx hsettled hcs
  | unary op =>
    cases op with
    | addressOf => exact turns_visitAddressOf hctx hsettled hi (hlen 1 (by rw [hi]; rfl)) hcs hbase
    | _ => exact (hall (by simp [hi])).up hctx hsettled (hhost (by simp [hi, Shape.sort]))
  | lambda params =>
    exact (hscoped (turns_visitParams hcs (hrow (by simp [hi])) params)).up hctx hsettled
      (hhost (by simp [hi, Shape.sort]))
  | declaration vars => exact hclosed (turns_visitVars hcs hbase (hrow (by simp [hi])) vars)
  | loop kind element =>
    exact hclosed (hscoped (turns_visitLoop hcs (hrow (by simp [hi])) element none))
  | block => exact hclosed (hscoped (hall (by simp [hi])))
  | branch => exact hclosed (hscoped (hall (by simp [hi])))
  | switch => exact hclosed (hscoped (hall (by simp [hi])))
  | exprStmt => exact hclosed (hall (by simp [hi]))
  | returnStmt => exact hclosed (hall (by simp [hi]))
  | throwStmt => exact hclosed (hall (by simp [hi]))
  | caseLabel => exact hclosed (hall (by simp [hi]))
  | otherStmt => exact hclosed (hall (by simp [hi]))
  | _ => exact (hall (by simp [hi])).up hctx hsettled (hhost (by simp [hi, Shape.sort]))

/-- Visiting settled code queues edits that can be combined. -/
theorem visitTurns (c : Code) (hsettled : Everywhere (Settled setting.file.source) c) :
    VisitTurns setting c := by
  have both : VisitTurns setting c ∧ BaseTurns setting c := by
    induction c using Tree.inductionOn with
    | h i cs ih =>
      have hcs : ∀ c ∈ cs, VisitTurns setting c ∧ BaseTurns setting c :=
        fun c hc => ih c hc (hsettled.child hc)
      exact ⟨visitTurns_node hsettled (fun c hc => (hcs c hc).1) fun c hc => (hcs c hc).2,
        baseTurns_node hsettled (fun c hc => (hcs c hc).1) fun c hc => (hcs c hc).2⟩
  exact both.1

end Visit

end Encapsulate.Accessors
