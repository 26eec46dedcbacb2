import Encapsulate.Proofs.Conservation
import Encapsulate.Proofs.Route

/-!
Where helper statements go. A search makes one for each hoisted write of its bodies, and
the visit of the write puts it at the start or the end of the boundary. A write that is
hoisted has left no operand that the way up to its boundary guards, so of all the ways in
which two parts of one statement are evaluated in order only some can be crossed: a helper
in front of the statement can overtake the initializers of earlier declarators, and a
helper behind it can fall behind whatever follows the write except the right operand of a
comma. The boundary itself may stand in the header of a control statement, but only where
some statement does.
-/

namespace Encapsulate.Accessors

open Cpp Encapsulate.Tree

/-- The hoisted writes of a tree are those at its positions. -/
theorem hoistCount_eq (setting : Setting) (ancestors : List CodeNode) (t : SurveyedCode) :
    hoistCount setting ancestors t = (positions t).countP fun p =>
      ((t.at? p).bind (hoistAt setting (ancestorsAt t p ++ ancestors))).isSome := by
  induction t using Tree.inductionOn generalizing ancestors with
  | h x parts ih =>
    -- the positions below the children from the `n`-th on
    have hfrom : ∀ (ts front : List SurveyedCode), parts = front ++ ts →
        hoistCounts setting (x.1 :: ancestors) ts =
          (positionsFrom front.length ts).countP fun p =>
            (((Tree.node x parts).at? p).bind
              (hoistAt setting (ancestorsAt (.node x parts) p ++ ancestors))).isSome := by
      intro ts
      induction ts with
      | nil => exact fun _ _ => rfl
      | cons t ts ihts =>
        intro front hparts
        have ht : parts[front.length]? = some t := by simp [hparts]
        have hmem : t ∈ parts := by simp [hparts]
        have hrest := ihts (front ++ [t]) (by simp [hparts])
        rw [List.length_append, List.length_singleton] at hrest
        rw [hoistCounts, positionsFrom, List.countP_append, hrest, ih t hmem, List.countP_map]
        congr 2
        funext p
        simp only [Function.comp_apply, at?, children_node, ht, Option.bind_some, ancestorsAt,
          above, Option.map_some, Option.getD_some, info_node, List.map_append, List.map_cons,
          List.map_nil, List.append_assoc, List.singleton_append]
    have hnone : ancestorsAt (.node x parts) [] = [] := rfl
    rw [hoistCount, hfrom parts [] rfl, positions, List.countP_cons, at?_nil, Option.bind_some,
      hnone, List.nil_append]
    cases (hoistAt setting ancestors (.node x parts)).isSome <;> rfl

def hoistPositions (setting : Setting) (body : SurveyedCode) : List (List Nat) :=
  (positions body).filter fun p => (hoist? setting body p).isSome

/-- A search of bodies in which every node has its parts counts the hoisted writes of the
bodies. -/
theorem hoisted_scan (setting : Setting) (fs : List Function)
    (hfull : ∀ f ∈ fs, ∀ b, f.body = some b → Everywhere Code.Full b) :
    (scan setting fs).stats.hoisted =
      ((surveyFunctions setting.symbols fs).flatMap (hoistPositions setting)).length := by
  have htally := congrArg Tally.hoisted (scan_counts setting fs hfull {})
  have hsum : ∀ bodies : List SurveyedCode, hoistCounts setting [] bodies =
      (bodies.flatMap (hoistPositions setting)).length := by
    intro bodies
    induction bodies with
    | nil => rfl
    | cons body bodies ih =>
      rw [hoistCounts, ih, List.flatMap_cons, List.length_append, hoistCount_eq, hoistPositions,
        ← List.countP_eq_length_filter]
      simp only [List.append_nil]
      rfl
  exact htally.trans ((Nat.zero_add _).trans (hsum _))

/-- What makes a hoisted write: a usage it writes to, a boundary around it, and a choice of
the side of the boundary. -/
theorem exists_write_of_hoistAt {setting : Setting} {ancestors : List CodeNode}
    {t : SurveyedCode} {w : Hoist} (h : hoistAt setting ancestors t = some w) :
    ∃ u operation, write? setting t = some (u, operation) ∧
      boundary setting.file.source t.info.1 ancestors = some w.boundary ∧
      Strategy.choose operation (some w.boundary.position) = .hoist w.side := by
  unfold hoistAt at h
  obtain ⟨⟨u, operation⟩, hwrite, h⟩ := Option.bind_eq_some_iff.mp h
  obtain ⟨b, hb, h⟩ := Option.bind_eq_some_iff.mp h
  cases hchoose : Strategy.choose operation (some b.position) with
  | inPlace => simp [hchoose] at h
  | refuse reason => simp [hchoose] at h
  | hoist side =>
    simp only [hchoose, Option.some.injEq] at h
    subst h
    exact ⟨u, operation, hwrite, hb, hchoose⟩

def visitParts (setting : Setting) (ancestors : List CodeNode) (t : SurveyedCode) (s : Scan) :
    Scan :=
  match t.info.1.shape, t.code.children with
  | .assign _, left :: right :: _ =>
    visit setting (t.info.1 :: ancestors) right (visitBase setting (t.info.1 :: ancestors) left s)
  | _, operand :: _ => visitBase setting (t.info.1 :: ancestors) operand s
  | _, [] => s

/-- Visiting a write to a target rewrites its site, with its parts visited on the way. -/
theorem visit_of_write? {setting : Setting} {t : SurveyedCode} (hfull : Code.Full t.code)
    {u : Usage} {operation : Operation} (h : write? setting t = some (u, operation))
    (ancestors : List CodeNode) (s : Scan) (hs : s.env = t.info.2) :
    ∃ visitBase right, visit setting ancestors t.code s =
        s.rewriteSite setting t.info.1 ancestors u operation visitBase right ∧
      ∀ r, (visitBase r).visitRight right = visitParts setting ancestors t r := by
  obtain ⟨⟨i, env⟩, parts⟩ := t
  have hlen : ∀ n, Code.arity? i.shape = some n → (parts.map SurveyedCode.code).length = n := by
    rw [SurveyedCode.code_node] at hfull
    exact hfull
  simp only [write?, info_node, SurveyedCode.code_node, children_node] at h hs
  simp only [visitParts, SurveyedCode.code_node, info_node, children_node]
  split at h
  · rename_i op left rest hshape hcs
    obtain ⟨u', hu, hpair⟩ := Option.map_eq_some_iff.mp h
    obtain ⟨rfl, rfl⟩ := Prod.mk.inj hpair
    obtain ⟨left', right, htwo⟩ := List.length_eq_two.mp (hlen 2 (by rw [hshape]; rfl))
    rw [htwo] at hcs ⊢
    obtain ⟨rfl, rfl⟩ := List.cons.inj hcs
    have hvisit : visit setting ancestors (.node i [left', right]) s =
        visitAssign setting ancestors i op [left', right] s := by
      rw [visit, hshape]
      rfl
    rw [hvisit, visitAssign, hs, hu, hshape]
    exact ⟨_, _, rfl, fun _ => rfl⟩
  · rename_i op fixity operand rest hshape hcs
    obtain ⟨u', hu, hpair⟩ := Option.map_eq_some_iff.mp h
    obtain ⟨rfl, rfl⟩ := Prod.mk.inj hpair
    rw [hcs]
    have hvisit : visit setting ancestors (.node i (operand :: rest)) s =
        visitStep setting ancestors i op fixity (operand :: rest) s := by
      rw [visit, hshape]
      rfl
    rw [hvisit, visitStep, hs, hu, hshape]
    exact ⟨_, _, rfl, fun _ => rfl⟩
  · exact absurd h (by simp)

def helperEdit (b : Boundary) (side : Side) (text : String) : Edit :=
  match side with
  | .before => .insertBefore b.span.start text
  | .after => .insertAfter b.span.stop text

theorem queue_hoist (s : Scan) (b : Boundary) (side : Side) (text : String) :
    ∃ front text', (s.hoist b side text).queue = front ++ [helperEdit b side text'] := by
  cases side with
  | before => exact ⟨(s.openBlock b).queue, _, rfl⟩
  | after => exact ⟨(s.openBlock b).queue, _, rfl⟩

theorem queue_rewriteSite {setting : Setting} {site : CodeNode} {ancestors : List CodeNode}
    {operation : Operation} {b : Boundary} {side : Side}
    (hb : boundary setting.file.source site ancestors = some b)
    (hchoose : Strategy.choose operation (some b.position) = .hoist side) (s : Scan) (u : Usage)
    (visitBase : Scan → Scan) (right : Option Scan.RightSide) :
    ∃ front text, (s.rewriteSite setting site ancestors u operation visitBase right).queue =
      front ++ [helperEdit b side text] := by
  unfold Scan.rewriteSite
  cases operation with
  | read => exact absurd hchoose (by simp [Strategy.choose])
  | assign | compound op | step op fixity =>
    simp only [hb, Option.map_some, hchoose]
    exact queue_hoist _ b side _

/-- Visiting a write that is hoisted queues its helper statement last, at the start or the
end of its boundary. -/
theorem queue_visit_hoist {setting : Setting} {ancestors : List CodeNode} {t : SurveyedCode}
    {w : Hoist} (hfull : Code.Full t.code) (h : hoistAt setting ancestors t = some w) (s : Scan)
    (hs : s.env = t.info.2) :
    ∃ front text, (visit setting ancestors t.code s).queue =
      front ++ [helperEdit w.boundary w.side text] := by
  obtain ⟨u, operation, hwrite, hb, hchoose⟩ := exists_write_of_hoistAt h
  obtain ⟨visitBase, right, hvisit, -⟩ := visit_of_write? hfull hwrite ancestors s hs
  rw [hvisit]
  exact queue_rewriteSite hb hchoose s u visitBase right

/-- A node above a position is the node at a shorter position. -/
theorem exists_at?_take {body t : SurveyedCode} {p : List Nat} (ht : body.at? p = some t)
    {passed outer : List CodeNode} {node : CodeNode}
    (hanc : ancestorsAt body p = passed ++ node :: outer) :
    ∃ s, body.at? (p.take outer.length) = some s ∧ s.info.1 = node ∧
      ancestorsAt body (p.take outer.length) = outer ∧ s.at? (p.drop outer.length) = some t ∧
      outer.length < p.length := by
  have hparts := ht
  rw [← List.take_append_drop outer.length p, at?_append] at hparts
  obtain ⟨s, hs, hbelow⟩ := Option.bind_eq_some_iff.mp hparts
  have hlen : passed.length + (outer.length + 1) = p.length := by
    have hlens := congrArg List.length hanc
    rw [ancestorsAt, List.length_map, length_above ht, List.length_append,
      List.length_cons] at hlens
    exact hlens.symm
  -- the nodes above `t` end in `s` and the nodes above it
  have habove : ancestorsAt body p =
      (s.above (p.drop outer.length)).map Prod.fst ++ ancestorsAt body (p.take outer.length) := by
    conv_lhs => rw [← List.take_append_drop outer.length p]
    rw [ancestorsAt, above_append hs, List.map_append]
    rfl
  obtain ⟨n, q, hdrop⟩ : ∃ n q, p.drop outer.length = n :: q :=
    List.exists_cons_of_ne_nil (by rw [Ne, List.drop_eq_nil_iff]; omega)
  rw [hanc, hdrop, above, List.map_append, List.append_assoc, List.map_singleton,
    List.singleton_append] at habove
  have houter : (node :: outer).length =
      (s.info.1 :: ancestorsAt body (p.take outer.length)).length := by
    rw [List.length_cons, List.length_cons, ancestorsAt, List.length_map, length_above hs,
      List.length_take]
    omega
  obtain ⟨-, hlast⟩ := List.append_inj' habove houter
  obtain ⟨hnode, hrest⟩ := List.cons.inj hlast
  exact ⟨s, hs, hnode.symm, hrest.symm, hbelow, by omega⟩

/-- The way up from a write that is hoisted. -/
theorem hoist?_route {setting : Setting} {body : SurveyedCode} {p : List Nat} {w : Hoist}
    (h : hoist? setting body p = some w) :
    ∃ t passed stmt outer, body.at? p = some t ∧ ancestorsAt body p = passed ++ stmt :: outer ∧
      Route passed stmt outer ∧ w.boundary.depth = outer.length ∧ w.boundary.span = stmt.span ∧
      List.IsChain Free (t.info.1 :: passed ++ [stmt]) ∧ stmt.shape ≠ .block := by
  obtain ⟨t, ht, h⟩ := Option.bind_eq_some_iff.mp h
  obtain ⟨u, operation, -, hb, hchoose⟩ := exists_write_of_hoistAt h
  obtain ⟨passed, stmt, outer, hanc, hroute, hdepth, hspan, hopen⟩ := boundaryFrom_route hb
  exact ⟨t, passed, stmt, outer, ht, hanc, hroute, hdepth, hspan,
    (hopen (choose_hoist hchoose)).2⟩

/-- The ways in which one part of a statement is evaluated before another. -/
inductive Sequencing where
  | shortCircuit
  | comma
  | conditional
  | declarators
deriving DecidableEq

def roleOf (t : SurveyedCode) (n : Nat) : Option Role :=
  t.children[n]?.map (·.info.1.role)

/-- Whether the child `m` of a node is evaluated before its child `n` in the given way. -/
def orders (kind : Sequencing) (m n : Nat) (t : SurveyedCode) : Bool :=
  match kind, t.info.1.shape with
  | .shortCircuit, .binary op =>
    shortCircuit.contains op && roleOf t m == some .left && roleOf t n == some .right
  | .comma, .comma => roleOf t m == some .left && roleOf t n == some .right
  | .conditional, .conditional =>
    roleOf t m == some .condition
      && (roleOf t n == some .consequence || roleOf t n == some .alternative)
  | .declarators, .declaration _ => m < n && n < t.children.length
  | _, _ => false

/-- Inside the statement at `q`, the node at `a` is evaluated before the node at `b`. -/
def Sequenced (body : SurveyedCode) (q : List Nat) (kind : Sequencing) (a b : List Nat) : Prop :=
  ∃ r m n, q <+: r ∧ r ++ [m] <+: a ∧ r ++ [n] <+: b ∧ (body.at? r).any (orders kind m n) = true

/-- Where a node and its child on the way to a hoisted write lie inside the boundary,
nothing is fixed by leaving the child. -/
theorem free_of_hoist? {setting : Setting} {body : SurveyedCode} {p : List Nat} {w : Hoist}
    (h : hoist? setting body p = some w) {r : List Nat} {n : Nat}
    (hr : p.take w.boundary.depth <+: r) (hp : r ++ [n] <+: p) :
    ∃ t c, body.at? r = some t ∧ t.children[n]? = some c ∧ Free c.info.1 t.info.1 := by
  obtain ⟨s, passed, stmt, outer, hsite, hanc, -, hdepth, -, hchain, -⟩ := hoist?_route h
  obtain ⟨rest, rfl⟩ := hp
  rw [List.append_assoc, List.singleton_append] at hsite hanc hr
  have hsplit := hsite
  rw [at?_append] at hsplit
  obtain ⟨t, ht, hsplit⟩ := Option.bind_eq_some_iff.mp hsplit
  obtain ⟨c, hc, hs⟩ := Option.bind_eq_some_iff.mp hsplit
  refine ⟨t, c, ht, hc, ?_⟩
  obtain ⟨below, hbelow⟩ := exists_above_eq ht hc hs
  have hlen : outer.length ≤ (ancestorsAt body r).length := by
    have hparts := congrArg List.length hanc
    have hprefix := hr.length_le
    simp only [ancestorsAt, List.length_map, length_above ht, length_above hsite,
      List.length_append, List.length_cons, List.length_take] at *
    omega
  have hspine : (s.info.1 :: passed ++ [stmt]) ++ outer =
      (below.map Prod.fst ++ [c.info.1, t.info.1]) ++ ancestorsAt body r := by
    have hmap := congrArg (List.map Prod.fst) hbelow
    simp only [List.map_cons, List.map_append] at hmap
    rw [List.append_assoc, List.cons_append, List.singleton_append, ← hanc]
    simpa [ancestorsAt] using hmap
  -- the boundary is at most as far down as `t`, so the pair is part of the free chain
  have hpair : ∃ above, s.info.1 :: passed ++ [stmt] =
      below.map Prod.fst ++ c.info.1 :: t.info.1 :: above := by
    rcases List.append_eq_append_iff.mp hspine with ⟨extra, hfront, hback⟩ | ⟨extra, hfront, -⟩
    · have hextra : extra = [] := by
        have hlens := congrArg List.length hback
        rw [List.length_append] at hlens
        exact List.length_eq_zero_iff.mp (by omega)
      subst hextra
      exact ⟨[], by rw [List.append_nil] at hfront; rw [← hfront]⟩
    · exact ⟨extra, by rw [hfront, List.append_assoc]; rfl⟩
  obtain ⟨above, hpair⟩ := hpair
  rw [hpair] at hchain
  exact (List.isChain_append_cons_cons.mp hchain).2.1

/-- What a helper statement can overtake: only earlier declarators. -/
theorem sequenced_before_hoist {setting : Setting} {body : SurveyedCode} {p : List Nat}
    {w : Hoist} (h : hoist? setting body p = some w) {kind : Sequencing} {m : List Nat}
    (hseq : Sequenced body (p.take w.boundary.depth) kind m p) : kind = .declarators := by
  obtain ⟨r, i, j, hq, -, hp, hany⟩ := hseq
  obtain ⟨t, c, ht, hc, hfree⟩ := free_of_hoist? h hq hp
  have hrole : roleOf t j = some c.info.1.role := by rw [roleOf, hc]; rfl
  rw [ht, Option.any_some] at hany
  unfold Free sequencedPlace at hfree
  cases kind with
  | declarators => rfl
  | shortCircuit =>
    unfold orders at hany
    cases hs : t.info.1.shape <;> simp_all
  | comma =>
    unfold orders at hany
    cases hs : t.info.1.shape <;> simp_all
  | conditional =>
    unfold orders at hany
    cases hs : t.info.1.shape <;> simp_all

/-- What a helper statement can fall behind: anything but the right operand of a comma. -/
theorem sequenced_after_hoist {setting : Setting} {body : SurveyedCode} {p : List Nat}
    {w : Hoist} (h : hoist? setting body p = some w) {kind : Sequencing} {m : List Nat}
    (hseq : Sequenced body (p.take w.boundary.depth) kind p m) : kind ≠ .comma := by
  obtain ⟨r, i, j, hq, hp, -, hany⟩ := hseq
  obtain ⟨t, c, ht, hc, hfree⟩ := free_of_hoist? h hq hp
  rw [ht, Option.any_some] at hany
  rintro rfl
  unfold Free sequencedPlace at hfree
  unfold orders at hany
  cases hs : t.info.1.shape <;> simp_all

/-- Accesses to the field of a hoisted write stay on their side of it: none is evaluated
before the write if the helper statement stands in front, and none after the write if it
stands behind. -/
def KeepsOrder (setting : Setting) (body : SurveyedCode) (p : List Nat) (w : Hoist) : Prop :=
  ∀ m kind, (body.at? m).bind (reached? setting) = some w.target →
    match w.side with
    | .before => ¬ Sequenced body (p.take w.boundary.depth) kind m p
    | .after => ¬ Sequenced body (p.take w.boundary.depth) kind p m

/-- A hoisted write crosses a sequence point exactly where an earlier declarator is
overtaken, or where a helper behind the statement comes after a right operand, a branch
or a later declarator that is evaluated once the write is done. -/
theorem hoist_keeps_order_iff (setting : Setting) (body : SurveyedCode) (p : List Nat)
    (w : Hoist) (h : hoist? setting body p = some w) :
    KeepsOrder setting body p w ↔
      ∀ m, (body.at? m).bind (reached? setting) = some w.target →
        match w.side with
        | .before => ¬ Sequenced body (p.take w.boundary.depth) .declarators m p
        | .after => ∀ kind ∈ [Sequencing.shortCircuit, .conditional, .declarators],
          ¬ Sequenced body (p.take w.boundary.depth) kind p m := by
  unfold KeepsOrder
  cases w.side with
  | before =>
    constructor
    · intro hkeeps m hm
      exact hkeeps m .declarators hm
    · intro hkeeps m kind hm hseq
      have hkind := sequenced_before_hoist h hseq
      subst hkind
      exact hkeeps m hm hseq
  | after =>
    constructor
    · intro hkeeps m hm kind _
      exact hkeeps m kind hm
    · intro hkeeps m kind hm hseq
      refine hkeeps m hm kind ?_ hseq
      have hkind := sequenced_after_hoist h hseq
      cases kind <;> simp_all

section Example

open ParseTree

/-- A function with the statement `int z=a.x,w=a.x++,v=++a.x;`. -/
def declaratorsTree : ParseTree :=
  unitTree 55 [named "declaration" 29 55
    [filling "type" "primitive_type" 29 32 [],
     filling "declarator" "init_declarator" 33 38
       [filling "declarator" "identifier" 33 34 [], accessTree "value" 35],
     filling "declarator" "init_declarator" 39 46
       [filling "declarator" "identifier" 39 40 [],
        filling "value" "update_expression" 41 46
          [accessTree "argument" 41, mark (some "operator") "++" 44 46]],
     filling "declarator" "init_declarator" 47 54
       [filling "declarator" "identifier" 47 48 [],
        filling "value" "update_expression" 49 54
          [mark (some "operator") "++" 49 51, accessTree "argument" 51]]]]

def declaratorsFile : SourceFile :=
  .ofParsed "declarators.cpp" (unitText "int z=a.x,w=a.x++,v=++a.x;") ⟨declaratorsTree, false⟩

def declaratorsSetting : Setting :=
  .ofUnit ["F::x"] ⟨declaratorsFile, []⟩

def declaratorsBody : SurveyedCode :=
  (declaratorsFile.functions.head?.bind (surveyFunction declaratorsSetting.symbols)).getD
    (.node (⟨.body, .block, .point 0⟩, {}) [])

def declaratorsHoist (side : Side) : Hoist :=
  { target := ⟨"F::x", "x", { base := "int" }, "const int", "F", true, ⟨9, 15⟩⟩
    boundary := ⟨1, ⟨29, 55⟩, .inside true, false, ""⟩
    side }

/-- The last declarator's `++a.x` is hoisted in front of the declaration, and so in front
of the read in the first declarator. -/
theorem increment_overtakes_declarator :
    hoist? declaratorsSetting declaratorsBody [0, 2] = some (declaratorsHoist .before) ∧
      ¬ KeepsOrder declaratorsSetting declaratorsBody [0, 2] (declaratorsHoist .before) := by
  refine ⟨by decide, fun hkeeps => ?_⟩
  have hread : (declaratorsBody.at? [0, 0]).bind (reached? declaratorsSetting) =
      some (declaratorsHoist .before).target := by decide
  refine hkeeps [0, 0] .declarators hread ⟨[0], 0, 2, ?_, ?_, ?_, ?_⟩
  all_goals decide

/-- The second declarator's `a.x++` is hoisted behind the declaration, although the third
declarator is evaluated after it. -/
theorem hoist_keeps_order_iff_declarators :
    hoist? declaratorsSetting declaratorsBody [0, 1] = some (declaratorsHoist .after) ∧
      ¬ KeepsOrder declaratorsSetting declaratorsBody [0, 1] (declaratorsHoist .after) := by
  have hhoist : hoist? declaratorsSetting declaratorsBody [0, 1] =
      some (declaratorsHoist .after) := by decide
  refine ⟨hhoist, fun hkeeps => ?_⟩
  have hread : (declaratorsBody.at? [0, 2, 0]).bind (reached? declaratorsSetting) =
      some (declaratorsHoist .after).target := by decide
  refine (hoist_keeps_order_iff _ _ _ _ hhoist).mp hkeeps [0, 2, 0] hread .declarators
    (by simp) ⟨[0], 1, 2, ?_, ?_, ?_, ?_⟩
  all_goals decide

end Example

def isHeaderOf (parent child : CodeNode) : Bool :=
  match parent.shape with
  | .branch | .switch | .loop .. =>
    [Role.condition, .init, .update, .range].contains child.role
  | _ => false

/-- Whether the way from a node up to the nearest block enters a control statement
through its header. -/
def inHeader (n : CodeNode) : List CodeNode → Bool
  | [] => false
  | parent :: outer =>
    if parent.shape = .block then false else isHeaderOf parent n || inHeader parent outer

/-- The node with the given number of ancestors among the ancestors of a usage, with its own
ancestors. -/
def ancestorAt (ancestors : List CodeNode) (depth : Nat) : Option (CodeNode × List CodeNode) :=
  match ancestors.drop (ancestors.length - (depth + 1)) with
  | n :: outer => some (n, outer)
  | [] => none

theorem ancestorAt_append (inner : List CodeNode) (n : CodeNode) (outer : List CodeNode) :
    ancestorAt (inner ++ n :: outer) outer.length = some (n, outer) := by
  have hlen : (inner ++ n :: outer).length - (outer.length + 1) = inner.length := by
    simp only [List.length_append, List.length_cons]
    omega
  rw [ancestorAt, hlen, List.drop_left]

/-- Some statement, and not merely a declaration in the place of a condition, stands in a
header between a usage with the given ancestors and the nearest block. -/
def StatementInHeader (ancestors : List CodeNode) : Prop :=
  ∃ inner n outer, ancestors = inner ++ n :: outer ∧
    (∀ x ∈ inner ++ [n], x.shape ≠ .block) ∧ stopsAt n outer = true ∧ inHeader n outer = true

/-- Whatever is below a node of a header belongs to the header, up to the nearest block. -/
theorem inHeader_append {n : CodeNode} {outer : List CodeNode} (hn : inHeader n outer = true)
    (x : CodeNode) (inner : List CodeNode) (hblock : ∀ y ∈ inner ++ [n], y.shape ≠ .block) :
    inHeader x (inner ++ n :: outer) = true := by
  induction inner generalizing x with
  | nil =>
    have hshape : n.shape ≠ .block := hblock n (by simp)
    simp [inHeader, hshape, hn]
  | cons y inner ih =>
    have hshape : y.shape ≠ .block := hblock y (by simp)
    have hy := ih y fun z hz => hblock z (List.mem_cons_of_mem _ hz)
    simp [inHeader, hshape, hy]

/-- The statement where a way up stops is the innermost that can stop it. -/
theorem Route.innermost {passed inner outer above : List CodeNode} {stmt n : CodeNode}
    (h : Route passed stmt outer) (heq : passed ++ stmt :: outer = inner ++ n :: above)
    (hn : stopsAt n above = true) :
    (stmt = n ∧ outer = above) ∨
      ∃ between, inner = passed ++ stmt :: between ∧ outer = between ++ n :: above := by
  rcases List.append_eq_append_iff.mp heq with ⟨front, hinner, houter⟩ | ⟨front, hpassed, habove⟩
  · cases front with
    | nil =>
      obtain ⟨rfl, rfl⟩ := List.cons.inj houter
      exact Or.inl ⟨rfl, rfl⟩
    | cons x between =>
      obtain ⟨rfl, rfl⟩ := List.cons.inj houter
      exact Or.inr ⟨between, hinner, rfl⟩
  · cases front with
    | nil =>
      obtain ⟨rfl, rfl⟩ := List.cons.inj habove
      exact Or.inl ⟨rfl, rfl⟩
    | cons x between =>
      -- `n` would have stopped the way up below `stmt`
      obtain ⟨rfl, rfl⟩ := List.cons.inj habove
      have hpass := h.passes inner n between hpassed
      exact absurd (hpass.symm.trans hn) (by simp)

/-- The boundary of a hoisted write belongs to the header of a control statement exactly
where some statement stands in the header around the write, as an init-statement does. -/
theorem hoist_in_header_iff (setting : Setting) (body : SurveyedCode) (p : List Nat)
    (w : Hoist) (h : hoist? setting body p = some w) :
    ∃ stmt outer, ancestorAt (ancestorsAt body p) w.boundary.depth = some (stmt, outer) ∧
      stmt.span = w.boundary.span ∧ stmt.shape.sort = .statement ∧
      (inHeader stmt outer = true ↔ StatementInHeader (ancestorsAt body p)) := by
  obtain ⟨t, passed, stmt, outer, -, hanc, hroute, hdepth, hspan, -, hblock⟩ := hoist?_route h
  have hsort : stmt.shape.sort = .statement := by
    by_contra hne
    have hstops := hroute.stops
    rw [stopsAt_eq_false hne] at hstops
    exact absurd hstops (by simp)
  rw [hanc, hdepth]
  refine ⟨stmt, outer, ancestorAt_append passed stmt outer, hspan.symm, hsort, ?_⟩
  constructor
  · intro hheader
    refine ⟨passed, stmt, outer, rfl, ?_, hroute.stops, hheader⟩
    intro x hx hxblock
    rcases List.mem_append.mp hx with hx | hx
    · obtain ⟨inner, above, rfl⟩ := List.append_of_mem hx
      have hpass := hroute.passes inner x above rfl
      simp [stopsAt, hxblock, Shape.sort] at hpass
    · rw [List.mem_singleton.mp hx] at hxblock
      exact hblock hxblock
  · rintro ⟨inner, n, above, heq, hopen, hstops, hheader⟩
    rcases hroute.innermost heq hstops with ⟨rfl, rfl⟩ | ⟨between, rfl, rfl⟩
    · exact hheader
    · refine inHeader_append hheader stmt between fun x hx => hopen x ?_
      simp only [List.mem_append, List.mem_cons] at hx ⊢
      rcases hx with hx | hx
      · exact Or.inl (Or.inr (Or.inr hx))
      · exact Or.inr hx

section Example

open ParseTree

/-- A function with the statement `if(int q=(a.x=3);q)q;`. -/
def initStatementTree : ParseTree :=
  unitTree 50 [named "if_statement" 29 50
    [filling "condition" "condition_clause" 31 48
       [filling "initializer" "init_statement" 32 46
          [named "declaration" 32 46
             [filling "type" "primitive_type" 32 35 [],
              filling "declarator" "init_declarator" 36 45
                [filling "declarator" "identifier" 36 37 [],
                 filling "value" "parenthesized_expression" 38 45
                   [named "assignment_expression" 39 44
                      [accessTree "left" 39, mark (some "operator") "=" 42 43,
                       filling "right" "number_literal" 43 44 []]]]]],
        filling "value" "identifier" 46 47 []],
     filling "consequence" "expression_statement" 48 50 [named "identifier" 48 49 []]]]

def initStatementFile : SourceFile :=
  .ofParsed "init.cpp" (unitText "if(int q=(a.x=3);q)q;") ⟨initStatementTree, false⟩

def initStatementSetting : Setting :=
  .ofUnit ["F::x"] ⟨initStatementFile, []⟩

def initStatementBody : SurveyedCode :=
  (initStatementFile.functions.head?.bind (surveyFunction initStatementSetting.symbols)).getD
    (.node (⟨.body, .block, .point 0⟩, {}) [])

def initStatementHoist : Hoist :=
  { target := ⟨"F::x", "x", { base := "int" }, "const int", "F", true, ⟨9, 15⟩⟩
    boundary := ⟨4, ⟨32, 46⟩, .inside true, true, ""⟩
    side := .before }

theorem hoist?_initStatement :
    hoist? initStatementSetting initStatementBody [0, 0, 0, 0, 0, 0] =
      some initStatementHoist := by
  decide

theorem inHeader_initStatement :
    (ancestorAt (ancestorsAt initStatementBody [0, 0, 0, 0, 0, 0])
      initStatementHoist.boundary.depth).any (fun s => inHeader s.1 s.2) = true := by
  decide

/-- The helper statement is put inside the parentheses of the condition. -/
theorem assignment_hoisted_into_header :
    hoist? initStatementSetting initStatementBody [0, 0, 0, 0, 0, 0] =
        some initStatementHoist ∧
      (ancestorAt (ancestorsAt initStatementBody [0, 0, 0, 0, 0, 0])
        initStatementHoist.boundary.depth).any (fun s => inHeader s.1 s.2) = true :=
  ⟨hoist?_initStatement, inHeader_initStatement⟩

theorem hoist_in_header_iff_initStatement :
    hoist? initStatementSetting initStatementBody [0, 0, 0, 0, 0, 0] =
        some initStatementHoist ∧
      StatementInHeader (ancestorsAt initStatementBody [0, 0, 0, 0, 0, 0]) := by
  obtain ⟨stmt, outer, hstmt, -, -, hiff⟩ :=
    hoist_in_header_iff _ _ _ _ hoist?_initStatement
  have hheader := inHeader_initStatement
  rw [hstmt] at hheader
  exact ⟨hoist?_initStatement, hiff.mp hheader⟩

end Example

end Encapsulate.Accessors
