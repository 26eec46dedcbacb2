import Encapsulate.Proofs.Coverage
import Encapsulate.Proofs.Journal
import Encapsulate.Proofs.Words

/-!
The operator of an access in its accessor calls. Reading does not look at the operator of an
access: the access is taken for one through a pointer if `->` is found anywhere between its
object and its field, and for one with `.` otherwise. So a call is written with the operator of
the access if that is `->`, or if it is `.` with no `->` beside it, as in a comment. An access
through a pointer to a member, with `.*`, is matched like one with `.` and loses its operator.
-/

namespace Encapsulate

namespace Text

theorem occursIn_iff {part cs : List Char} : occursIn part cs = true ↔ part <:+: cs := by
  induction cs with
  | nil => rw [occursIn, List.isEmpty_iff, List.infix_nil]
  | cons c cs ih =>
    rw [occursIn, Bool.or_eq_true, List.isPrefixOf_iff_prefix, ih, List.infix_cons_iff]

/-- Two characters in a row do not reach over a third one. -/
theorem pair_infix_append_cons_iff {a b c : Char} (ha : a ≠ c) (hb : b ≠ c)
    (front back : List Char) :
    [a, b] <:+: front ++ c :: back ↔ [a, b] <:+: front ∨ [a, b] <:+: back := by
  induction front with
  | nil =>
    rw [List.nil_append, List.infix_cons_iff, List.infix_nil]
    refine or_congr_left (iff_of_false ?_ (by simp))
    exact fun hprefix => ha (List.cons_prefix_cons.mp hprefix).1
  | cons d front ih =>
    rw [List.cons_append, List.infix_cons_iff, ih, List.infix_cons_iff, or_assoc]
    refine or_congr_left ?_
    rw [List.cons_prefix_cons, List.cons_prefix_cons]
    refine and_congr_right fun _ => ?_
    cases front with
    | nil => exact iff_of_false (fun hprefix => hb (List.cons_prefix_cons.mp hprefix).1) (by simp)
    | cons e front => simp [List.cons_prefix_cons]

end Text

namespace Cpp

open Encapsulate.Tree ParseTree

/-- An access as it is written. -/
structure Access where
  object : ParseTree
  token : ParseTree
  field : ParseTree

def access? (t : ParseTree) : Option Access := do
  let object ← field? "argument" t.children
  let token ← field? "operator" t.children
  let field ← field? "field" t.children
  guard (object.span.stop ≤ token.span.start ∧ token.span.start ≤ token.span.stop ∧
    token.span.stop ≤ field.span.start)
  return ⟨object, token, field⟩

def KeepsOperators (t : ParseTree) : Prop :=
  ∀ v ∈ subtrees t, ParseTree.kind v = "field_expression" → (access? v).isSome = true

instance (t : ParseTree) : Decidable (KeepsOperators t) :=
  inferInstanceAs (Decidable (∀ v ∈ subtrees t, _ → _))

namespace Access

/-- `->` is written beside the operator, as in a comment. -/
def ArrowAside (source : List Char) (a : Access) : Prop :=
  ['-', '>'] <:+: Text.slice source ⟨a.object.span.stop, a.token.span.start⟩ ∨
    ['-', '>'] <:+: Text.slice source ⟨a.token.span.stop, a.field.span.start⟩

instance (source : List Char) (a : Access) : Decidable (a.ArrowAside source) :=
  inferInstanceAs (Decidable (_ ∨ _))

/-- The parts of an access are children of its node, in the order in which they are written. -/
structure IsOf (a : Access) (t : ParseTree) : Prop where
  object : field? "argument" t.children = some a.object
  token : field? "operator" t.children = some a.token
  field : field? "field" t.children = some a.field
  front : a.object.span.stop ≤ a.token.span.start
  inside : a.token.span.start ≤ a.token.span.stop
  back : a.token.span.stop ≤ a.field.span.start

theorem isOf_of_access? {t : ParseTree} {a : Access} (h : access? t = some a) : a.IsOf t := by
  obtain ⟨object, hobject, h⟩ := Option.bind_eq_some_iff.mp h
  obtain ⟨token, htoken, h⟩ := Option.bind_eq_some_iff.mp h
  obtain ⟨field, hfield, h⟩ := Option.bind_eq_some_iff.mp h
  obtain ⟨u, hguard, h⟩ := Option.bind_eq_some_iff.mp h
  obtain ⟨hfront, hinside, hback⟩ : object.span.stop ≤ token.span.start ∧
      token.span.start ≤ token.span.stop ∧ token.span.stop ≤ field.span.start := by
    by_contra hnot
    rw [guard, if_neg hnot] at hguard
    exact absurd hguard (by simp)
  obtain rfl := Option.some.inj h
  exact ⟨hobject, htoken, hfield, hfront, hinside, hback⟩

section Reading

variable {source : List Char} {t : ParseTree} {a : Access}

def gap (source : List Char) (a : Access) : List Char :=
  Text.slice source ⟨a.object.span.stop, a.field.span.start⟩

theorem IsOf.memberParts_eq (h : a.IsOf t) (source : List Char) :
    memberParts source t.children =
      some (Text.occursIn ['-', '>'] (a.gap source), text source a.field) := by
  simp only [memberParts, h.object, h.field, Option.bind_eq_bind, Option.bind_some]
  rfl

theorem IsOf.gap_eq (h : a.IsOf t) (hboundary : Everywhere (OnBoundary source) t) :
    a.gap source = Text.slice source ⟨a.object.span.stop, a.token.span.start⟩ ++
      (Text.slice source a.token.span ++
        Text.slice source ⟨a.token.span.stop, a.field.span.start⟩) := by
  have hobject := (hboundary.child (field?_mem h.object)).here
  have htoken := (hboundary.child (field?_mem h.token)).here
  have hfield := (hboundary.child (field?_mem h.field)).here
  have hlast : a.token.span.start ≤ a.field.span.start := Nat.le_trans h.inside h.back
  rw [gap, Text.slice_append hobject.2 htoken.1 hfield.1 h.front hlast,
    Text.slice_append htoken.1 htoken.2 hfield.1 h.inside h.back]

/-- The operator under which an access is read is its own exactly if that is `->`, or `.` with
no `->` beside it. -/
theorem IsOf.operator_eq_iff (h : a.IsOf t) (hboundary : Everywhere (OnBoundary source) t) :
    (if Text.occursIn ['-', '>'] (a.gap source) then "->" else ".") = text source a.token ↔
      text source a.token = "->" ∨ text source a.token = "." ∧ ¬ a.ArrowAside source := by
  have htext : ∀ s : String, text source a.token = s ↔
      Text.slice source a.token.span = s.toList := by
    intro s
    rw [text, Text.sliceString]
    constructor
    · rintro rfl
      rw [String.toList_ofList]
    · intro heq
      rw [heq, String.ofList_toList]
  -- an arrow for an operator is found, and a dot is not mistaken for a part of one
  have harrow : text source a.token = "->" →
      Text.occursIn ['-', '>'] (a.gap source) = true := by
    intro htoken
    rw [Text.occursIn_iff, h.gap_eq hboundary, (htext _).mp htoken]
    exact (List.infix_append' _ _ _)
  have hdot : text source a.token = "." →
      (Text.occursIn ['-', '>'] (a.gap source) = true ↔ a.ArrowAside source) := by
    intro htoken
    rw [Text.occursIn_iff, h.gap_eq hboundary, (htext _).mp htoken]
    exact Text.pair_infix_append_cons_iff (by decide) (by decide) _ _
  constructor
  · intro hsame
    split at hsame
    · exact .inl hsame.symm
    · rename_i hnone
      exact .inr ⟨hsame.symm, fun haside => hnone ((hdot hsame.symm).mpr haside)⟩
  · rintro (htoken | ⟨htoken, hplain⟩)
    · rw [if_pos (harrow htoken), htoken]
    · rw [if_neg fun hfound => hplain ((hdot htoken).mp hfound), htoken]

end Reading

end Access

namespace Code

section Members

variable {source : List Char} {t : ParseTree} {a : Access} {role : Role} {isArrow : Bool}
  {field : String}

theorem kind_of_member {kind : String} (h : Construct.ofKind kind = .member) :
    kind = "field_expression" := by
  unfold Construct.ofKind at h
  split at h
  all_goals first
    | rfl
    | exact absurd h (by decide)
    | (split at h; exact absurd h (by decide); split at h <;> exact absurd h (by decide))

/-- Code that is an access itself is read from an access, which may stand behind an `else`. -/
theorem exists_access_of_shape (h : (read source role t).shape = .member isArrow field) :
    ∃ v ∈ subtrees t, ParseTree.kind v = "field_expression" ∧
      read source role t = read source role v := by
  induction t using induct_descendants generalizing role with
  | h t ih =>
    obtain ⟨i, cs⟩ := t
    cases hkind : Construct.ofKind i.kind with
    | member => exact ⟨_, self_mem_subtrees _, kind_of_member hkind, rfl⟩
    | elseClause =>
      have hread : read source role (.node i cs) =
          ((cs.find? isItem).map (read source role)).getD (.node ⟨role, .group, i.span⟩ []) := by
        rw [read]
        simp only [hkind, readFirst_eq]
      rw [hread] at h ⊢
      cases hfirst : cs.find? isItem with
      | none =>
        rw [hfirst] at h
        exact absurd h (by simp [shape])
      | some c =>
        rw [hfirst] at h
        have hc : c ∈ descendants (.node i cs) :=
          child_mem_descendants (List.mem_of_find?_eq_some hfirst)
        obtain ⟨v, hv, hvkind, hvread⟩ := ih c hc h
        exact ⟨v, mem_subtrees_trans _ hv (descendants_subset hc), hvkind, hvread⟩
    | _ =>
      rw [read] at h
      simp only [hkind] at h
      repeat' split at h
      all_goals simp [shape] at h

/-- Every access in the code is read from one in the tree. -/
theorem exists_access_of_mem {d : Code} (hd : d ∈ subtrees (read source role t))
    (hshape : d.shape = .member isArrow field) :
    ∃ role, ∃ v ∈ subtrees t, ParseTree.kind v = "field_expression" ∧ d = read source role v := by
  have hall : Everywhere (fun d : Code => ∀ isArrow field, d.shape = .member isArrow field →
      ∃ role, ∃ v ∈ subtrees t, ParseTree.kind v = "field_expression" ∧ d = read source role v)
      (read source role t) := by
    refine everywhere_read (K := fun v => v ∈ subtrees t) ?_ ?_ ?_ role (self_mem_subtrees t)
    · exact fun s hs v hv => mem_subtrees_trans _ (descendants_subset hv) hs
    · intro role s hs _ isArrow field hshape
      obtain ⟨v, hv, hkind, hread⟩ := exists_access_of_shape hshape
      exact ⟨role, v, mem_subtrees_trans _ hv hs, hkind, hread⟩
    · intro s i _ hi _ isArrow field hshape
      rw [shape, info_node] at hshape
      rw [hshape] at hi
      exact absurd hi (by simp [arity?])
  exact (hall.of_mem hd).here isArrow field hshape

/-- An access is read as one with `->` if that is found anywhere between its object and its
field. -/
theorem read_access (hkind : ParseTree.kind t = "field_expression") (ha : a.IsOf t)
    (source : List Char) (role : Role) :
    read source role t =
      .node ⟨role, .member (Text.occursIn ['-', '>'] (a.gap source)) (text source a.field),
        ParseTree.span t⟩ [read source .item a.object] := by
  obtain ⟨i, cs⟩ := t
  have hmember : Construct.ofKind i.kind = .member := by
    rw [show i.kind = "field_expression" from hkind]
    rfl
  have hparts := ha.memberParts_eq source
  have hobject := ha.object
  rw [children_node] at hparts hobject
  rw [read]
  simp only [hmember, hparts, readField_eq, hobject]
  rfl

end Members

end Code

end Cpp

namespace Accessors

open Cpp Encapsulate.Tree ParseTree

def Usage.operator (u : Usage) : String :=
  if u.isArrow then "->" else "."

section Sites

variable {setting : Setting} {env : Env} {i : CodeNode} {isArrow : Bool} {field : String}
  {base : Code} {u : Usage}

/-- What an access reaches does not depend on its operator. -/
theorem usage?_access (hi : i.shape = .member isArrow field) (env : Env) (base : Code) :
    usage? setting env (.node i [base]) =
      ((env.resolveMember setting.symbols (.node i [base])).bind fun reached =>
        setting.targets.find? (·.qualifiedName == reached.qualifiedName)).map fun target =>
          ⟨target, isArrow, base⟩ := by
  have hparen : i.isParen = false := by simp [CodeNode.isParen, hi]
  simp only [usage?, Code.unparen, Tree.skip, hparen, Bool.false_eq_true, if_false, hi]
  rw [Option.map_bind]
  rfl

theorem isArrow_of_usage? (hi : i.shape = .member isArrow field)
    (h : usage? setting env (.node i [base]) = some u) : u.isArrow = isArrow ∧ u.base = base := by
  rw [usage?_access hi] at h
  obtain ⟨target, -, rfl⟩ := Option.map_eq_some_iff.mp h
  exact ⟨rfl, rfl⟩

/-- A usage inside parentheses is the access in them. -/
theorem usage?_unparen {c : Code} (h : usage? setting env c = some u) :
    usage? setting env c.unparen = some u := by
  obtain ⟨isArrow, field, hshape⟩ := shape_unparen_of_usage? h
  have hsame : c.unparen.unparen = c.unparen := by
    generalize c.unparen = access at hshape
    obtain ⟨i, cs⟩ := access
    have hi : i.shape = .member isArrow field := hshape
    have hparen : i.isParen = false := by simp [CodeNode.isParen, hi]
    simp only [Code.unparen, Tree.skip, hparen, Bool.false_eq_true, if_false]
  unfold usage? at h ⊢
  rw [hsame]
  exact h

/-- A usage that a search comes to is an access in the code at its position. -/
theorem exists_access_of_siteAt {body : SurveyedCode} {p : List Nat} {x : Site}
    (hx : siteAt setting body p = some x) :
    ∃ t : SurveyedCode, body.at? p = some t ∧ ∃ access ∈ subtrees t.code,
      (∃ isArrow field, Code.shape access = .member isArrow field) ∧
        usage? setting t.info.2 access = some x.usage := by
  obtain ⟨(t : SurveyedCode), ht, -, -, hcases⟩ := siteAt_cases hx
  obtain ⟨(c : Code), hc, husage⟩ :
      ∃ c ∈ subtrees t.code, usage? setting t.info.2 c = some x.usage := by
    rcases hcases with hwrite | ⟨-, hread, -⟩
    · obtain ⟨(operand : SurveyedCode), hoperand⟩ := exists_operand_of_write? hwrite
      have hchild : operand.code ∈ t.code.children := by
        refine List.mem_of_getElem? (i := 0) ?_
        rw [getElem?_code_children, hoperand, Option.map_some]
      exact ⟨operand.code, descendants_subset (child_mem_descendants hchild),
        (usage?_of_write? hwrite hoperand).2⟩
    · unfold read? at hread
      split at hread
      · exact ⟨t.code, self_mem_subtrees _, hread⟩
      · exact absurd hread (by simp)
  exact ⟨t, ht, c.unparen, mem_subtrees_trans _ (unparen_mem_subtrees c) hc,
    shape_unparen_of_usage? husage, usage?_unparen husage⟩

/-- A usage of a search in a file comes from an access in the tree of the file. -/
theorem exists_access_of_site {path : String} {source : List Char} {parsed : Parsed}
    {fs : List Function}
    (hfs : ∀ f ∈ fs, f ∈ (SourceFile.ofParsed path source parsed).functions) {x : Site}
    (hx : x ∈ sitesOf (actsOfFunctions setting fs)) :
    ∃ role env, ∃ v ∈ subtrees parsed.tree, ParseTree.kind v = "field_expression" ∧
      usage? setting env (Code.read source role v) = some x.usage := by
  rw [sitesOf_actsOfFunctions setting fs fun f hf b hb => full_body (hfs f hf) hb] at hx
  obtain ⟨body, hbody, hx⟩ := List.mem_flatMap.mp hx
  obtain ⟨p, -, hx⟩ := List.mem_filterMap.mp hx
  obtain ⟨t, ht, access, haccess, ⟨isArrow, field, hshape⟩, husage⟩ := exists_access_of_siteAt hx
  obtain ⟨f, hf, hsurvey⟩ := List.mem_filterMap.mp hbody
  obtain ⟨b, hb, rfl⟩ := Option.map_eq_some_iff.mp hsurvey
  have hmem : t.code ∈ subtrees b := by
    rw [← code_survey setting.symbols (Env.enter setting.symbols f) b, SurveyedCode.code,
      SurveyedCode.code, subtrees_map]
    exact List.mem_map_of_mem (mem_subtrees_of_at? ht)
  obtain ⟨d, hd, scope, owner, hread⟩ :=
    (Decl.kept_definedIn source).ofParsed path parsed f (hfs f hf) b hb
  obtain ⟨-, hbodyTree⟩ := Decl.readFunction_parts hread
  rw [hb] at hbodyTree
  obtain ⟨bodyTree, hfield, rfl⟩ := Option.map_eq_some_iff.mp hbodyTree.symm
  obtain ⟨role, v, hv, hkind, rfl⟩ :=
    Code.exists_access_of_mem (mem_subtrees_trans _ haccess hmem) hshape
  have hinside : bodyTree ∈ subtrees parsed.tree :=
    mem_subtrees_trans _ (descendants_subset (child_mem_descendants (field?_mem hfield))) hd
  exact ⟨role, t.info.2, v, mem_subtrees_trans _ hv hinside, hkind, husage⟩

end Sites

section Edits

variable {setting : Setting}

def Usage.getterCall (u : Usage) (base : String) : String :=
  base ++ u.operator ++ Name.getter u.target.name ++ "()"

def Usage.setterCall (u : Usage) (base value : String) : String :=
  base ++ u.operator ++ Name.setter u.target.name ++ "( " ++ value ++ " )"

/-- An edit that calls an accessor for a usage whose object reads `base`: in place of the usage,
or in a helper statement. -/
inductive MadeFor (u : Usage) (base : String) : Edit → Prop
  | getter (span : Span) : MadeFor u base (.replace span (u.getterCall base))
  | setter (span : Span) (value : String) : MadeFor u base (.replace span (u.setterCall base value))
  | helper (b : Boundary) (side : Side) (value : String) :
      MadeFor u base (helperEdit b side (helperText b side (u.setterCall base value)))

/-- An edit that opens or closes a block around a statement with helper statements. -/
inductive IsBrace : Edit → Prop
  | opening (b : Boundary) : IsBrace (.insertBefore b.span.start ("\x7b\n" ++ b.indent))
  | closing (b : Boundary) (stop : Nat) : IsBrace (.insertAfter stop ("\n" ++ b.indent ++ "\x7d"))

/-- Among some actions, those inside others included, is the usage `x`, with the actions `inObject`
done to its object. -/
inductive Comes : List Action → Site → List Action → Prop
  | here {x : Site} {inObject inRight later : List Action} {right : Option Code} :
      Comes (.site x inObject right inRight :: later) x inObject
  | later {a : Action} {as inObject : List Action} {x : Site} (h : Comes as x inObject) :
      Comes (a :: as) x inObject
  | object {x y : Site} {base inRight later inObject : List Action} {right : Option Code}
      (h : Comes base x inObject) : Comes (.site y base right inRight :: later) x inObject
  | right {x y : Site} {base inRight later inObject : List Action} {c : Code}
      (h : Comes inRight x inObject) : Comes (.site y base (some c) inRight :: later) x inObject

def Made (setting : Setting) (as : List Action) (e : Edit) : Prop :=
  IsBrace e ∨ ∃ x inObject, Comes as x inObject ∧ ∃ s : Scan,
    MadeFor x.usage (s.renderObject setting x (execAll setting inObject)).2 e

theorem Made.mono {as bs : List Action} {e : Edit} (h : Made setting as e)
    (hcomes : ∀ x inObject, Comes as x inObject → Comes bs x inObject) : Made setting bs e :=
  h.imp_right fun ⟨x, inObject, hx, hmade⟩ => ⟨x, inObject, hcomes x inObject hx, hmade⟩

theorem exists_setterCall {u : Usage} {base setter : String} {operation : Operation}
    {operand : Option Operand}
    (h : (Accesses.of base u.isArrow u.target.name operation operand).setter = some setter) :
    ∃ value, setter = u.setterCall base value := by
  cases operation with
  | read => exact absurd h (by simp [Accesses.of])
  | assign | compound op | step op fixity => exact ⟨_, (Option.some.inj h).symm⟩

/-- The edits of a usage call its accessors on the object, or open a block. -/
theorem madeFor_of_mem_applySite {x : Site} (hrewrite : ∀ reason,
      strategyAt setting.file.source x.node x.ancestors x.operation ≠ .refuse reason)
    (s : Scan) (base : String) (operand : Option Operand) {e : Edit}
    (he : e ∈ (s.fresh.applySite setting x base operand).queue) :
    IsBrace e ∨ MadeFor x.usage base e := by
  unfold Scan.applySite at he
  cases hstrategy : strategyAt setting.file.source x.node x.ancestors x.operation with
  | refuse reason => exact absurd hstrategy (hrewrite reason)
  | inPlace =>
    rw [hstrategy] at he
    refine .inr ?_
    cases hsetter :
        (Accesses.of base x.usage.isArrow x.usage.target.name x.operation operand).setter with
    | none =>
      simp only [Plan.make, hsetter, Scan.queue_apply_inPlace] at he
      rw [List.mem_singleton.mp he]
      exact .getter x.node.span
    | some setter =>
      obtain ⟨value, rfl⟩ := exists_setterCall hsetter
      simp only [Plan.make, hsetter, Scan.queue_apply_inPlace] at he
      rw [List.mem_singleton.mp he]
      exact .setter x.node.span value
  | hoist side =>
    have hwrite : x.operation ≠ .read := by
      intro hread
      rw [hread, strategyAt_read] at hstrategy
      exact absurd hstrategy (by simp)
    obtain ⟨b, hb⟩ := exists_boundary_of_hoist hwrite hstrategy
    obtain ⟨setter, hsetter⟩ :=
      exists_setter hwrite base x.usage.isArrow x.usage.target.name operand
    obtain ⟨value, rfl⟩ := exists_setterCall hsetter
    obtain ⟨opening, hqueue, hopening⟩ := s.fresh.queue_apply_hoist x.node x.ancestors x.operation b
      (x.usage.getterCall base) side (x.usage.setterCall base value)
    have hmade : e ∈ [Edit.replace (parenthesizedSpan x.node x.ancestors)
        (x.usage.getterCall base)] ++ opening ++
          [helperEdit b side (helperText b side (x.usage.setterCall base value))] := by
      rw [hstrategy, hb] at he
      simp only [Plan.make, hsetter] at he
      exact hqueue ▸ he
    rcases List.mem_append.mp hmade with hmade | hmade
    · rcases List.mem_append.mp hmade with hmade | hmade
      · rw [List.mem_singleton.mp hmade]
        exact .inr (.getter _)
      · rcases hopening with rfl | rfl
        · exact absurd hmade List.not_mem_nil
        · rw [List.mem_singleton.mp hmade]
          exact .inl (.opening b)
    · rw [List.mem_singleton.mp hmade]
      exact .inr (.helper b side value)

def ClosesBlocks (s : Scan) : Prop :=
  ∀ c ∈ s.closings, ∃ b : Boundary, c.2 = "\n" ++ b.indent ++ "\x7d"

namespace ClosesBlocks

variable {s : Scan}

theorem of_eq {s' : Scan} (h : ClosesBlocks s) (heq : s'.closings = s.closings) :
    ClosesBlocks s' :=
  fun c hc => h c (heq ▸ hc)

theorem openBlock (h : ClosesBlocks s) (b : Boundary) : ClosesBlocks (s.openBlock b) := by
  unfold Scan.openBlock
  split
  · intro c hc
    rcases List.mem_cons.mp hc with rfl | hc
    · exact ⟨b, rfl⟩
    · exact h c hc
  · exact h

theorem close (h : ClosesBlocks s) (depth stop : Nat) : ClosesBlocks (s.close depth stop) := by
  unfold Scan.close
  split
  · exact fun c hc => h c (List.mem_of_mem_filter hc)
  · exact h

theorem apply (h : ClosesBlocks s) (site : CodeNode) (ancestors : List CodeNode)
    (operation : Operation) (b : Option Boundary) (plan : Plan) :
    ClosesBlocks (s.apply site ancestors operation b plan) := by
  have hreplaced : ∀ span,
      ClosesBlocks ((s.push (.replace span plan.replacement)).count operation) :=
    fun span => h.of_eq (Scan.closings_count _ operation)
  unfold Scan.apply
  split
  · rename_i side text b _
    have hopened := (hreplaced (parenthesizedSpan site ancestors)).openBlock b
    cases side <;> exact hopened.of_eq rfl
  · exact hreplaced _
  · exact hreplaced _

theorem invariant (setting : Setting) : Scan.Invariant setting ClosesBlocks where
  unresolved h span field objectClass := by
    unfold Scan.reportUnresolved
    split
    · exact h.of_eq rfl
    · exact h
  escape h _ _ _ := h.of_eq rfl
  refusal h _ _ _ _ := h.of_eq rfl
  duplicate h offset u operation := h.of_eq (Scan.closings_noteDuplicate _ offset u operation)
  render {s} h visit hvisit span := by
    have hvisited : ClosesBlocks (visit s.fresh) := hvisit (h.of_eq rfl)
    exact hvisited.of_eq (Scan.closings_render s span visit)
  apply h site ancestors operation plan := h.apply site ancestors operation _ plan
  close h := h.close

end ClosesBlocks

def OnlyMakes (setting : Setting) (as : List Action) : Prop :=
  ∀ s : Scan, ClosesBlocks s → ∀ e ∈ journalOf setting as s, Made setting as e

theorem onlyMakes_site {x : Site} {base inRight : List Action} {right : Option Code}
    (hbase : OnlyMakes setting base) (hright : OnlyMakes setting inRight) :
    OnlyMakes setting [.site x base right inRight] := by
  intro s hs e he
  have ofObject : Made setting base e → Made setting [.site x base right inRight] e :=
    fun h => h.mono fun y inObject hy => .object hy
  have ofRight : ∀ r : Scan, ClosesBlocks r →
      (e ∈ if right.isSome then journalOf setting inRight r else []) →
        Made setting [.site x base right inRight] e := by
    intro r hr he
    cases right with
    | none => exact absurd he List.not_mem_nil
    | some c => exact (hright r hr e he).mono fun y inObject hy => .right hy
  rw [journalOf, journalOf, List.append_nil] at he
  by_cases hrefuse : ∃ reason,
      strategyAt setting.file.source x.node x.ancestors x.operation = .refuse reason
  · obtain ⟨reason, hreason⟩ := hrefuse
    have hreported : ClosesBlocks
        (s.reportRefusal setting x.node.span.start x.usage.target x.operation reason) :=
      hs.of_eq rfl
    simp only [Action.journal, hreason] at he
    rcases List.mem_append.mp he with he | he
    · exact ofObject (hbase _ hreported e he)
    · exact ofRight _ ((ClosesBlocks.invariant setting).execAll base hreported) he
  · have hrewrite : ∀ reason,
        strategyAt setting.file.source x.node x.ancestors x.operation ≠ .refuse reason :=
      fun reason hreason => hrefuse ⟨reason, hreason⟩
    obtain ⟨-, hjournal⟩ := exec_site_of_rewrite hrewrite base right inRight s
    rw [hjournal] at he
    have hnoted : ClosesBlocks
        (s.noteDuplicate setting x.node.span.start x.usage x.operation).fresh :=
      hs.of_eq (Scan.closings_noteDuplicate s _ _ _)
    have hobject : ClosesBlocks (s.renderObject setting x (execAll setting base)).1.fresh :=
      ((ClosesBlocks.invariant setting).execAll base hnoted).of_eq (Scan.closings_render _ _ _)
    rcases List.mem_append.mp he with he | he
    · rcases List.mem_append.mp he with he | he
      · exact ofObject (hbase _ hnoted e he)
      · exact ofRight _ hobject he
    · exact (madeFor_of_mem_applySite hrewrite _ _ _ he).imp_right
        fun hmade => ⟨x, base, .here, s, hmade⟩

theorem onlyMakes (setting : Setting) (as : List Action) : OnlyMakes setting as := by
  refine Action.inductAll (P := OnlyMakes setting) ?_ ?_ ?_ ?_ ?_ ?_ as
  · exact fun s _ e he => absurd he List.not_mem_nil
  · intro a as ha has s hs e he
    rw [journalOf] at he
    rcases List.mem_append.mp he with he | he
    · have hfirst : Made setting [a] e := by
        refine ha s hs e ?_
        rw [journalOf, journalOf, List.append_nil]
        exact he
      refine hfirst.mono fun x inObject hx => ?_
      cases hx with
      | here => exact .here
      | later h => cases h
      | object h => exact .object h
      | right h => exact .right h
    · have hnext : ClosesBlocks (a.exec setting s) :=
        (ClosesBlocks.invariant setting).execAll [a] hs
      exact (has _ hnext e he).mono fun x inObject hx => .later hx
  · exact fun span field objectClass s _ e he => absurd he List.not_mem_nil
  · exact fun offset target how s _ e he => absurd he List.not_mem_nil
  · exact fun x base right inRight hbase hright => onlyMakes_site hbase hright
  · intro depth stop s hs e he
    rw [journalOf, journalOf, List.append_nil, Action.journal, Scan.close] at he
    split at he
    · rename_i text hlookup
      obtain ⟨front, back, hsplit, -⟩ := List.lookup_eq_some_iff.mp hlookup
      obtain ⟨b, hb⟩ := hs (depth, text) (by
        show (depth, text) ∈ s.fresh.closings
        rw [hsplit]
        simp)
      refine .inl ?_
      rw [List.mem_singleton.mp he, show text = _ from hb]
      exact .closing b stop
    · exact absurd he List.not_mem_nil

end Edits

/-- Which target an access reaches does not depend on its operator. -/
theorem target_of_operator (setting : Setting) (env : Env) {i j : CodeNode}
    {isArrow isArrow' : Bool} {field : String} (hi : i.shape = .member isArrow field)
    (hj : j.shape = .member isArrow' field) (base : Code) :
    (usage? setting env (.node i [base])).map Usage.target =
      (usage? setting env (.node j [base])).map Usage.target := by
  have hreached : env.resolveMember setting.symbols (.node i [base]) =
      env.resolveMember setting.symbols (.node j [base]) := by
    simp only [Env.resolveMember, Code.shape, info_node, hi, hj, children_node]
  rw [usage?_access hi, usage?_access hj, hreached, Option.map_map, Option.map_map]
  rfl

/-- All that a search of a file queues are calls of accessors for its usages, each on what the
object of the usage is rendered to, and braces around helper statements. Each usage comes from an
access, and its calls are written with the operator of that access exactly if this is `->`, or is
`.` with no `->` beside it. An access reaches what it would reach with `.` for an operator. -/
theorem operator_kept_iff (path : String) (source : List Char) {parsed : Parsed}
    (hboundary : Everywhere (OnBoundary source) parsed.tree)
    (hoperators : KeepsOperators parsed.tree) (setting : Setting) (fs : List Function)
    (hfs : ∀ f ∈ fs, f ∈ (SourceFile.ofParsed path source parsed).functions) :
    let as := actsOfFunctions setting fs
    (∀ e ∈ (scan setting fs).queue, e ∈ journalOf setting as {}) ∧
    (∀ e ∈ journalOf setting as {}, IsBrace e ∨ ∃ x inObject, Comes as x inObject ∧ ∃ s : Scan,
      MadeFor x.usage (s.renderObject setting x (execAll setting inObject)).2 e) ∧
    (∀ x ∈ sitesOf as, ∃ v ∈ subtrees parsed.tree, ∃ a role env,
      ParseTree.kind v = "field_expression" ∧ access? v = some a ∧
      usage? setting env (Code.read source role v) = some x.usage ∧
      x.usage.base = Code.read source .item a.object ∧
      (x.usage.operator = text source a.token ↔
        text source a.token = "->" ∨ text source a.token = "." ∧ ¬ a.ArrowAside source)) ∧
    ∀ v ∈ subtrees parsed.tree, ParseTree.kind v = "field_expression" → ∀ a, access? v = some a →
      ∀ role env, (usage? setting env (Code.read source role v)).map Usage.target =
        (usage? setting env (.node ⟨role, .member false (text source a.field), ParseTree.span v⟩
          [Code.read source .item a.object])).map Usage.target := by
  intro as
  refine ⟨?_, ?_, ?_, ?_⟩
  · intro e he
    obtain ⟨env, hscan⟩ := scan_eq setting fs fun f hf b hb => full_body (hfs f hf) hb
    obtain ⟨new, hqueue, hnew⟩ := lasting setting as {}
    have hsame : (scan setting fs).queue = new :=
      (congrArg Scan.queue hscan).trans (hqueue.trans (List.nil_append new))
    rw [hsame] at he
    exact hnew.subset he
  · exact onlyMakes setting as {} fun c hc => absurd hc List.not_mem_nil
  · intro x hx
    obtain ⟨role, env, v, hv, hkind, husage⟩ := exists_access_of_site hfs hx
    obtain ⟨a, ha⟩ := Option.isSome_iff_exists.mp (hoperators v hv hkind)
    have hof := Access.isOf_of_access? ha
    have hread := Code.read_access hkind hof source role
    obtain ⟨harrow, hbase⟩ := isArrow_of_usage? rfl (hread ▸ husage)
    refine ⟨v, hv, a, role, env, hkind, ha, husage, hbase, ?_⟩
    rw [Usage.operator, harrow]
    exact hof.operator_eq_iff (hboundary.of_mem hv)
  · intro v _ hkind a ha role env
    rw [Code.read_access hkind (Access.isOf_of_access? ha) source role]
    exact target_of_operator setting env rfl rfl _

section Example

/-- A function with the statement `a.x=3;`. -/
def dotTree : ParseTree :=
  unitTree 35 [named "expression_statement" 29 35
    [named "assignment_expression" 29 34
       [filling "left" "field_expression" 29 32
          [filling "argument" "identifier" 29 30 [], mark (some "operator") "." 30 31,
           filling "field" "field_identifier" 31 32 []],
        mark (some "operator") "=" 32 33, filling "right" "number_literal" 33 34 []]]]

def dotFile : SourceFile :=
  .ofParsed "dot.cpp" (unitText "a.x=3;") ⟨dotTree, false⟩

def dotSetting : Setting :=
  .ofUnit ["F::x"] ⟨dotFile, []⟩

theorem operator_kept_iff_dot :
    ∃ x ∈ sitesOf (actsOfFunctions dotSetting dotFile.functions), x.usage.operator = "." := by
  have hboundary : Everywhere (OnBoundary (unitText "a.x=3;")) dotTree := by decide
  have hoperators : KeepsOperators dotTree := by decide
  obtain ⟨-, -, hsites, -⟩ := operator_kept_iff "dot.cpp" (unitText "a.x=3;") hboundary hoperators
    dotSetting dotFile.functions fun f hf => hf
  have hsome : 0 < (sitesOf (actsOfFunctions dotSetting dotFile.functions)).length := by
    decide
  obtain ⟨x, hx⟩ := List.exists_mem_of_length_pos hsome
  obtain ⟨v, hv, a, role, env, -, ha, -, -, hiff⟩ := hsites x hx
  have hplain : ∀ v ∈ subtrees dotTree, (access? v).all fun a =>
      decide (text (unitText "a.x=3;") a.token = "." ∧ ¬ a.ArrowAside (unitText "a.x=3;")) := by
    decide
  have hdot := hplain v hv
  rw [ha] at hdot
  simp only [Option.all_some, decide_eq_true_eq] at hdot
  exact ⟨x, hx, (hiff.mpr (.inr hdot)).trans hdot.1⟩

/-- A function with the statements `a./*->*/x=3;a.*x=4;`. -/
def commentedTree : ParseTree :=
  unitTree 48
    [named "expression_statement" 29 41
       [named "assignment_expression" 29 40
          [filling "left" "field_expression" 29 38
             [filling "argument" "identifier" 29 30 [], mark (some "operator") "." 30 31,
              named "comment" 31 37 [], filling "field" "field_identifier" 37 38 []],
           mark (some "operator") "=" 38 39, filling "right" "number_literal" 39 40 []]],
     named "expression_statement" 41 48
       [named "assignment_expression" 41 47
          [filling "left" "field_expression" 41 45
             [filling "argument" "identifier" 41 42 [], mark (some "operator") ".*" 42 44,
              filling "field" "field_identifier" 44 45 []],
           mark (some "operator") "=" 45 46, filling "right" "number_literal" 46 47 []]]]

def commentedFile : SourceFile :=
  .ofParsed "commented.cpp" (unitText "a./*->*/x=3;a.*x=4;") ⟨commentedTree, false⟩

/-- The comment turns the operator of the first access into `->`, and the second access, which is
not to the field `x`, becomes a call of its setter. -/
theorem operator_lost :
    Everywhere (OnBoundary commentedFile.source) commentedTree ∧ KeepsOperators commentedTree ∧
      commentedFile.text ⟨29, 38⟩ = "a./*->*/x" ∧ commentedFile.text ⟨41, 45⟩ = "a.*x" ∧
      (scan (.ofUnit ["F::x"] ⟨commentedFile, []⟩) commentedFile.functions).queue =
        [.replace ⟨29, 40⟩ "a->setX( 3 )", .replace ⟨41, 47⟩ "a.setX( 4 )"] := by
  decide +kernel

end Example

end Accessors

end Encapsulate
