import Encapsulate.Proofs.Accounting

/-!
Blocks around statements. A search leaves a statement after everything in it, so it comes to
the positions of a body in postorder, and all that it does in a statement lies between its
last step outside and the step with which it leaves the statement. The first helper statement
beside a statement that needs a block opens one, and leaving the statement closes it. A block
that is open is known by the number of ancestors of its statement, which is enough: until it
is left, no other statement with as many ancestors is entered.
-/

namespace Encapsulate

namespace Tree

variable {α : Type}

mutual

def postorder : Tree α → List (List Nat)
  | node _ cs => postorderFrom 0 cs ++ [[]]

def postorderFrom (n : Nat) : List (Tree α) → List (List Nat)
  | [] => []
  | c :: cs => (postorder c).map (n :: ·) ++ postorderFrom (n + 1) cs

end

theorem postorder_perm (t : Tree α) : (postorder t).Perm (positions t) := by
  induction t using inductionOn with
  | h i cs ih =>
    have hfrom : ∀ (ds : List (Tree α)) (n : Nat), (∀ d ∈ ds, d ∈ cs) →
        (postorderFrom n ds).Perm (positionsFrom n ds) := by
      intro ds
      induction ds with
      | nil => exact fun _ _ => .refl _
      | cons d ds ihds =>
        intro n hds
        obtain ⟨hd, hds⟩ := List.forall_mem_cons.mp hds
        exact ((ih d hd).map _).append (ihds (n + 1) hds)
    rw [postorder, positions]
    exact List.perm_append_comm.trans ((hfrom cs 0 fun _ hd => hd).cons [])

theorem mem_postorder {t : Tree α} {p : List Nat} :
    p ∈ postorder t ↔ (t.at? p).isSome = true :=
  (postorder_perm t).mem_iff.trans mem_positions

/-- Whether a position comes before another one: it lies below it, or further to the left. -/
def Before : List Nat → List Nat → Prop
  | _ :: _, [] => True
  | m :: p, n :: q => m < n ∨ (m = n ∧ Before p q)
  | [], _ => False

theorem postorder_pairwise (t : Tree α) : (postorder t).Pairwise Before := by
  induction t using inductionOn with
  | h i cs ih =>
    have hheads : ∀ (ds : List (Tree α)) (n : Nat), ∀ p ∈ postorderFrom n ds,
        ∃ m q, p = m :: q ∧ n ≤ m := by
      intro ds
      induction ds with
      | nil => intro n p hp; simp [postorderFrom] at hp
      | cons d ds ihds =>
        intro n p hp
        rcases List.mem_append.mp hp with hp | hp
        · obtain ⟨q, -, rfl⟩ := List.mem_map.mp hp
          exact ⟨n, q, rfl, Nat.le_refl n⟩
        · obtain ⟨m, q, rfl, hm⟩ := ihds (n + 1) p hp
          exact ⟨m, q, rfl, Nat.le_of_succ_le hm⟩
    have hfrom : ∀ (ds : List (Tree α)) (n : Nat), (∀ d ∈ ds, d ∈ cs) →
        (postorderFrom n ds).Pairwise Before := by
      intro ds
      induction ds with
      | nil => exact fun _ _ => .nil
      | cons d ds ihds =>
        intro n hds
        obtain ⟨hd, hds⟩ := List.forall_mem_cons.mp hds
        refine List.pairwise_append.mpr ⟨?_, ihds (n + 1) hds, ?_⟩
        · exact List.pairwise_map.mpr ((ih d hd).imp fun hpq => Or.inr ⟨rfl, hpq⟩)
        · intro p hp q hq
          obtain ⟨p, -, rfl⟩ := List.mem_map.mp hp
          obtain ⟨m, q, rfl, hm⟩ := hheads ds (n + 1) q hq
          exact Or.inl hm
    rw [postorder]
    refine List.pairwise_append.mpr ⟨hfrom cs 0 fun _ hd => hd, List.pairwise_singleton .., ?_⟩
    intro p hp q hq
    obtain ⟨m, p, rfl, -⟩ := hheads cs 0 p hp
    rw [List.mem_singleton.mp hq]
    trivial

/-- Between a position and one above it come only positions below the latter. -/
theorem Before.between {p q r : List Nat} (hpr : Before p r) (hrq : Before r q)
    (hqp : q <+: p) : q <+: r := by
  induction q generalizing p r with
  | nil => exact List.nil_prefix
  | cons n q ih =>
    obtain ⟨rest, rfl⟩ := hqp
    cases r with
    | nil => exact hrq.elim
    | cons m r =>
      rcases hpr with hlt | ⟨rfl, hpr⟩
      · rcases hrq with hlt' | ⟨rfl, -⟩
        · exact absurd (Nat.lt_trans hlt hlt') (Nat.lt_irrefl _)
        · exact absurd hlt (Nat.lt_irrefl _)
      · rcases hrq with hlt | ⟨-, hrq⟩
        · exact absurd hlt (Nat.lt_irrefl _)
        · exact List.cons_prefix_cons.mpr ⟨rfl, ih hpr hrq (List.prefix_append q rest)⟩

/-- No position comes before one below it, nor before itself. -/
theorem Before.not_isPrefix {p q : List Nat} (h : Before p q) : ¬p <+: q := by
  induction p generalizing q with
  | nil => exact h.elim
  | cons m p ih =>
    rintro ⟨rest, rfl⟩
    rcases h with hlt | ⟨-, h⟩
    · exact absurd hlt (Nat.lt_irrefl _)
    · exact ih h (List.prefix_append p rest)

end Tree

namespace Accessors

open Cpp Encapsulate.Tree

def ownEvent (setting : Setting) (ancestors : List CodeNode) (t : SurveyedCode) :
    Option Event :=
  match hoistAt setting ancestors t with
  | some w => some (.hoist w.boundary w.side)
  | none =>
    if t.info.1.shape.sort = .statement then some (.leave ancestors.length t.info.1.span.stop)
    else none

def eventAt (setting : Setting) (body : SurveyedCode) (p : List Nat) : Option Event :=
  (body.at? p).bind (ownEvent setting (ancestorsAt body p))

mutual

def collect (setting : Setting) (ancestors : List CodeNode) : SurveyedCode → List Event
  | .node x parts =>
    collectAll setting (x.1 :: ancestors) parts
      ++ (ownEvent setting ancestors (.node x parts)).toList

def collectAll (setting : Setting) (ancestors : List CodeNode) : List SurveyedCode → List Event
  | [] => []
  | t :: ts => collect setting ancestors t ++ collectAll setting ancestors ts

end

/-- They are those of the positions in postorder. -/
theorem collect_eq (setting : Setting) (ancestors : List CodeNode) (t : SurveyedCode) :
    collect setting ancestors t = (postorder t).filterMap fun p =>
      (t.at? p).bind (ownEvent setting (ancestorsAt t p ++ ancestors)) := by
  induction t using Tree.inductionOn generalizing ancestors with
  | h x parts ih =>
    -- the positions below the children from the `n`-th on
    have hfrom : ∀ (ts front : List SurveyedCode), parts = front ++ ts →
        collectAll setting (x.1 :: ancestors) ts =
          (postorderFrom front.length ts).filterMap fun p =>
            ((Tree.node x parts).at? p).bind (ownEvent setting
              (ancestorsAt (.node x parts) p ++ ancestors)) := by
      intro ts
      induction ts with
      | nil => exact fun _ _ => rfl
      | cons t ts ihts =>
        intro front hparts
        have ht : parts[front.length]? = some t := by simp [hparts]
        have hmem : t ∈ parts := by simp [hparts]
        have hrest := ihts (front ++ [t]) (by simp [hparts])
        rw [List.length_append, List.length_singleton] at hrest
        rw [collectAll, postorderFrom, List.filterMap_append, hrest, ih t hmem,
          List.filterMap_map]
        congr 2
        funext p
        simp only [Function.comp_apply, at?, children_node, ht, Option.bind_some, ancestorsAt,
          above, Option.map_some, Option.getD_some, info_node, List.map_append, List.map_cons,
          List.map_nil, List.append_assoc, List.singleton_append]
    have hnone : ancestorsAt (.node x parts) [] = [] := rfl
    have hchildren := hfrom parts [] rfl
    rw [List.length_nil] at hchildren
    rw [collect, hchildren, postorder, List.filterMap_append]
    simp only [List.filterMap_cons, List.filterMap_nil, at?_nil, Option.bind_some, hnone,
      List.nil_append]
    cases ownEvent setting ancestors (.node x parts) <;> rfl

/-- The events of surveyed code, and those of the object of an access. -/
structure Collects (setting : Setting) (t : SurveyedCode) : Prop where
  acts : ∀ ancestors, eventsOf setting.file.source (acts setting ancestors t) =
    collect setting ancestors t
  base : (usage? setting t.info.2 t.code).isSome → ∀ ancestors,
    eventsOf setting.file.source (actsBase setting ancestors t) = collect setting ancestors t

section Events

variable {setting : Setting} {i : CodeNode} {env : Env} {parts : List SurveyedCode}

theorem eventsOf_actsAll (hparts : ∀ t ∈ parts, Collects setting t) (ancestors : List CodeNode) :
    eventsOf setting.file.source (actsAll setting ancestors parts) =
      collectAll setting ancestors parts := by
  induction parts with
  | nil => rfl
  | cons t ts ih =>
    obtain ⟨ht, hts⟩ := List.forall_mem_cons.mp hparts
    rw [actsAll, eventsOf_append, collectAll, ht.acts, ih hts]

theorem eventsOf_actsInits (hparts : ∀ t ∈ parts, Collects setting t) (vars : List Var)
    (ancestors : List CodeNode) :
    eventsOf setting.file.source (actsInits setting ancestors vars parts) =
      collectAll setting ancestors parts := by
  induction parts generalizing vars with
  | nil => cases vars <;> rfl
  | cons t ts ih =>
    obtain ⟨ht, hts⟩ := List.forall_mem_cons.mp hparts
    cases vars with
    | nil => rw [actsInits, eventsOf_append, collectAll, ht.acts, eventsOf_actsAll hts]
    | cons v vars =>
      rw [actsInits, eventsOf_append, collectAll, ih hts]
      congr 1
      cases hu : usage? setting t.info.2 t.code with
      | none => exact ht.acts ancestors
      | some u =>
        cases v.type.isMutableReference with
        | false => exact ht.acts ancestors
        | true => exact ht.base (by rw [hu]; rfl) ancestors

/-- A write makes an event where it is hoisted. -/
theorem ownEvent_of_write? {t : SurveyedCode} {u : Usage} {operation : Operation}
    (h : write? setting t = some (u, operation)) (hsort : t.info.1.shape.sort = .expression)
    (ancestors : List CodeNode) :
    (ownEvent setting ancestors t).toList =
      ((Site.mk t.info.1 ancestors u operation).hoisted? setting.file.source).toList.map
        fun x => .hoist x.1 x.2 := by
  have hstatement : ¬t.info.1.shape.sort = .statement := by simp [hsort]
  simp only [ownEvent, hoistAt, h, Site.hoisted?, strategyAt, Option.bind_eq_bind,
    Option.bind_some]
  cases hb : boundary setting.file.source t.info.1 ancestors with
  | none =>
    simp only [Option.bind_none, Option.map_none, hstatement, if_false]
    split <;> rfl
  | some b =>
    simp only [Option.bind_some, Option.map_some]
    cases Strategy.choose operation (some b.position) <;>
      simp only [hstatement, if_false] <;> rfl

/-- What does not write makes an event only if it is a statement. -/
theorem ownEvent_of_not_write {t : SurveyedCode} (h : write? setting t = none)
    (ancestors : List CodeNode) :
    ownEvent setting ancestors t =
      if t.info.1.shape.sort = .statement then some (.leave ancestors.length t.info.1.span.stop)
      else none := by
  simp only [ownEvent, hoistAt, h, Option.bind_eq_bind, Option.bind_none]

theorem eventsOf_assign {op : Option CompoundOp} {left right : SurveyedCode}
    (hi : i.shape = .assign op) (hleft : Collects setting left) (hright : Collects setting right)
    (hlabel : left.info.2 = env) (ancestors : List CodeNode) :
    eventsOf setting.file.source (actsAssign setting ancestors i env op [left, right]) =
      collect setting ancestors (.node (i, env) [left, right]) := by
  have hwrite : write? setting (.node (i, env) [left, right]) =
      (usage? setting env left.code).map fun u => (u, .ofAssign op) :=
    write?_assign hi env (List.map_cons ..)
  simp only [actsAssign, collect, collectAll, List.append_nil]
  cases hu : usage? setting env left.code with
  | none =>
    rw [hu] at hwrite
    simp only [actsAll, List.append_nil, eventsOf_append, hleft.acts, hright.acts,
      ownEvent_of_not_write hwrite, info_node, hi, Shape.sort, reduceCtorEq, if_false,
      Option.toList_none]
  | some u =>
    rw [hu] at hwrite
    rw [← hlabel] at hu
    simp only [eventsOf, Action.events, Option.isSome_some, if_true, List.append_nil,
      hleft.base (by rw [hu]; rfl), hright.acts,
      ownEvent_of_write? hwrite (by rw [info_node, hi]; rfl)]
    rfl

theorem eventsOf_step {op : StepOp} {fixity : Fixity} {operand : SurveyedCode}
    (hi : i.shape = .step op fixity) (hoperand : Collects setting operand)
    (hlabel : operand.info.2 = env) (ancestors : List CodeNode) :
    eventsOf setting.file.source (actsOperand setting (i :: ancestors) env
        (fun u base => [.site ⟨i, ancestors, u, .step op fixity⟩ base none []]) [operand]) =
      collect setting ancestors (.node (i, env) [operand]) := by
  have hwrite : write? setting (.node (i, env) [operand]) =
      (usage? setting env operand.code).map fun u => (u, .step op fixity) :=
    write?_step hi env (List.map_cons ..)
  simp only [actsOperand, collect, collectAll, List.append_nil]
  cases hu : usage? setting env operand.code with
  | none =>
    rw [hu] at hwrite
    simp only [actsAll, List.append_nil, hoperand.acts, ownEvent_of_not_write hwrite, info_node,
      hi, Shape.sort, reduceCtorEq, if_false, Option.toList_none]
  | some u =>
    rw [hu] at hwrite
    rw [← hlabel] at hu
    simp only [eventsOf, Action.events, Option.isSome_none, Bool.false_eq_true, if_false,
      List.append_nil, hoperand.base (by rw [hu]; rfl),
      ownEvent_of_write? hwrite (by rw [info_node, hi]; rfl)]
    rfl

theorem eventsOf_addressOf {operand : SurveyedCode} (hi : i.shape = .unary .addressOf)
    (hoperand : Collects setting operand) (hlabel : operand.info.2 = env)
    (ancestors : List CodeNode) :
    eventsOf setting.file.source (actsOperand setting (i :: ancestors) env
        (fun u base => .escape i.span.start u.target "its address is taken" :: base) [operand]) =
      collect setting ancestors (.node (i, env) [operand]) := by
  have hwrite : write? setting (.node (i, env) [operand]) = none :=
    write?_other setting (by simp [hi]) (by simp [hi]) env [operand]
  simp only [actsOperand, collect, collectAll, List.append_nil, ownEvent_of_not_write hwrite,
    info_node, hi, Shape.sort, reduceCtorEq, if_false, Option.toList_none]
  cases hu : usage? setting env operand.code with
  | none => simp only [actsAll, List.append_nil, hoperand.acts]
  | some u =>
    rw [← hlabel] at hu
    simp only [eventsOf, Action.events, List.nil_append, hoperand.base (by rw [hu]; rfl)]

/-- A node adds its own event to those of its parts. -/
theorem eventsOf_node (hparts : ∀ t ∈ parts, Collects setting t)
    (hlen : ∀ n, Code.arity? i.shape = some n → parts.length = n)
    (hlabel : i.shape.sort = .expression → (∀ params, i.shape ≠ .lambda params) →
      ∀ t ∈ parts.head?, t.info.2 = env) (ancestors : List CodeNode) :
    eventsOf setting.file.source (acts setting ancestors (.node (i, env) parts)) =
      collect setting ancestors (.node (i, env) parts) := by
  have hother : (∀ op, i.shape ≠ .assign op) → (∀ op fixity, i.shape ≠ .step op fixity) →
      collect setting ancestors (.node (i, env) parts) =
        collectAll setting (i :: ancestors) parts ++
          (if i.shape.sort = .statement then some (.leave ancestors.length i.span.stop)
            else none : Option Event).toList := by
    intro hassign hstep
    rw [collect, ownEvent_of_not_write (write?_other setting hassign hstep env parts)]
    rfl
  have hall := eventsOf_actsAll hparts (i :: ancestors)
  unfold acts
  cases hi : i.shape with
  | assign op =>
    obtain ⟨left, right, rfl⟩ := List.length_eq_two.mp (hlen 2 (by rw [hi]; rfl))
    exact eventsOf_assign hi (hparts left (by simp)) (hparts right (by simp))
      (hlabel (by rw [hi]; rfl) (by simp [hi]) left rfl) ancestors
  | step op fixity =>
    obtain ⟨operand, rfl⟩ := List.length_eq_one_iff.mp (hlen 1 (by rw [hi]; rfl))
    exact eventsOf_step hi (hparts operand (by simp))
      (hlabel (by rw [hi]; rfl) (by simp [hi]) operand rfl) ancestors
  | unary op =>
    cases op with
    | addressOf =>
      obtain ⟨operand, rfl⟩ := List.length_eq_one_iff.mp (hlen 1 (by rw [hi]; rfl))
      exact eventsOf_addressOf hi (hparts operand (by simp))
        (hlabel (by rw [hi]; rfl) (by simp [hi]) operand rfl) ancestors
    | _ =>
      rw [hother (by simp [hi]) (by simp [hi]), hi]
      simpa [Shape.sort] using hall
  | member isArrow field =>
    rw [hother (by simp [hi]) (by simp [hi]), hi]
    simp only [Shape.sort, reduceCtorEq, if_false, Option.toList_none, List.append_nil]
    cases usage? setting env (.node i (parts.map SurveyedCode.code)) with
    | none => simpa [eventsOf, Action.events] using hall
    | some u => simpa [eventsOf, Action.events, Site.hoisted?, strategyAt_read] using hall
  | declaration vars =>
    rw [hother (by simp [hi]) (by simp [hi]), hi]
    simp only [Shape.sort, eventsOf_append, eventsOf_actsInits hparts, if_true]
    rfl
  | block | exprStmt | returnStmt | throwStmt | branch | switch | caseLabel | loop kind element
  | otherStmt =>
    rw [hother (by simp [hi]) (by simp [hi]), hi]
    simp only [Shape.sort, eventsOf_append, hall, if_true]
    rfl
  | _ =>
    rw [hother (by simp [hi]) (by simp [hi]), hi]
    simpa [Shape.sort] using hall

/-- The object of an access makes the events of the access, which makes none of its own. -/
theorem eventsOf_actsBase (hparts : ∀ t ∈ parts, Collects setting t) (hwraps : Wraps i env parts)
    (hu : (usage? setting env (.node i (parts.map SurveyedCode.code))).isSome)
    (ancestors : List CodeNode) :
    eventsOf setting.file.source (actsBase setting ancestors (.node (i, env) parts)) =
      collect setting ancestors (.node (i, env) parts) := by
  have hown : i.shape.sort = .expression → (∀ op, i.shape ≠ .assign op) →
      (∀ op fixity, i.shape ≠ .step op fixity) →
      ownEvent setting ancestors (.node (i, env) parts) = none := by
    intro hsort hassign hstep
    rw [ownEvent_of_not_write (write?_other setting hassign hstep env parts), info_node, hsort]
    rfl
  by_cases hparen : i.shape = .paren
  · obtain ⟨t, rfl, hlabel⟩ := hwraps hparen
    rw [List.map_singleton, usage?_paren setting hparen, ← hlabel] at hu
    have hinner := (hparts t (List.mem_singleton_self t)).base hu (i :: ancestors)
    rw [collect, hown (by rw [hparen]; rfl) (by simp [hparen]) (by simp [hparen]), collectAll,
      collectAll, Option.toList_none, List.append_nil, List.append_nil, ← hinner]
    simp only [actsBase, hparen, actsBaseFirst]
  · by_cases hmember : ∃ isArrow field, i.shape = .member isArrow field
    · obtain ⟨isArrow, field, hi⟩ := hmember
      rw [collect, hown (by rw [hi]; rfl) (by simp [hi]) (by simp [hi]), Option.toList_none,
        List.append_nil, ← eventsOf_actsAll hparts]
      simp only [actsBase, hi]
    · have hother : ∀ isArrow field, i.shape ≠ .member isArrow field :=
        fun isArrow field h => hmember ⟨isArrow, field, h⟩
      rw [usage?_other setting hparen hother] at hu
      exact absurd hu (by simp)

end Events

/-- What a search of a body does makes the events at the positions of the body, in
postorder. -/
theorem eventsOf_survey (setting : Setting) {c : Code} (hfull : Everywhere Code.Full c)
    (env : Env) :
    eventsOf setting.file.source (acts setting [] (survey setting.symbols env c).1) =
      (postorder (survey setting.symbols env c).1).filterMap
        (eventAt setting (survey setting.symbols env c).1) := by
  have hcollects : Collects setting (survey setting.symbols env c).1 := by
    refine survey_induct (fun i env parts hparts hlen hlabel => ⟨?_, ?_⟩) c hfull env
    · exact eventsOf_node hparts hlen hlabel
    · intro hu
      rw [SurveyedCode.code_node] at hu
      refine eventsOf_actsBase hparts (fun hparen => ?_) hu
      obtain ⟨t, rfl⟩ := List.length_eq_one_iff.mp (hlen 1 (by rw [hparen]; rfl))
      exact ⟨t, rfl, hlabel (by rw [hparen]; rfl) (by simp [hparen]) t rfl⟩
  rw [hcollects.acts, collect_eq]
  simp only [List.append_nil]
  rfl

/-- What an insertion is to the statement beside which it stands. -/
inductive InsertionPart where
  | opening
  /-- The helper statement of the write at the given position. -/
  | helper (site : List Nat)
  | closing
deriving DecidableEq

/-- An insertion with the position of the statement beside which it stands. -/
structure Insertion where
  host : List Nat
  part : InsertionPart
  edit : Edit

def Insertion.site? (m : Insertion) : Option (List Nat) :=
  match m.part with
  | .helper p => some p
  | _ => none

/-- The position of the statement beside which the write at a position puts its helper
statement. -/
def host? (setting : Setting) (body : SurveyedCode) (p : List Nat) : Option (List Nat) :=
  (hoist? setting body p).map fun w => p.take w.boundary.depth

/-- Whether the node at a position is neither directly inside a block nor in the body of a
case label. -/
def isOpenAt (body : SurveyedCode) (q : List Nat) : Bool :=
  (body.at? q).any fun t => !directlyInBlock t.info.1 (ancestorsAt body q)

def indentOf (setting : Setting) (t : SurveyedCode) : String :=
  String.ofList (Text.indentBefore setting.file.source t.info.1.span.start)

/-- The edits that open and close a block around the node at a position, and the helper
statement of a write, whatever its text. -/
inductive Insertion.Made (setting : Setting) (body : SurveyedCode) : Insertion → Prop where
  | opening {q : List Nat} {t : SurveyedCode} (ht : body.at? q = some t) :
      Made setting body
        ⟨q, .opening, .insertBefore t.info.1.span.start ("\x7b\n" ++ indentOf setting t)⟩
  | helper {p : List Nat} {w : Hoist} {text : String} (hw : hoist? setting body p = some w) :
      Made setting body
        ⟨p.take w.boundary.depth, .helper p, helperEdit w.boundary w.side text⟩
  | closing {q : List Nat} {t : SurveyedCode} (ht : body.at? q = some t) :
      Made setting body
        ⟨q, .closing, .insertAfter t.info.1.span.stop ("\n" ++ indentOf setting t ++ "\x7d")⟩

/-- The insertions beside a statement, in order: the helper statements of some writes, and
around them a block if one is needed, which is closed once the statement is left. -/
def surround (isOpen isLeft : Bool) (sites : List (List Nat)) : List InsertionPart :=
  match sites with
  | [] => []
  | _ =>
    if isOpen then .opening :: sites.map .helper ++ (if isLeft then [.closing] else [])
    else sites.map .helper

def helpersAt (setting : Setting) (body : SurveyedCode) (ps : List (List Nat)) (q : List Nat) :
    List (List Nat) :=
  ps.filter fun p => host? setting body p == some q

/-- A block is open around the statement at `q` once a search has come to the positions
`ps`. -/
def Pending (setting : Setting) (body : SurveyedCode) (ps : List (List Nat)) (q : List Nat) :
    Prop :=
  q ∉ ps ∧ isOpenAt body q = true ∧ ∃ p ∈ ps, host? setting body p = some q

/-- The insertions `ms` are those of a search that has come to the positions `ps` and has the
given blocks open. -/
structure UpTo (setting : Setting) (body : SurveyedCode) (ps : List (List Nat))
    (closings : List (Nat × String)) (ms : List Insertion) : Prop where
  made : ∀ m ∈ ms, m.Made setting body
  parts : ∀ q, (ms.filter (·.host == q)).map Insertion.part =
    surround (isOpenAt body q) (decide (q ∈ ps)) (helpersAt setting body ps q)
  sites : ms.filterMap Insertion.site? = ps.filter fun p => (hoist? setting body p).isSome
  blocks : ∀ depth text, closings.lookup depth = some text ↔
    ∃ q t, body.at? q = some t ∧ q.length = depth ∧ Pending setting body ps q ∧
      text = "\n" ++ indentOf setting t ++ "\x7d"

section Balance

variable {setting : Setting} {body : SurveyedCode} {p q r : List Nat} {ps rest : List (List Nat)}
  {closings : List (Nat × String)} {ms : List Insertion}

theorem boundaryFrom_block {source : List Char} {fixed : Option FixedPlace} {isAll : Bool}
    {child : CodeNode} {ancestors : List CodeNode} {b : Boundary}
    (h : boundaryFrom source fixed isAll child ancestors = some b) :
    ∃ passed stmt outer, ancestors = passed ++ stmt :: outer ∧ stmt.shape.sort = .statement ∧
      b.depth = outer.length ∧ b.span = stmt.span ∧
      b.needsBlock = !directlyInBlock stmt outer ∧
      b.indent = String.ofList (Text.indentBefore source stmt.span.start) ∧
      ∀ vars, stmt.shape = .declaration vars → inStatementSlot stmt outer = true := by
  induction ancestors generalizing fixed isAll child with
  | nil => simp [boundaryFrom] at h
  | cons parent outer ih =>
    have step : ∀ {fixed' : Option FixedPlace} {isAll' : Bool},
        boundaryFrom source fixed' isAll' parent outer = some b →
        ∃ passed stmt above, parent :: outer = passed ++ stmt :: above ∧
          stmt.shape.sort = .statement ∧ b.depth = above.length ∧ b.span = stmt.span ∧
          b.needsBlock = !directlyInBlock stmt above ∧
          b.indent = String.ofList (Text.indentBefore source stmt.span.start) ∧
          ∀ vars, stmt.shape = .declaration vars → inStatementSlot stmt above = true := by
      intro fixed' isAll' hup
      obtain ⟨passed, stmt, above, rfl, hblock⟩ := ih hup
      exact ⟨parent :: passed, stmt, above, rfl, hblock⟩
    rw [boundaryFrom] at h
    cases hsort : parent.shape.sort with
    | expression => simp only [hsort] at h; exact step h
    | group => simp only [hsort] at h; exact step h
    | statement =>
      simp only [hsort] at h
      cases hpos : positionIn parent child isAll outer with
      | none => simp only [hpos] at h; exact step h
      | some position =>
        simp only [hpos, Option.some.injEq] at h
        subst h
        refine ⟨[], parent, outer, rfl, hsort, rfl, rfl, rfl, rfl, fun vars hshape => ?_⟩
        by_contra hslot
        simp [positionIn, hshape, hslot] at hpos

/-- The statement beside which a write puts its helper statement. A declaration is one only
where a statement may stand. -/
theorem exists_of_host? (h : host? setting body p = some q) :
    ∃ w t, hoist? setting body p = some w ∧ q = p.take w.boundary.depth ∧
      body.at? q = some t ∧ t.info.1.shape.sort = .statement ∧ q.length = w.boundary.depth ∧
      q.length < p.length ∧ w.boundary.span = t.info.1.span ∧
      w.boundary.needsBlock = isOpenAt body q ∧ w.boundary.indent = indentOf setting t ∧
      ∀ vars, t.info.1.shape = .declaration vars →
        inStatementSlot t.info.1 (ancestorsAt body q) = true := by
  obtain ⟨w, hw, rfl⟩ := Option.map_eq_some_iff.mp h
  obtain ⟨s, hs, hat⟩ := Option.bind_eq_some_iff.mp hw
  obtain ⟨u, operation, -, hb, -⟩ := exists_write_of_hoistAt hat
  obtain ⟨passed, stmt, outer, hanc, hsort, hdepth, hspan, hneeds, hindent, hslot⟩ :=
    boundaryFrom_block hb
  obtain ⟨t, ht, hnode, houter, -, hlt⟩ := exists_at?_take hs hanc
  rw [← hdepth] at ht houter hlt
  have hlen : (p.take w.boundary.depth).length = w.boundary.depth := by
    rw [List.length_take]
    omega
  refine ⟨w, t, hw, rfl, ht, by rw [hnode, hsort], hlen, by omega, by rw [hspan, hnode], ?_, ?_, ?_⟩
  · rw [isOpenAt, ht, Option.any_some, hnode, houter, hneeds]
  · rw [hindent, indentOf, hnode]
  · rw [hnode, houter]
    exact hslot

/-- At a statement nothing is hoisted, and its event is that it is left. -/
theorem eventAt_of_statement {t : SurveyedCode} (ht : body.at? q = some t)
    (hsort : t.info.1.shape.sort = .statement) :
    hoist? setting body q = none ∧
      eventAt setting body q = some (.leave q.length t.info.1.span.stop) := by
  have hwrite : write? setting t = none := by
    by_contra hne
    obtain ⟨w, hw⟩ := Option.ne_none_iff_exists'.mp hne
    rw [sort_of_write? hw] at hsort
    exact absurd hsort (by simp)
  have hlen : (ancestorsAt body q).length = q.length := by
    rw [ancestorsAt, List.length_map, length_above ht]
  constructor
  · simp only [hoist?, ht, Option.bind_some, hoistAt, hwrite, Option.bind_eq_bind,
      Option.bind_none]
  · rw [eventAt, ht, Option.bind_some, ownEvent_of_not_write hwrite, if_pos hsort, hlen]

theorem eventAt_of_hoist? {w : Hoist} (h : hoist? setting body p = some w) :
    eventAt setting body p = some (.hoist w.boundary w.side) := by
  obtain ⟨t, ht, hat⟩ := Option.bind_eq_some_iff.mp h
  rw [eventAt, ht, Option.bind_some, ownEvent, hat]

/-- What the event at a position tells about the position. -/
theorem eventAt_cases (setting : Setting) (body : SurveyedCode) (p : List Nat) :
    (∃ w, hoist? setting body p = some w ∧
        eventAt setting body p = some (.hoist w.boundary w.side)) ∨
      hoist? setting body p = none ∧ ((∃ t, body.at? p = some t ∧
          eventAt setting body p = some (.leave p.length t.info.1.span.stop)) ∨
        eventAt setting body p = none) := by
  cases hw : hoist? setting body p with
  | some w => exact Or.inl ⟨w, rfl, eventAt_of_hoist? hw⟩
  | none =>
    refine Or.inr ⟨rfl, ?_⟩
    cases ht : body.at? p with
    | none => exact Or.inr (by rw [eventAt, ht, Option.bind_none])
    | some t =>
      by_cases hsort : t.info.1.shape.sort = .statement
      · exact Or.inl ⟨t, rfl, (eventAt_of_statement ht hsort).2⟩
      · right
        rw [hoist?, ht, Option.bind_some] at hw
        rw [eventAt, ht, Option.bind_some, ownEvent, hw]
        simp only [hsort, if_false]

/-- A statement beside which a helper statement stands is no hoisted write, and is left. -/
theorem eventAt_of_host? (h : host? setting body p = some q) :
    hoist? setting body q = none ∧ eventAt setting body q ≠ none := by
  obtain ⟨w, t, -, -, ht, hsort, -⟩ := exists_of_host? h
  obtain ⟨hnone, hevent⟩ : hoist? setting body q = none ∧ _ := eventAt_of_statement ht hsort
  exact ⟨hnone, by rw [hevent]; simp⟩

/-! Positions in postorder -/

/-- What has not been come to before `r` is all that `r` lies in, and `r`. -/
theorem notMem_of_isPrefix (hps : postorder body = ps ++ r :: rest) (hqr : q <+: r) : q ∉ ps := by
  intro hq
  have hpairs := postorder_pairwise body
  rw [hps] at hpairs
  have hbefore := (List.pairwise_append.mp hpairs).2.2 q hq r List.mem_cons_self
  exact hbefore.not_isPrefix hqr

/-- A statement around which a block was closed has been left, and is not the boundary of any
later write. -/
theorem notMem_of_host? (hps : postorder body = ps ++ r :: rest)
    (hhost : host? setting body r = some q) : q ∉ ps := by
  obtain ⟨w, -, -, rfl, -⟩ := exists_of_host? hhost
  exact notMem_of_isPrefix hps (List.take_prefix ..)

/-- A statement that has not been left, but in which the search has been, is one around the
next position, or this position itself. -/
theorem prefix_of_not_left (hps : postorder body = ps ++ r :: rest) (hp : p ∈ ps)
    (hhost : host? setting body p = some q) (hq : q ∉ ps) : q <+: r := by
  obtain ⟨w, t, -, htake, ht, -⟩ := exists_of_host? hhost
  have hmem : q ∈ postorder body := mem_postorder.mpr (by rw [ht]; rfl)
  have hpairs := postorder_pairwise body
  rw [hps] at hmem hpairs
  obtain ⟨-, hlater, hacross⟩ := List.pairwise_append.mp hpairs
  rcases List.mem_append.mp hmem with hmem | hmem
  · exact absurd hmem hq
  · rcases List.mem_cons.mp hmem with rfl | hmem
    · exact List.prefix_rfl
    · refine (hacross p hp r List.mem_cons_self).between
        ((List.pairwise_cons.mp hlater).1 q hmem) ?_
      rw [htake]
      exact List.take_prefix ..

theorem Pending.isPrefix (h : Pending setting body ps q) (hps : postorder body = ps ++ r :: rest) :
    q <+: r := by
  obtain ⟨hq, -, p, hp, hhost⟩ := h
  exact prefix_of_not_left hps hp hhost hq

/-- At most one statement with a given number of ancestors has a block open around it. -/
theorem Pending.unique {q' : List Nat} (h : Pending setting body ps q)
    (hps : postorder body = ps ++ r :: rest) (hq' : q' <+: r) (hlen : q.length = q'.length) :
    q = q' :=
  (List.prefix_of_prefix_length_le (h.isPrefix hps) hq' (Nat.le_of_eq hlen)).eq_of_length hlen

/-- A block is open only around a statement. -/
theorem Pending.ne_hoisted (h : Pending setting body ps q) {w : Hoist}
    (hw : hoist? setting body r = some w) : q ≠ r := by
  obtain ⟨-, -, p, -, hhost⟩ := h
  rintro rfl
  exact absurd (hw.symm.trans (eventAt_of_host? hhost).1) (by simp)

/-! Insertions beside one statement -/

theorem helpersAt_append (ps : List (List Nat)) (r q : List Nat) :
    helpersAt setting body (ps ++ [r]) q =
      helpersAt setting body ps q ++ if host? setting body r = some q then [r] else [] := by
  rw [helpersAt, List.filter_append, helpersAt]
  congr 1
  by_cases h : host? setting body r = some q
  · rw [if_pos h, List.filter_cons_of_pos (by simp [h]), List.filter_nil]
  · rw [if_neg h, List.filter_cons_of_neg (by simp [h]), List.filter_nil]

theorem helpersAt_ne_nil : helpersAt setting body ps q ≠ [] ↔
    ∃ p ∈ ps, host? setting body p = some q := by
  constructor
  · intro hne
    obtain ⟨p, hp⟩ := List.exists_mem_of_ne_nil _ hne
    obtain ⟨hp, hhost⟩ := List.mem_filter.mp hp
    exact ⟨p, hp, by simpa using hhost⟩
  · rintro ⟨p, hp, hhost⟩
    exact List.ne_nil_of_mem (List.mem_filter.mpr ⟨hp, by simp [hhost]⟩)

/-- Where no block is needed there are only helper statements. -/
theorem surround_false (isLeft : Bool) (sites : List (List Nat)) :
    surround false isLeft sites = sites.map .helper := by
  cases sites <;> rfl

theorem surround_concat_open {sites : List (List Nat)} (hne : sites ≠ []) (r : List Nat) :
    surround true false (sites ++ [r]) = surround true false sites ++ [.helper r] := by
  cases sites with
  | nil => exact absurd rfl hne
  | cons p sites => simp [surround]

theorem surround_left {sites : List (List Nat)} (hne : sites ≠ []) :
    surround true true sites = surround true false sites ++ [.closing] := by
  cases sites with
  | nil => exact absurd rfl hne
  | cons p sites => simp [surround]

/-- A write that is hoisted is not where a statement is left. -/
theorem helpersAt_eq_nil {w : Hoist} (h : hoist? setting body q = some w) :
    helpersAt setting body ps q = [] := by
  by_contra hne
  obtain ⟨p, -, hhost⟩ := helpersAt_ne_nil.mp hne
  have hnone := (eventAt_of_host? hhost).1
  rw [h] at hnone
  exact absurd hnone (by simp)

/-- After `r`, blocks are open around the same statements other than `r`, and perhaps around
that beside which `r` puts its helper statement. -/
theorem pending_append_iff (hps : postorder body = ps ++ r :: rest) :
    Pending setting body (ps ++ [r]) q ↔
      (Pending setting body ps q ∧ q ≠ r) ∨
        (host? setting body r = some q ∧ isOpenAt body q = true) := by
  simp only [Pending, List.mem_append, List.mem_singleton, not_or]
  constructor
  · rintro ⟨⟨hq, hne⟩, hopen, p, hp | rfl, hhost⟩
    · exact Or.inl ⟨⟨hq, hopen, p, hp, hhost⟩, hne⟩
    · exact Or.inr ⟨hhost, hopen⟩
  · rintro (⟨⟨hq, hopen, p, hp, hhost⟩, hne⟩ | ⟨hhost, hopen⟩)
    · exact ⟨⟨hq, hne⟩, hopen, p, Or.inl hp, hhost⟩
    · obtain ⟨w, t, -, htake, -, -, -, hlt, -⟩ := exists_of_host? hhost
      have hqr : q <+: r := by
        rw [htake]
        exact List.take_prefix ..
      refine ⟨⟨notMem_of_isPrefix hps hqr, ?_⟩, hopen, r, Or.inr rfl, hhost⟩
      rintro rfl
      exact Nat.lt_irrefl _ hlt

theorem lookup_filter_ne (closings : List (Nat × String)) (closed depth : Nat) :
    (closings.filter (·.1 != closed)).lookup depth =
      if depth = closed then none else closings.lookup depth := by
  induction closings with
  | nil => simp
  | cons x closings ih =>
    obtain ⟨n, text⟩ := x
    by_cases hn : n = closed
    · rw [List.filter_cons_of_neg (by simp [hn]), ih, List.lookup_cons]
      by_cases hdepth : depth = closed
      · rw [if_pos hdepth, if_pos hdepth]
      · have hne : (depth == n) = false := by simp [hn, hdepth]
        rw [if_neg hdepth, if_neg hdepth, hne]
    · rw [List.filter_cons_of_pos (by simp [hn]), List.lookup_cons, List.lookup_cons, ih]
      by_cases hdepth : depth = n
      · have hne : ¬n = closed := hn
        simp [hdepth, hne]
      · have hne : (depth == n) = false := by simp [hdepth]
        rw [hne]

namespace UpTo

/-- A write whose boundary needs a block finds none open exactly if it is the first with this
boundary. So it does not matter that the number of ancestors of a statement is forgotten when its
block is closed: a set of all statements that ever had a block would answer the same. -/
theorem lookup_eq_none_iff (h : UpTo setting body ps closings ms)
    (hps : postorder body = ps ++ r :: rest) (hhost : host? setting body r = some q)
    (hopen : isOpenAt body q = true) :
    closings.lookup q.length = none ↔ ∀ p ∈ ps, host? setting body p ≠ some q := by
  have hqps := notMem_of_host? hps hhost
  obtain ⟨w, t, -, htake, ht, -⟩ := exists_of_host? hhost
  have hqr : q <+: r := by
    rw [htake]
    exact List.take_prefix ..
  constructor
  · intro hnone p hp hp'
    have hlookup := (h.blocks q.length _).mpr ⟨q, t, ht, rfl, ⟨hqps, hopen, p, hp, hp'⟩, rfl⟩
    rw [hnone] at hlookup
    exact absurd hlookup (by simp)
  · intro hfirst
    by_contra hsome
    obtain ⟨text, hlookup⟩ := Option.ne_none_iff_exists'.mp hsome
    obtain ⟨q', -, -, hlen, hpending, -⟩ := (h.blocks _ _).mp hlookup
    obtain rfl := hpending.unique hps hqr hlen
    obtain ⟨-, -, p, hp, hp'⟩ := hpending
    exact hfirst p hp hp'

/-- Beside the statements at other positions nothing changes. -/
theorem parts_other (h : UpTo setting body ps closings ms) {new : List Insertion}
    (hnew : ∀ m ∈ new, m.host ≠ q) (hr : host? setting body r ≠ some q)
    (hleft : q = r → surround (isOpenAt body q) true (helpersAt setting body ps q) =
      surround (isOpenAt body q) (decide (q ∈ ps)) (helpersAt setting body ps q)) :
    ((ms ++ new).filter (·.host == q)).map Insertion.part =
      surround (isOpenAt body q) (decide (q ∈ ps ++ [r]))
        (helpersAt setting body (ps ++ [r]) q) := by
  have hnone : new.filter (·.host == q) = [] := by
    refine List.filter_eq_nil_iff.mpr fun m hm => ?_
    simpa using hnew m hm
  rw [List.filter_append, hnone, List.append_nil, h.parts q, helpersAt_append, if_neg hr,
    List.append_nil]
  by_cases heq : q = r
  · have hmem : decide (q ∈ ps ++ [r]) = true := by simp [heq]
    rw [hmem, hleft heq]
  · simp only [List.mem_append, List.mem_singleton, heq, or_false]

/-- Nothing is inserted at `r`: it is no hoisted write, and no block is open around it. -/
theorem still (h : UpTo setting body ps closings ms) (hps : postorder body = ps ++ r :: rest)
    (hnone : hoist? setting body r = none) (hpending : ¬Pending setting body ps r) :
    UpTo setting body (ps ++ [r]) closings ms := by
  have hhost : ∀ q, host? setting body r ≠ some q := by
    intro q
    rw [host?, hnone, Option.map_none]
    simp
  refine ⟨h.made, fun q => ?_, ?_, fun depth text => ?_⟩
  · rw [← List.append_nil ms]
    refine h.parts_other (by simp) (hhost q) ?_
    rintro rfl
    cases hopen : isOpenAt body q with
    | false => rw [surround_false, surround_false]
    | true =>
      have hnil : helpersAt setting body ps q = [] := by
        by_contra hne
        exact hpending ⟨notMem_of_isPrefix hps List.prefix_rfl, hopen, helpersAt_ne_nil.mp hne⟩
      rw [hnil]
      rfl
  · rw [h.sites, List.filter_append, List.filter_cons_of_neg (by simp [hnone]), List.filter_nil,
      List.append_nil]
  · rw [h.blocks depth text]
    refine exists_congr fun q => exists_congr fun t => and_congr_right fun _ =>
      and_congr_right fun _ => and_congr_left fun _ => ?_
    rw [pending_append_iff hps]
    constructor
    · refine fun hq => Or.inl ⟨hq, ?_⟩
      rintro rfl
      exact hpending hq
    · rintro (⟨hq, -⟩ | ⟨hq, -⟩)
      · exact hq
      · exact absurd hq (hhost q)

/-- The helper statement of a hoisted write, behind what else is inserted for it. -/
theorem sites_hoist (h : UpTo setting body ps closings ms) {w : Hoist}
    (hw : hoist? setting body r = some w) {new : List Insertion}
    (hnew : new.filterMap Insertion.site? = [r]) :
    (ms ++ new).filterMap Insertion.site? =
      (ps ++ [r]).filter fun p => (hoist? setting body p).isSome := by
  rw [List.filterMap_append, h.sites, hnew, List.filter_append,
    List.filter_cons_of_pos (by simp [hw]), List.filter_nil]

/-- The first helper statement beside an open statement opens a block around it. -/
theorem opened (h : UpTo setting body ps closings ms) (hps : postorder body = ps ++ r :: rest)
    {w : Hoist} (hw : hoist? setting body r = some w) (hneeds : w.boundary.needsBlock = true)
    (hclosed : closings.lookup w.boundary.depth = none) (text : String) :
    ∃ new, new.map Insertion.edit =
        [.insertBefore w.boundary.span.start ("\x7b\n" ++ w.boundary.indent),
          helperEdit w.boundary w.side text] ∧
      UpTo setting body (ps ++ [r])
        ((w.boundary.depth, "\n" ++ w.boundary.indent ++ "\x7d") :: closings) (ms ++ new) := by
  have hhost : host? setting body r = some (r.take w.boundary.depth) := by rw [host?, hw]; rfl
  obtain ⟨w', t, hw', -, ht, hsort, hlen, hlt, hspan, hopen, hindent, -⟩ := exists_of_host? hhost
  obtain rfl : w' = w := Option.some.inj (hw'.symm.trans hw)
  generalize hq : r.take w'.boundary.depth = q at *
  have hqr : q <+: r := by
    rw [← hq]
    exact List.take_prefix ..
  have hqps := notMem_of_host? hps hhost
  rw [hneeds] at hopen
  have hnil : helpersAt setting body ps q = [] := by
    rw [← hlen] at hclosed
    have hfirst := (h.lookup_eq_none_iff hps hhost hopen.symm).mp hclosed
    by_contra hne
    obtain ⟨p, hp, hp'⟩ := helpersAt_ne_nil.mp hne
    exact hfirst p hp hp'
  refine ⟨[⟨q, .opening, .insertBefore t.info.1.span.start ("\x7b\n" ++ indentOf setting t)⟩,
    ⟨q, .helper r, helperEdit w'.boundary w'.side text⟩], by simp [hspan, hindent], ?_, ?_, ?_, ?_⟩
  · intro m hm
    rcases List.mem_append.mp hm with hm | hm
    · exact h.made m hm
    · rcases List.mem_pair.mp hm with rfl | rfl
      · exact .opening ht
      · rw [← hq]
        exact .helper hw
  · intro q'
    by_cases heq : q' = q
    · subst heq
      have hlater : q' ∉ ps ++ [r] := by
        simp only [List.mem_append, List.mem_singleton, not_or]
        refine ⟨hqps, ?_⟩
        rintro rfl
        exact Nat.lt_irrefl _ hlt
      rw [List.filter_append, List.map_append, h.parts q', helpersAt_append, if_pos hhost, hnil,
        ← hopen]
      simp [surround, hlater]
    · refine h.parts_other ?_ ?_ ?_
      · intro m hm
        rcases List.mem_pair.mp hm with rfl | rfl <;> exact fun h => heq h.symm
      · rw [hhost]
        exact fun h => heq (Option.some.inj h).symm
      · rintro rfl
        rw [helpersAt_eq_nil hw]
        rfl
  · exact h.sites_hoist hw rfl
  · intro depth text'
    rw [List.lookup_cons, ← hlen]
    by_cases hdepth : depth = q.length
    · -- the only block that is open so deep is the new one
      have honly : ∀ q', q'.length = depth → Pending setting body (ps ++ [r]) q' → q' = q := by
        intro q' hlen' hpending
        rcases (pending_append_iff hps).mp hpending with ⟨hbefore, -⟩ | ⟨hhost', -⟩
        · exact hbefore.unique hps hqr (hlen'.trans hdepth)
        · exact (Option.some.inj (hhost.symm.trans hhost')).symm
      rw [hdepth, beq_self_eq_true, hindent]
      constructor
      · rintro ⟨rfl⟩
        exact ⟨q, t, ht, rfl, (pending_append_iff hps).mpr (Or.inr ⟨hhost, hopen.symm⟩), rfl⟩
      · rintro ⟨q', t', ht', hlen', hpending, rfl⟩
        obtain rfl := honly q' (hlen'.trans hdepth.symm) hpending
        obtain rfl := Option.some.inj (ht.symm.trans ht')
        rfl
    · have hne : (depth == q.length) = false := beq_false_of_ne hdepth
      rw [hne, h.blocks depth text']
      refine exists_congr fun q' => exists_congr fun t' => and_congr_right fun _ =>
        and_congr_right fun hlen' => and_congr_left fun _ => ?_
      rw [pending_append_iff hps]
      constructor
      · refine fun hpending => Or.inl ⟨hpending, ?_⟩
        rintro rfl
        exact hpending.ne_hoisted hw rfl
      · rintro (⟨hpending, -⟩ | ⟨hhost', -⟩)
        · exact hpending
        · rw [← Option.some.inj (hhost.symm.trans hhost')] at hlen'
          exact absurd hlen'.symm hdepth

/-- Another helper statement beside a statement that needs no block, or has one already. -/
theorem beside (h : UpTo setting body ps closings ms) (hps : postorder body = ps ++ r :: rest)
    {w : Hoist} (hw : hoist? setting body r = some w)
    (hkept : w.boundary.needsBlock = false ∨ closings.lookup w.boundary.depth ≠ none)
    (text : String) :
    UpTo setting body (ps ++ [r]) closings
      (ms ++ [⟨r.take w.boundary.depth, .helper r, helperEdit w.boundary w.side text⟩]) := by
  have hhost : host? setting body r = some (r.take w.boundary.depth) := by rw [host?, hw]; rfl
  obtain ⟨w', t, hw', -, ht, -, hlen, hlt, -, hopen, -⟩ := exists_of_host? hhost
  obtain rfl : w' = w := Option.some.inj (hw'.symm.trans hw)
  have hmade : Insertion.Made setting body
      ⟨r.take w'.boundary.depth, .helper r, helperEdit w'.boundary w'.side text⟩ := .helper hw
  generalize hq : r.take w'.boundary.depth = q at *
  have hqps := notMem_of_host? hps hhost
  -- where a block is needed it is open already
  have hpending : isOpenAt body q = true → Pending setting body ps q := by
    intro hneeds
    rw [hopen, hneeds, ← hlen] at hkept
    have hsome := hkept.resolve_left (by simp)
    rw [ne_eq, h.lookup_eq_none_iff hps hhost hneeds] at hsome
    push Not at hsome
    exact ⟨hqps, hneeds, hsome⟩
  refine ⟨?_, ?_, h.sites_hoist hw rfl, ?_⟩
  · intro m hm
    rcases List.mem_append.mp hm with hm | hm
    · exact h.made m hm
    · rwa [List.mem_singleton.mp hm]
  · intro q'
    by_cases heq : q' = q
    · subst heq
      have hlater : q' ∉ ps ++ [r] := by
        simp only [List.mem_append, List.mem_singleton, not_or]
        refine ⟨hqps, ?_⟩
        rintro rfl
        exact Nat.lt_irrefl _ hlt
      rw [List.filter_append, List.map_append, h.parts q', helpersAt_append, if_pos hhost,
        decide_eq_false hqps, decide_eq_false hlater]
      cases hneeds : isOpenAt body q' with
      | false => simp [surround_false]
      | true =>
        have hne := helpersAt_ne_nil.mpr (hpending hneeds).2.2
        simp [surround_concat_open hne]
    · refine h.parts_other ?_ ?_ ?_
      · intro m hm
        rw [List.mem_singleton.mp hm]
        exact fun h => heq h.symm
      · rw [hhost]
        exact fun h => heq (Option.some.inj h).symm
      · rintro rfl
        rw [helpersAt_eq_nil hw]
        rfl
  · intro depth text'
    rw [h.blocks depth text']
    refine exists_congr fun q' => exists_congr fun t' => and_congr_right fun _ =>
      and_congr_right fun _ => and_congr_left fun _ => ?_
    rw [pending_append_iff hps]
    constructor
    · exact fun hbefore => Or.inl ⟨hbefore, hbefore.ne_hoisted hw⟩
    · rintro (⟨hbefore, -⟩ | ⟨hhost', hopen'⟩)
      · exact hbefore
      · obtain rfl := Option.some.inj (hhost.symm.trans hhost')
        exact hpending hopen'

/-- Leaving a statement closes the block around it. -/
theorem closed (h : UpTo setting body ps closings ms) (hps : postorder body = ps ++ r :: rest)
    {t : SurveyedCode} (ht : body.at? r = some t) (hnone : hoist? setting body r = none)
    {text : String} (hlookup : closings.lookup r.length = some text) :
    UpTo setting body (ps ++ [r]) (closings.filter (·.1 != r.length))
      (ms ++ [⟨r, .closing, .insertAfter t.info.1.span.stop text⟩]) := by
  obtain ⟨r', t', ht', hlen, hpending, rfl⟩ := (h.blocks _ _).mp hlookup
  obtain rfl := hpending.unique hps List.prefix_rfl hlen
  obtain rfl := Option.some.inj (ht'.symm.trans ht)
  have hhost : ∀ q, host? setting body r' ≠ some q := by
    intro q
    rw [host?, hnone, Option.map_none]
    simp
  refine ⟨?_, ?_, ?_, ?_⟩
  · intro m hm
    rcases List.mem_append.mp hm with hm | hm
    · exact h.made m hm
    · rw [List.mem_singleton.mp hm]
      exact .closing ht
  · intro q
    by_cases heq : q = r'
    · subst heq
      have hmem : decide (q ∈ ps ++ [q]) = true := by simp
      rw [List.filter_append, List.map_append, h.parts q, helpersAt_append, if_neg (hhost q),
        List.append_nil, decide_eq_false hpending.1, hmem, hpending.2.1,
        surround_left (helpersAt_ne_nil.mpr hpending.2.2)]
      simp
    · refine h.parts_other ?_ (hhost q) (fun h => absurd h heq)
      intro m hm
      rw [List.mem_singleton.mp hm]
      exact fun h => heq h.symm
  · rw [List.filterMap_append, h.sites, List.filter_append,
      List.filter_cons_of_neg (by simp [hnone])]
    rfl
  · intro depth text'
    rw [lookup_filter_ne]
    split
    · rename_i hdepth
      constructor
      · exact fun h => absurd h (by simp)
      · rintro ⟨q, -, -, hq, hafter, -⟩
        obtain ⟨hbefore, hne⟩ | ⟨hat, -⟩ := (pending_append_iff hps).mp hafter
        · exact absurd (hbefore.unique hps List.prefix_rfl (hq.trans hdepth)) hne
        · exact absurd hat (hhost q)
    · rename_i hdepth
      rw [h.blocks depth text']
      refine exists_congr fun q => exists_congr fun _ => and_congr_right fun _ =>
        and_congr_right fun hq => and_congr_left fun _ => ?_
      rw [pending_append_iff hps]
      constructor
      · refine fun hbefore => Or.inl ⟨hbefore, ?_⟩
        rintro rfl
        exact hdepth hq.symm
      · rintro (⟨hbefore, -⟩ | ⟨hat, -⟩)
        · exact hbefore
        · exact absurd hat (hhost q)

/-- A search that goes on from some position to the end of the body. -/
theorem run (hps : postorder body = ps ++ rest) (h : UpTo setting body ps closings ms)
    {made : EditQueue} {after : List (Nat × String)}
    (hmade : Inserts closings (rest.filterMap (eventAt setting body)) made after) :
    ∃ more, more.map Insertion.edit = made ∧
      UpTo setting body (postorder body) after (ms ++ more) := by
  induction rest generalizing ps closings ms made with
  | nil =>
    cases hmade
    rw [List.append_nil] at hps
    exact ⟨[], rfl, by rw [hps, List.append_nil]; exact h⟩
  | cons r rest ih =>
    have hnext : postorder body = (ps ++ [r]) ++ rest := by
      rw [hps, List.append_assoc, List.singleton_append]
    rcases eventAt_cases setting body r with
      ⟨w, hw, hevent⟩ | ⟨hnone, ⟨t, ht, hevent⟩ | hevent⟩
    · rw [List.filterMap_cons_some hevent] at hmade
      cases hmade with
      | opened hneeds hclosed hrest =>
        obtain ⟨new, hnew, hopened⟩ := h.opened hps hw hneeds hclosed _
        obtain ⟨more, hmore, hafter⟩ := ih hnext hopened hrest
        refine ⟨new ++ more, ?_, by rwa [← List.append_assoc]⟩
        rw [List.map_append, hnew, hmore]
        rfl
      | beside hkept hrest =>
        obtain ⟨more, hmore, hafter⟩ := ih hnext (h.beside hps hw hkept _) hrest
        refine ⟨_ :: more, ?_, by rwa [List.append_cons]⟩
        rw [List.map_cons, hmore]
    · rw [List.filterMap_cons_some hevent] at hmade
      cases hmade with
      | closed hopen hrest =>
        obtain ⟨more, hmore, hafter⟩ := ih hnext (h.closed hps ht hnone hopen) hrest
        refine ⟨_ :: more, ?_, by rwa [List.append_cons]⟩
        rw [List.map_cons, hmore]
      | passed hclosed hrest =>
        refine ih hnext (h.still hps hnone fun hpending => ?_) hrest
        have hlookup := (h.blocks r.length _).mpr ⟨r, t, ht, rfl, hpending, rfl⟩
        rw [hclosed] at hlookup
        exact absurd hlookup (by simp)
    · rw [List.filterMap_cons_none hevent] at hmade
      refine ih hnext (h.still hps hnone ?_) hmade
      rintro ⟨-, -, p, -, hhost⟩
      exact (eventAt_of_host? hhost).2 hevent

/-- At the start nothing is inserted. -/
theorem start (setting : Setting) (body : SurveyedCode) : UpTo setting body [] [] [] := by
  refine ⟨by simp, fun q => rfl, rfl, fun depth text => ?_⟩
  constructor
  · exact fun h => absurd h (by simp)
  · rintro ⟨q, -, -, -, ⟨-, -, p, hp, -⟩, -⟩
    exact absurd hp List.not_mem_nil

/-- At the end of a body no block is open. -/
theorem closings_eq_nil (h : UpTo setting body (postorder body) closings ms) :
    closings = [] := by
  cases closings with
  | nil => rfl
  | cons c closings =>
    obtain ⟨depth, text⟩ := c
    obtain ⟨q, t, ht, -, hpending, -⟩ := (h.blocks depth text).mp List.lookup_cons_self
    exact absurd (mem_postorder.mpr (by rw [ht]; rfl)) hpending.1

end UpTo

/-- The insertions `ms` into a body are balanced: each stands beside the statement to which
it belongs, every hoisted write has one helper statement, and the helper statements beside a
statement that needs a block have one opening before them all and one closing after them.
There are no others. -/
structure Balanced (setting : Setting) (body : SurveyedCode) (ms : List Insertion) : Prop where
  made : ∀ m ∈ ms, m.Made setting body
  parts : ∀ q, (ms.filter (·.host == q)).map Insertion.part =
    surround (isOpenAt body q) true (helpersAt setting body (postorder body) q)
  sites : ms.filterMap Insertion.site? =
    (postorder body).filter fun p => (hoist? setting body p).isSome

theorem UpTo.balanced (h : UpTo setting body (postorder body) closings ms) :
    Balanced setting body ms := by
  refine ⟨h.made, fun q => ?_, h.sites⟩
  rw [h.parts q]
  by_cases hne : helpersAt setting body (postorder body) q = []
  · rw [hne]
    rfl
  · obtain ⟨p, -, hhost⟩ := helpersAt_ne_nil.mp hne
    obtain ⟨-, t, -, -, ht, -⟩ := exists_of_host? hhost
    have hmem : q ∈ postorder body := mem_postorder.mpr (by rw [ht]; rfl)
    rw [decide_eq_true hmem]

/-- A block is opened only around a statement that needs one and has a helper statement. -/
theorem Balanced.opens (h : Balanced setting body ms) {m : Insertion} (hm : m ∈ ms)
    (hpart : m.part = .opening) :
    isOpenAt body m.host = true ∧ ∃ p, host? setting body p = some m.host := by
  have hmem : InsertionPart.opening ∈ surround (isOpenAt body m.host) true
      (helpersAt setting body (postorder body) m.host) := by
    rw [← h.parts m.host, ← hpart]
    exact List.mem_map_of_mem (List.mem_filter.mpr ⟨hm, beq_self_eq_true _⟩)
  by_cases hne : helpersAt setting body (postorder body) m.host = []
  · rw [hne] at hmem
    exact absurd hmem List.not_mem_nil
  · obtain ⟨p, -, hhost⟩ := helpersAt_ne_nil.mp hne
    refine ⟨?_, p, hhost⟩
    cases hopen : isOpenAt body m.host with
    | true => rfl
    | false =>
      rw [hopen, surround_false] at hmem
      simp at hmem

theorem Balanced.length_sites (h : Balanced setting body ms) :
    (ms.filterMap Insertion.site?).length = (hoistPositions setting body).length := by
  rw [h.sites, hoistPositions]
  exact ((postorder_perm body).filter _).length_eq

end Balance

section Scan

variable (setting : Setting)

/-- Searching bodies one after the other, each from its first position to its last. -/
theorem balanced_bodies (bodies : List SurveyedCode)
    (hevents : ∀ body ∈ bodies, eventsOf setting.file.source (acts setting [] body) =
      (postorder body).filterMap (eventAt setting body))
    {s : Scan} (hclosed : s.closings = []) :
    (execAll setting (bodies.flatMap (acts setting [])) s).closings = [] ∧
      ∃ made : List (List Insertion), List.Forall₂ (Balanced setting) bodies made ∧
        made.flatten.map Insertion.edit =
          (journalOf setting (bodies.flatMap (acts setting [])) s).insertions := by
  induction bodies generalizing s with
  | nil => exact ⟨hclosed, [], .nil, rfl⟩
  | cons body bodies ih =>
    obtain ⟨hbody, hbodies⟩ := List.forall_mem_cons.mp hevents
    have hinserts := inserts_journalOf setting (acts setting [] body) s
    rw [hclosed, hbody] at hinserts
    obtain ⟨ms, hms, hend⟩ := (UpTo.start setting body).run (List.nil_append _).symm hinserts
    rw [List.nil_append] at hend
    obtain ⟨hafter, made, hmade, hedits⟩ := ih hbodies hend.closings_eq_nil
    rw [List.flatMap_cons, execAll_append, journalOf_append, EditQueue.insertions_append]
    exact ⟨hafter, ms :: made, .cons hend.balanced hmade, by
      rw [List.flatten_cons, List.map_append, hms, hedits]⟩

theorem eventsOf_surveyFunctions (fs : List Function)
    (hfull : ∀ f ∈ fs, ∀ b, f.body = some b → Everywhere Code.Full b) :
    ∀ body ∈ surveyFunctions setting.symbols fs,
      eventsOf setting.file.source (acts setting [] body) =
        (postorder body).filterMap (eventAt setting body) := by
  intro body hbody
  obtain ⟨f, hf, hsurvey⟩ := List.mem_filterMap.mp hbody
  obtain ⟨b, hb, rfl⟩ := Option.map_eq_some_iff.mp hsurvey
  exact eventsOf_survey setting (hfull f hf b hb) _

/-- After a search of any functions no block is open, and the insertions into each body are
balanced, those included that a rendered part has taken into its text. There are as many
helper statements as the search has counted. Up to order, all these edits are those left in the
queue and those carried out in the text of a rendered part, and both keep their order. -/
theorem scan_insertions_balanced (fs : List Function)
    (hfull : ∀ f ∈ fs, ∀ b, f.body = some b → Everywhere Code.Full b) :
    let journal := journalOf setting (actsOfFunctions setting fs) {}
    let parts := renderedOf setting (actsOfFunctions setting fs) {}
    (scan setting fs).closings = [] ∧
      (scan setting fs).queue.Sublist journal ∧
      ((scan setting fs).queue ++ innerOf parts).Perm journal ∧
      (∀ r ∈ parts, r.Settled setting journal (scan setting fs).diagnostics) ∧
      ∃ made : List (List Insertion),
        List.Forall₂ (Balanced setting) (surveyFunctions setting.symbols fs) made ∧
          made.flatten.map Insertion.edit = journal.insertions ∧
          (made.flatten.filterMap Insertion.site?).length = (scan setting fs).stats.hoisted := by
  intro journal parts
  obtain ⟨env, hscan⟩ := scan_eq setting fs hfull
  obtain ⟨new, hqueue, hlisted⟩ := lasting setting (actsOfFunctions setting fs) {}
  obtain ⟨hperm, hsettled⟩ := queue_append_inner_perm setting fs hfull
  obtain ⟨hclosed, made, hmade, hedits⟩ := balanced_bodies setting
    (surveyFunctions setting.symbols fs) (eventsOf_surveyFunctions setting fs hfull) (s := {}) rfl
  refine ⟨?_, ?_, hperm, hsettled, made, hmade, hedits, ?_⟩
  · rw [hscan]
    exact hclosed
  · rw [hscan]
    simpa [hqueue] using hlisted
  · have hsites : ∀ {bodies : List SurveyedCode} {made : List (List Insertion)},
        List.Forall₂ (Balanced setting) bodies made →
        (made.flatten.filterMap Insertion.site?).length =
          (bodies.flatMap (hoistPositions setting)).length := by
      intro bodies made hmade
      induction hmade with
      | nil => rfl
      | cons hms _ ih =>
        rw [List.flatten_cons, List.filterMap_append, List.length_append, hms.length_sites, ih,
          List.flatMap_cons, List.length_append]
    rw [hoisted_scan setting fs hfull, hsites hmade]

/-- Both functions of the pair get an opening brace, a helper statement and a closing brace,
in this order, beside the branch without a block. -/
theorem pair_insertions_balanced :
    (∀ f ∈ pairFile.functions, ∀ b, f.body = some b → Everywhere Code.Full b) ∧
      (scan pairSetting pairFile.functions).closings = [] ∧
      (scan pairSetting pairFile.functions).stats.hoisted = 2 ∧
      (let as := actsOfFunctions pairSetting pairFile.functions
      ((scan pairSetting pairFile.functions).queue ++ innerOf (renderedOf pairSetting as {})).Perm
        (journalOf pairSetting as {})) ∧
      ∃ made : List (List Insertion),
        List.Forall₂ (Balanced pairSetting) (surveyFunctions pairSetting.symbols pairFile.functions)
            made ∧
          made.flatten.map Insertion.edit =
            [.insertBefore 34 "\x7b\n", .insertBefore 34 "a.setX( 2 );\n", .insertAfter 42 "\n\x7d",
              .insertBefore 60 "\x7b\n", .insertBefore 60 "a.setX( 2 );\n",
              .insertAfter 68 "\n\x7d"] := by
  have hfull : ∀ f ∈ pairFile.functions, ∀ b, f.body = some b → Everywhere Code.Full b :=
    fun f hf b hb => full_body hf hb
  obtain ⟨hclosed, -, hperm, -, made, hmade, hedits, -⟩ :=
    scan_insertions_balanced pairSetting pairFile.functions hfull
  refine ⟨hfull, hclosed, by decide +kernel, hperm, made, hmade, ?_⟩
  rw [hedits]
  decide +kernel

end Scan

end Accessors

end Encapsulate
