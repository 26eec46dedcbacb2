import Encapsulate.Proofs.Origins

/-!
Usages that are reported and left. A write is refused where it is illegal, and an access
escapes where its address is taken or where it initializes a reference that could change it.
Every report of a refusal or of an escape is about such a usage, and neither the usage nor
the access inside it is rewritten.
-/

namespace Encapsulate.Accessors

open Cpp Encapsulate.Tree

section Left

variable {setting : Setting} {body : SurveyedCode} {p : List Nat}

def throughParens (t : SurveyedCode) : List Nat → Bool
  | [] => true
  | n :: q => t.info.1.isParen && n == 0 && t.children[n]?.any (throughParens · q)

/-- A usage at the first position that is reported and left, with the access to the field, or
one of the parentheses around it, at the second: a write that is refused, an access whose
address is taken, or an access that initializes a reference that could change it. -/
inductive Reported (setting : Setting) (body : SurveyedCode) : List Nat → List Nat → Prop where
  | refused {p q : List Nat} {t operand : SurveyedCode} {u : Usage} {operation : Operation}
      (ht : body.at? p = some t) (hwrite : write? setting t = some (u, operation))
      (hillegal : Illegal t.info.1 (ancestorsAt body p) operation)
      (hoperand : t.children[0]? = some operand) (hq : throughParens operand q = true) :
      Reported setting body p (p ++ 0 :: q)
  | address {p q : List Nat} {t operand : SurveyedCode} {u : Usage}
      (ht : body.at? p = some t) (hshape : t.info.1.shape = .unary .addressOf)
      (hoperand : t.children[0]? = some operand)
      (husage : usage? setting t.info.2 operand.code = some u)
      (hq : throughParens operand q = true) : Reported setting body p (p ++ 0 :: q)
  | bound {p q : List Nat} {n : Nat} {t init : SurveyedCode} {u : Usage} {vars : List Var}
      {v : Var} (ht : body.at? p = some t) (hshape : t.info.1.shape = .declaration vars)
      (hv : (vars.filter (·.isInitialized))[n]? = some v)
      (hreference : v.type.isMutableReference = true) (hinit : t.children[n]? = some init)
      (husage : usage? setting init.info.2 init.code = some u)
      (hq : throughParens init q = true) : Reported setting body (p ++ [n]) (p ++ n :: q)

/-- What is held stays held inside parentheses. -/
theorem heldFrom_throughParens {t s : SurveyedCode} {q : List Nat} (hs : t.at? q = some s)
    (h : throughParens t q = true) : heldFrom true t q = true := by
  induction q generalizing t with
  | nil => rfl
  | cons n q ih =>
    rw [at?] at hs
    obtain ⟨c, hc, hs⟩ := Option.bind_eq_some_iff.mp hs
    simp only [throughParens, hc, Option.any_some, Bool.and_eq_true] at h
    simp only [heldFrom, hc, holdsOn, h.1.1, Bool.and_self, Bool.or_true]
    exact ih hs h.2

/-- On the way through parentheses to the access of a usage nothing is written. -/
theorem write?_throughParens {t s : SurveyedCode} {q : List Nat} (hs : t.at? q = some s)
    (h : throughParens t q = true) {env : Env} {u : Usage}
    (husage : usage? setting env t.code = some u) : write? setting s = none := by
  induction q generalizing t with
  | nil =>
    rw [at?_nil] at hs
    obtain rfl := Option.some.inj hs
    obtain ⟨⟨i, env'⟩, parts⟩ := t
    rw [SurveyedCode.code_node] at husage
    have hnot : i.shape ≠ .paren → ∃ isArrow field, i.shape = .member isArrow field := by
      intro hparen
      by_contra hmember
      push Not at hmember
      rw [usage?_other setting hparen hmember] at husage
      exact absurd husage (by simp)
    refine write?_other setting ?_ ?_ env' parts
    · intro op hshape
      obtain ⟨isArrow, field, hmember⟩ := hnot (by simp [hshape])
      exact absurd (hshape.symm.trans hmember) (by simp)
    · intro op fixity hshape
      obtain ⟨isArrow, field, hmember⟩ := hnot (by simp [hshape])
      exact absurd (hshape.symm.trans hmember) (by simp)
  | cons n q ih =>
    rw [at?] at hs
    obtain ⟨c, hc, hbelow⟩ := Option.bind_eq_some_iff.mp hs
    simp only [throughParens, hc, Option.any_some, Bool.and_eq_true, beq_iff_eq] at h
    obtain ⟨⟨hparen, rfl⟩, hrest⟩ := h
    refine ih hbelow hrest ?_
    obtain ⟨⟨i, env'⟩, parts⟩ := t
    rw [SurveyedCode.code_node] at husage
    have hi : i.shape = .paren := by simpa [CodeNode.isParen] using hparen
    cases parts with
    | nil => simp at hc
    | cons first rest =>
      rw [children_node, List.getElem?_cons_zero, Option.some.injEq] at hc
      rw [List.map_cons, usage?_paren setting hi, hc] at husage
      exact husage

theorem exists_node_of_hoist {w : Hoist} (h : hoist? setting body p = some w) :
    ∃ t, body.at? p = some t := by
  obtain ⟨t, ht, -⟩ := Option.bind_eq_some_iff.mp h
  exact ⟨t, ht⟩

theorem Rewritten.exists_node {span : Span} (h : Rewritten setting body p span) :
    ∃ t, body.at? p = some t := by
  cases h with
  | read ht | whole ht => exact ⟨_, ht⟩
  | hoisted hhoist => exact exists_node_of_hoist hhoist

/-- What is held or no access, and no write of its own, is not rewritten. -/
theorem not_rewritten_of_none {t : SurveyedCode} (ht : body.at? p = some t)
    (hread : heldFrom false body p = false → read? setting t = none)
    (hwrite : write? setting t = none) (span : Span) : ¬ Rewritten setting body p span := by
  intro h
  cases h with
  | read ht' hread' hfree =>
    obtain rfl := Option.some.inj (ht.symm.trans ht')
    exact absurd ((hread hfree).symm.trans hread') (by simp)
  | whole ht' hwrite' =>
    obtain rfl := Option.some.inj (ht.symm.trans ht')
    exact absurd (hwrite.symm.trans hwrite') (by simp)
  | hoisted hhoist =>
    rw [hoist?, ht, Option.bind_some] at hhoist
    obtain ⟨u, operation, hwrite', -⟩ := exists_write_of_hoistAt hhoist
    exact absurd (hwrite.symm.trans hwrite') (by simp)

/-- What stands in a held child, inside parentheses only, is not rewritten. -/
theorem not_rewritten_below {t c : SurveyedCode} {n : Nat} {q : List Nat} {env : Env}
    {u : Usage} (ht : body.at? p = some t) (hholds : holds t.info.1 n = true)
    (hc : t.children[n]? = some c) (husage : usage? setting env c.code = some u)
    (hq : throughParens c q = true) (span : Span) :
    ¬ Rewritten setting body (p ++ n :: q) span := by
  intro h
  obtain ⟨s, hs⟩ := h.exists_node
  have hbelow := hs
  rw [at?_append, ht, Option.bind_some, at?, hc, Option.bind_some] at hbelow
  have hheld : heldFrom false body (p ++ n :: q) = true := by
    rw [heldFrom_append ht, heldFrom, hc]
    simp only [holdsOn, hholds, Bool.true_or]
    exact heldFrom_throughParens hbelow hq
  refine not_rewritten_of_none hs ?_ (write?_throughParens hbelow hq husage) span h
  intro hfree
  exact absurd (hheld.symm.trans hfree) (by simp)

/-- A write that is refused is not rewritten. -/
theorem not_rewritten_of_illegal {t : SurveyedCode} {u : Usage} {operation : Operation}
    (ht : body.at? p = some t) (hwrite : write? setting t = some (u, operation))
    (hillegal : Illegal t.info.1 (ancestorsAt body p) operation) (span : Span) :
    ¬ Rewritten setting body p span := by
  have hne := write?_ne_read hwrite
  obtain ⟨reason, hrefuse⟩ :=
    (refuse_iff_illegal setting.file.source t.info.1 (ancestorsAt body p) hne).mpr hillegal
  intro h
  cases h with
  | read ht' hread =>
    obtain rfl := Option.some.inj (ht.symm.trans ht')
    unfold read? at hread
    split at hread
    · rename_i hshape
      simp [write?, hshape] at hwrite
    · exact absurd hread (by simp)
  | whole ht' hwrite' hwhole =>
    obtain rfl := Option.some.inj (ht.symm.trans ht')
    have hplace := (inPlace_iff_whole setting.file.source _ _ hne).mpr hwhole
    exact absurd (hrefuse.symm.trans hplace) (by simp)
  | hoisted hhoist =>
    rw [hoist?, ht, Option.bind_some] at hhoist
    obtain ⟨u', operation', hwrite', hb, hchoose⟩ := exists_write_of_hoistAt hhoist
    obtain ⟨rfl, rfl⟩ := Prod.mk.inj (Option.some.inj (hwrite.symm.trans hwrite'))
    rw [strategyAt, hb, Option.map_some, hchoose] at hrefuse
    exact absurd hrefuse (by simp)

theorem exists_operand_of_write? {t : SurveyedCode} {u : Usage} {operation : Operation}
    (h : write? setting t = some (u, operation)) : ∃ operand, t.children[0]? = some operand := by
  obtain ⟨x, parts⟩ := t
  cases parts with
  | nil => simp [write?] at h
  | cons operand rest => exact ⟨operand, rfl⟩

/-- A write holds its first child, which is the usage it writes to. -/
theorem usage?_of_write? {t operand : SurveyedCode} {u : Usage} {operation : Operation}
    (hwrite : write? setting t = some (u, operation)) (hoperand : t.children[0]? = some operand) :
    holds t.info.1 0 = true ∧ usage? setting t.info.2 operand.code = some u := by
  have hcode := getElem?_code_children t 0
  rw [hoperand] at hcode
  unfold write? at hwrite
  split at hwrite
  · rename_i hshape hchildren
    obtain ⟨u', hu, hpair⟩ := Option.map_eq_some_iff.mp hwrite
    rw [hchildren] at hcode
    rw [← (Prod.mk.inj hpair).1, ← Option.some.inj hcode]
    exact ⟨by simp [holds, hshape], hu⟩
  · rename_i hshape hchildren
    obtain ⟨u', hu, hpair⟩ := Option.map_eq_some_iff.mp hwrite
    rw [hchildren] at hcode
    rw [← (Prod.mk.inj hpair).1, ← Option.some.inj hcode]
    exact ⟨by simp [holds, hshape], hu⟩
  · exact absurd hwrite (by simp)

/-- Neither a usage that is reported and left nor the access inside it is rewritten. -/
theorem not_rewritten_of_reported {m : List Nat} (h : Reported setting body p m) (span : Span) :
    ¬ Rewritten setting body p span ∧ ¬ Rewritten setting body m span := by
  cases h with
  | refused ht hwrite hillegal hoperand hq =>
    obtain ⟨hholds, husage⟩ := usage?_of_write? hwrite hoperand
    exact ⟨not_rewritten_of_illegal ht hwrite hillegal span,
      not_rewritten_below ht hholds hoperand husage hq span⟩
  | @address _ _ t operand u ht hshape hoperand husage hq =>
    have hholds : holds t.info.1 0 = true := by simp [holds, hshape]
    refine ⟨not_rewritten_of_none ht (fun _ => ?_) ?_ span,
      not_rewritten_below ht hholds hoperand husage hq span⟩
    · simp [read?, hshape]
    · simp [write?, hshape]
  | @bound _ _ n t init u vars v ht hshape hv hreference hinit husage hq =>
    have hholds : holds t.info.1 n = true := by simp [holds, hshape, hv, hreference]
    exact ⟨not_rewritten_below ht hholds hinit husage rfl span,
      not_rewritten_below ht hholds hinit husage hq span⟩

end Left

section Reports

/-- Whether a report of a search says that a usage escapes. No other report of a search
starts with the quoted name of a field. -/
def isEscape (d : Diagnostic) : Bool :=
  "'".toList.isPrefixOf d.message.toList

def isLeft (d : Diagnostic) : Bool :=
  isRefusal d || isEscape d

theorem picksLeft_isLeft : PicksLeft isLeft := by
  constructor <;> rintro d ⟨rest, h⟩ <;> rw [isLeft, isRefusal, isEscape, ← h] <;> rfl

def IsAboutLeft (setting : Setting) (body : SurveyedCode) (d : Diagnostic) : Prop :=
  ∃ (p m : List Nat) (t : SurveyedCode) (message : String), Reported setting body p m ∧
    body.at? p = some t ∧ d = .locate .warning setting.file.path setting.file.source
      t.info.1.span.start message

def LeftAre (setting : Setting) (P : Diagnostic → Prop) (as : List Action) : Prop :=
  ∀ d ∈ leftOf setting as, P d

section Parts

variable {setting : Setting} {P : Diagnostic → Prop} {ancestors : List CodeNode}
  {parts : List SurveyedCode}

theorem LeftAre.append {as bs : List Action} (has : LeftAre setting P as)
    (hbs : LeftAre setting P bs) : LeftAre setting P (as ++ bs) := by
  intro d hd
  rw [leftOf_append] at hd
  exact (List.mem_append.mp hd).elim (has d) (hbs d)

theorem LeftAre.site {x : Site} {base inRight : List Action} (right : Option Code)
    (hx : ∀ d, x.refusal? setting = some d → P d) (hbase : LeftAre setting P base)
    (hright : LeftAre setting P inRight) : LeftAre setting P [.site x base right inRight] := by
  intro d hd
  have hd : d ∈ (x.refusal? setting).toList ++ (leftOf setting base ++ leftOf setting inRight) := by
    cases right <;> simp only [leftOf, Action.left, List.append_nil, List.mem_append] at hd ⊢ <;>
      tauto
  rcases List.mem_append.mp hd with hd | hd
  · exact hx d (by simpa using hd)
  · exact (List.mem_append.mp hd).elim (hbase d) (hright d)

variable (hacts : ∀ c ∈ parts, LeftAre setting P (acts setting ancestors c))

include hacts

theorem leftAre_actsAll : LeftAre setting P (actsAll setting ancestors parts) := by
  induction parts with
  | nil => exact fun d hd => absurd hd (by simp [actsAll, leftOf])
  | cons c cs ih =>
    obtain ⟨hc, hcs⟩ := List.forall_mem_cons.mp hacts
    exact hc.append (ih hcs)

variable (hbase : ∀ c ∈ parts, LeftAre setting P (actsBase setting ancestors c))

include hbase

theorem leftAre_actsOperand {env : Env} {perform : Usage → List Action → List Action}
    (hperform : ∀ (c : SurveyedCode) (u : Usage) (base : List Action), parts[0]? = some c →
      usage? setting env c.code = some u → LeftAre setting P base →
      LeftAre setting P (perform u base)) :
    LeftAre setting P (actsOperand setting ancestors env perform parts) := by
  cases parts with
  | nil => exact fun d hd => absurd hd (by simp [actsOperand, leftOf])
  | cons c cs =>
    obtain ⟨hc, hcs⟩ := List.forall_mem_cons.mp hacts
    rw [actsOperand]
    split
    · rename_i u hu
      exact hperform c u _ rfl hu (hbase c (List.mem_cons_self ..))
    · exact hc.append (leftAre_actsAll hcs)

/-- An initializer that is bound to a reference that could change it escapes. -/
theorem leftAre_actsInits {vars : List Var}
    (hbound : ∀ (n : Nat) (v : Var) (c : SurveyedCode) (u : Usage), vars[n]? = some v →
      v.type.isMutableReference = true → parts[n]? = some c →
      usage? setting c.info.2 c.code = some u →
      P (escapeReport setting c.info.1.span.start u.target
        "it is bound to a non-const reference")) :
    LeftAre setting P (actsInits setting ancestors vars parts) := by
  induction parts generalizing vars with
  | nil => cases vars <;> exact fun d hd => absurd hd (by simp [actsInits, leftOf])
  | cons c cs ih =>
    obtain ⟨hc, hcs⟩ := List.forall_mem_cons.mp hacts
    obtain ⟨hcbase, hcsbase⟩ := List.forall_mem_cons.mp hbase
    cases vars with
    | nil => exact hc.append (leftAre_actsAll hcs)
    | cons v vars =>
      rw [actsInits]
      refine .append ?_ (ih hcs hcsbase fun n w d u hw href hd hu =>
        hbound (n + 1) w d u hw href hd hu)
      split
      · rename_i u hu
        split
        · rename_i href
          intro d hd
          rcases List.mem_cons.mp hd with rfl | hd
          · exact hbound 0 v c u rfl href rfl hu
          · exact hcbase d hd
        · exact hc
      · exact hc

end Parts

/-- A write that is refused is illegal, and reported where it starts. -/
theorem isAboutLeft_of_refusal {setting : Setting} {body t : SurveyedCode} {p : List Nat}
    {u : Usage} {operation : Operation} (ht : body.at? p = some t)
    (hwrite : write? setting t = some (u, operation)) {d : Diagnostic}
    (hd : Site.refusal? setting ⟨t.info.1, ancestorsAt body p, u, operation⟩ = some d) :
    IsAboutLeft setting body d := by
  obtain ⟨operand, hoperand⟩ := exists_operand_of_write? hwrite
  unfold Site.refusal? at hd
  split at hd
  · rename_i reason hreason
    have hillegal := (refuse_iff_illegal _ _ _ (write?_ne_read hwrite)).mp ⟨reason, hreason⟩
    exact ⟨p, p ++ [0], t, _, .refused ht hwrite hillegal hoperand rfl, ht,
      (Option.some.inj hd).symm⟩
  · exact absurd hd (by simp)

/-- What is reported for a part of a body is about usages that are left. -/
theorem isAboutLeft_of_leftOf {setting : Setting} {body : SurveyedCode} (t : SurveyedCode)
    {p : List Nat} (ht : body.at? p = some t) :
    LeftAre setting (IsAboutLeft setting body) (acts setting (ancestorsAt body p) t) ∧
      LeftAre setting (IsAboutLeft setting body) (actsBase setting (ancestorsAt body p) t) := by
  induction t using Tree.inductionOn generalizing p with
  | h x parts ih =>
    obtain ⟨i, env⟩ := x
    have hnone : LeftAre setting (IsAboutLeft setting body) [] :=
      fun d hd => absurd hd (by simp [leftOf])
    have hclose : ∀ depth stop, LeftAre setting (IsAboutLeft setting body) [.close depth stop] :=
      fun _ _ d hd => absurd hd (by simp [leftOf, Action.left])
    -- the parts stand one step below
    have hbelow : ∀ c ∈ parts,
        LeftAre setting (IsAboutLeft setting body) (acts setting (i :: ancestorsAt body p) c) ∧
        LeftAre setting (IsAboutLeft setting body)
          (actsBase setting (i :: ancestorsAt body p) c) := by
      intro c hc
      obtain ⟨n, hn⟩ := List.getElem?_of_mem hc
      have hchild := ih c hc (at?_concat ht hn)
      rwa [ancestorsAt_concat ht hn] at hchild
    have hacts := fun c hc => (hbelow c hc).1
    have hbase := fun c hc => (hbelow c hc).2
    have hall := leftAre_actsAll hacts
    constructor
    · rw [acts]
      cases hi : i.shape with
      | assign op =>
        simp only [Shape.sort]
        cases parts with
        | nil => exact hnone
        | cons left rest =>
          cases rest with
          | nil => exact hacts left (by simp)
          | cons right rest =>
            rw [actsAssign]
            split
            · rename_i u hu
              refine .site _ (fun d hd => isAboutLeft_of_refusal ht ?_ hd) (hbase left (by simp))
                (hacts right (by simp))
              rw [write?_assign hi env (List.map_cons ..), hu, Option.map_some]
            · exact ((hacts left (by simp)).append (hacts right (by simp))).append
                (leftAre_actsAll fun c hc => hacts c (by simp [hc]))
      | step op fixity =>
        refine leftAre_actsOperand hacts hbase fun c u base hc husage hu => ?_
        refine .site _ (fun d hd => isAboutLeft_of_refusal ht ?_ hd) hu hnone
        obtain ⟨rest, rfl⟩ : ∃ rest, parts = c :: rest := by
          cases parts with
          | nil => simp at hc
          | cons c' rest => exact ⟨rest, by rw [Option.some.inj hc]⟩
        rw [write?_step hi env (List.map_cons ..), husage, Option.map_some]
      | unary op =>
        cases op with
        | addressOf =>
          refine leftAre_actsOperand hacts hbase fun c u base hc husage hu d hd => ?_
          rcases List.mem_cons.mp hd with rfl | hd
          · exact ⟨p, p ++ [0], _, _, .address ht hi hc husage rfl, ht, rfl⟩
          · exact hu d hd
        | _ => exact hall
      | member isArrow field =>
        simp only [Shape.sort]
        split
        · -- an access that is read is never refused
          refine .site _ (fun d hd => ?_) hall hnone
          simp [Site.refusal?, Site.strategy, strategyAt_read] at hd
        · exact fun d hd => hall d hd
      | declaration vars =>
        refine .append (leftAre_actsInits hacts hbase ?_) (hclose _ _)
        intro n v c u hv href hc husage
        exact ⟨p ++ [n], p ++ n :: [], c, _, .bound ht hi hv href hc husage rfl,
          at?_concat ht hc, rfl⟩
      | block | exprStmt | returnStmt | throwStmt | branch | switch | caseLabel
      | loop kind element | otherStmt => exact hall.append (hclose _ _)
      | _ => exact hall
    · rw [actsBase]
      split
      · cases parts with
        | nil => exact hnone
        | cons c cs => exact hbase c (List.mem_cons_self ..)
      · exact hall
      · exact hnone

theorem exists_of_mem_leftOf_flatMap {setting : Setting} {bodies : List SurveyedCode}
    {f : SurveyedCode → List Action} {d : Diagnostic}
    (h : d ∈ leftOf setting (bodies.flatMap f)) : ∃ body ∈ bodies, d ∈ leftOf setting (f body) := by
  induction bodies with
  | nil => simp [leftOf] at h
  | cons body bodies ih =>
    rw [List.flatMap_cons, leftOf_append] at h
    rcases List.mem_append.mp h with h | h
    · exact ⟨body, List.mem_cons_self .., h⟩
    · obtain ⟨other, hother, h⟩ := ih h
      exact ⟨other, List.mem_cons_of_mem _ hother, h⟩

/-- Every report of a search that a usage is refused or escapes is about a usage that is
left. -/
theorem isAboutLeft_of_mem_diagnostics (setting : Setting) {fs : List Function}
    (hfull : ∀ f ∈ fs, ∀ b, f.body = some b → Everywhere Code.Full b) {d : Diagnostic}
    (hd : d ∈ (scan setting fs).diagnostics) (hleft : isLeft d = true) :
    ∃ body ∈ surveyFunctions setting.symbols fs, IsAboutLeft setting body d := by
  obtain ⟨env, hscan⟩ := scan_eq setting fs hfull
  rw [hscan] at hd
  have hmem : d ∈ (execAll setting (actsOfFunctions setting fs) {}).diagnostics.filter isLeft :=
    List.mem_filter.mpr ⟨hd, hleft⟩
  rw [(records_execAll picksLeft_isLeft setting (actsOfFunctions setting fs)).reports,
    List.filter_nil, List.nil_append] at hmem
  obtain ⟨body, hbody, hmem⟩ := exists_of_mem_leftOf_flatMap (List.mem_of_mem_filter hmem)
  exact ⟨body, hbody, (isAboutLeft_of_leftOf body (at?_nil body)).1 d hmem⟩

end Reports

end Encapsulate.Accessors
