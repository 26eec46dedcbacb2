import Encapsulate.Proofs.Hoisting
import Mathlib.Data.List.TakeWhile

/-!
What the names in a helper statement mean. The object and the right-hand side of a hoisted
write are copied in front of its boundary statement, where fewer names are declared than at
the write itself. Declarations in force are numbered in the order in which they were made,
so a name means the same in both places unless its declaration was made on the way from the
boundary to the write. Which names these are is read off the syntax: the variables that
stand ahead of the write in a declaration, a parameter list or the header of a loop, and
those left declared by an earlier part, as an init-statement leaves them.
-/

namespace Encapsulate

namespace Cpp.Env

def names (env : Env) : List String :=
  env.scopes.flatten.map Prod.fst

/-- The number, in the order of declaration, of the declaration that a name means; zero for
a name that no open block declares. -/
def ordinal (env : Env) (name : String) : Nat :=
  (env.names.dropWhile (· != name)).length

/-- The innermost block has gained declarations of the names in `P`, and nothing else has
changed. -/
def Grows (env : Env) (P : String → Prop) (after : Env) : Prop :=
  ∃ top outer added, env.scopes = top :: outer ∧ after.scopes = (added ++ top) :: outer ∧
    ∀ name, name ∈ added.map Prod.fst ↔ P name

namespace Grows

variable {a b c : Env} {P Q : String → Prop}

theorem of_eq {env after : Env} (h : env.scopes ≠ []) (heq : after.scopes = env.scopes) :
    Grows env (fun _ => False) after := by
  obtain ⟨top, outer, hscopes⟩ := List.exists_cons_of_ne_nil h
  exact ⟨top, outer, [], hscopes, heq.trans hscopes, by simp⟩

theorem refl {env : Env} (h : env.scopes ≠ []) : Grows env (fun _ => False) env :=
  of_eq h rfl

theorem trans (hab : Grows a P b) (hbc : Grows b Q c) : Grows a (fun x => P x ∨ Q x) c := by
  obtain ⟨top, outer, added, ha, hb, hP⟩ := hab
  obtain ⟨top', outer', more, hb', hc, hQ⟩ := hbc
  obtain ⟨rfl, rfl⟩ := List.cons.inj (hb.symm.trans hb')
  refine ⟨top, outer, more ++ added, ha, by rw [hc, List.append_assoc], ?_⟩
  intro name
  rw [List.map_append, List.mem_append, hP, hQ]
  exact or_comm

theorem congr (h : Grows a P b) (hPQ : ∀ x, P x ↔ Q x) : Grows a Q b := by
  obtain ⟨top, outer, added, ha, hb, hP⟩ := h
  exact ⟨top, outer, added, ha, hb, fun name => (hP name).trans (hPQ name)⟩

theorem ne_nil (h : Grows a P b) : b.scopes ≠ [] := by
  obtain ⟨top, outer, added, -, hb, -⟩ := h
  rw [hb]
  exact List.cons_ne_nil _ _

theorem declare {env : Env} (h : env.scopes ≠ []) (symbols : Symbols) (name : String)
    (type : TypeRef) (initClass : Option String) :
    Grows env (fun x => name = x) (env.declare symbols name type initClass) := by
  obtain ⟨top, outer, hscopes⟩ := List.exists_cons_of_ne_nil h
  unfold Env.declare
  rw [hscopes]
  refine ⟨top, outer, [(name, _)], hscopes, rfl, ?_⟩
  intro x
  rw [List.map_singleton, List.mem_singleton]
  exact eq_comm

theorem declareVars {env : Env} (h : env.scopes ≠ []) (symbols : Symbols) (vs : List Var) :
    Grows env (fun x => ∃ v ∈ vs, v.name = x) (env.declareVars symbols vs) := by
  induction vs generalizing env with
  | nil => exact (refl h).congr fun x => by simp
  | cons v vs ih =>
    have hfirst := Grows.declare h symbols v.name v.type none
    refine (hfirst.trans (ih hfirst.ne_nil)).congr fun x => ?_
    simp

/-- Closing the block that has grown restores what was there before it was opened. -/
theorem scopes_popScope {env : Env} (h : Grows env.pushScope P b) :
    b.popScope.scopes = env.scopes := by
  obtain ⟨top, outer, added, ha, hb, -⟩ := h
  obtain ⟨-, rfl⟩ := List.cons.inj ha
  rw [popScope, hb]
  rfl

theorem exists_names (h : Grows a P b) :
    ∃ added, b.names = added ++ a.names ∧ ∀ x, x ∈ added ↔ P x := by
  obtain ⟨top, outer, added, ha, hb, hP⟩ := h
  refine ⟨added.map Prod.fst, ?_, hP⟩
  simp only [names, ha, hb, List.flatten_cons, List.append_assoc, List.map_append]

end Grows

/-- A name among the latest declarations means one of them, and any other name means what it
meant before them. -/
theorem ordinal_append {env before : Env} {added : List String}
    (h : env.names = added ++ before.names) (name : String) :
    (name ∈ added → before.names.length < env.ordinal name) ∧
      (name ∉ added → env.ordinal name = before.ordinal name) := by
  unfold ordinal
  rw [h, List.dropWhile_append]
  constructor
  · intro hmem
    have hkept : added.dropWhile (· != name) ≠ [] := by
      intro hnil
      simpa using List.dropWhile_eq_nil_iff.mp hnil name hmem
    rw [if_neg (by simpa using hkept), List.length_append]
    have hpos := List.length_pos_iff.mpr hkept
    omega
  · intro hmem
    have hnil : added.dropWhile (· != name) = [] := by
      refine List.dropWhile_eq_nil_iff.mpr fun x hx => ?_
      simp only [bne_iff_ne]
      rintro rfl
      exact hmem hx
    rw [hnil]
    rfl

theorem ordinal_le (env : Env) (name : String) : env.ordinal name ≤ env.names.length :=
  (List.dropWhile_suffix _).length_le

end Cpp.Env

namespace Accessors

open Cpp Encapsulate.Tree

def opensScope : Shape → Bool
  | .lambda _ | .loop .. | .block | .branch | .switch => true
  | _ => false

/-- A name that is declared in the code and still in force behind it. -/
inductive Leaves : Code → String → Prop where
  | var {i : CodeNode} {cs : List Code} {vars : List Var} {v : Var}
      (hshape : i.shape = .declaration vars) (hv : v ∈ vars) : Leaves (.node i cs) v.name
  | part {i : CodeNode} {cs : List Code} {c : Code} {name : String}
      (hshape : opensScope i.shape = false) (hc : c ∈ cs) (h : Leaves c name) :
      Leaves (.node i cs) name

def varsAhead : List Var → Nat → List Var
  | [], _ => []
  | v :: vs, n =>
    if v.isInitialized then
      match n with
      | 0 => []
      | n + 1 => v :: varsAhead vs n
    else
      v :: varsAhead vs n

def ElementAhead (element : Option Var) (cs : List Code) (n : Nat) (x : String) : Prop :=
  ∃ v, element = some v ∧ v.name = x ∧ ∃ k d, k ≤ n ∧ cs[k]? = some d ∧ d.info.role = .body

/-- The names that a construct with the children `cs` declares of its own for child `n`:
earlier variables of a declaration, earlier parameters, or the element of a loop. -/
def OwnAhead (shape : Shape) (cs : List Code) (n : Nat) (x : String) : Prop :=
  match shape with
  | .declaration vars | .lambda vars => ∃ v ∈ varsAhead vars n, v.name = x
  | .loop _ element => ElementAhead element cs n x
  | _ => False

def DeclaredFor (c : Code) (n : Nat) (x : String) : Prop :=
  OwnAhead c.shape c.children n x ∨ ∃ k d, k < n ∧ c.children[k]? = some d ∧ Leaves d x

/-- A name that was declared between the start of the code and a position in it, and is in
force there. -/
def Ahead (c : Code) (p : List Nat) (x : String) : Prop :=
  ∃ r n d, r ++ [n] <+: p ∧ c.at? r = some d ∧ DeclaredFor d n x

theorem not_ahead_nil {c : Code} {x : String} : ¬ Ahead c [] x := by
  rintro ⟨r, n, d, hprefix, -⟩
  simpa using List.prefix_nil.mp hprefix

theorem ahead_cons {c d : Code} {n : Nat} {p : List Nat} {x : String}
    (hd : c.children[n]? = some d) :
    Ahead c (n :: p) x ↔ DeclaredFor c n x ∨ Ahead d p x := by
  constructor
  · rintro ⟨r, m, e, hprefix, he, hdecl⟩
    cases r with
    | nil =>
      obtain ⟨rfl, -⟩ := List.cons_prefix_cons.mp hprefix
      rw [at?_nil] at he
      rw [Option.some.inj he]
      exact Or.inl hdecl
    | cons k r =>
      obtain ⟨rfl, hrest⟩ := List.cons_prefix_cons.mp hprefix
      rw [at?, hd, Option.bind_some] at he
      exact Or.inr ⟨r, m, e, hrest, he, hdecl⟩
  · rintro (hdecl | ⟨r, m, e, hprefix, he, hdecl⟩)
    · exact ⟨[], n, c, by simp, rfl, hdecl⟩
    · refine ⟨n :: r, m, e, ?_, ?_, hdecl⟩
      · exact List.cons_prefix_cons.mpr ⟨rfl, hprefix⟩
      · rw [at?, hd, Option.bind_some, he]

theorem varsAhead_eq (vars : List Var) (n : Nat) :
    varsAhead vars n = vars.takeWhile (!·.isInitialized) ++
      match vars.dropWhile (!·.isInitialized), n with
      | v :: later, n + 1 => v :: varsAhead later n
      | _, _ => [] := by
  induction vars with
  | nil => rfl
  | cons v vs ih =>
    by_cases hv : v.isInitialized = true
    · cases n <;> simp [varsAhead, hv]
    · simp [varsAhead, hv, ih]

def LeavesNames (symbols : Symbols) (c : Code) : Prop :=
  ∀ env : Env, env.scopes ≠ [] → env.Grows (Leaves c) (survey symbols env c).2

/-- The children `cs` were surveyed one after the other, starting from `env`: besides what the
earlier children leave, child `n` finds the names `ahead n` declared, and in the end the names
`all` are. -/
structure Surveyed (symbols : Symbols) (env : Env) (cs : List Code) (ahead : Nat → String → Prop)
    (all : String → Prop) (r : List SurveyedCode × Env) : Prop where
  child : ∀ n c, cs[n]? = some c → ∃ env', r.1[n]? = some (survey symbols env' c).1 ∧
    env.Grows (fun x => ahead n x ∨ ∃ k d, k < n ∧ cs[k]? = some d ∧ Leaves d x) env'
  after : env.Grows (fun x => all x ∨ ∃ d ∈ cs, Leaves d x) r.2

section

variable {symbols : Symbols} {env : Env}

theorem Surveyed.nil {ahead : Nat → String → Prop} {all : String → Prop} {after : Env}
    (h : env.Grows all after) : Surveyed symbols env [] ahead all ([], after) :=
  ⟨by simp, h.congr (by simp)⟩

/-- The first child is visited after the names `P` have been declared, and the names `Q` are
declared behind it. -/
theorem Surveyed.cons {c : Code} {cs : List Code} {ahead ahead' : Nat → String → Prop}
    {all all' P Q : String → Prop} {before between : Env} {rest : List SurveyedCode × Env}
    (hc : LeavesNames symbols c) (hP : env.Grows P before)
    (hQ : (survey symbols before c).2.Grows Q between)
    (hrest : Surveyed symbols between cs ahead' all' rest)
    (hfirst : ∀ x, ahead 0 x ↔ P x)
    (hlater : ∀ n x, ahead (n + 1) x ↔ P x ∨ Q x ∨ ahead' n x)
    (hall : ∀ x, all x ↔ P x ∨ Q x ∨ all' x) :
    Surveyed symbols env (c :: cs) ahead all
      ((survey symbols before c).1 :: rest.1, rest.2) := by
  have hbetween := (hP.trans (hc before hP.ne_nil)).trans hQ
  constructor
  · intro n d hd
    cases n with
    | zero =>
      rw [List.getElem?_cons_zero, Option.some.injEq] at hd
      subst hd
      refine ⟨before, rfl, hP.congr fun x => ?_⟩
      simp [hfirst]
    | succ n =>
      rw [List.getElem?_cons_succ] at hd
      obtain ⟨env', hpart, hgrows⟩ := hrest.child n d hd
      refine ⟨env', by rw [List.getElem?_cons_succ, hpart], (hbetween.trans hgrows).congr ?_⟩
      intro x
      have hearlier : (∃ k e, k < n + 1 ∧ (c :: cs)[k]? = some e ∧ Leaves e x) ↔
          Leaves c x ∨ ∃ k e, k < n ∧ cs[k]? = some e ∧ Leaves e x := by
        constructor
        · rintro ⟨k, e, hk, he, hleaves⟩
          cases k with
          | zero =>
            rw [List.getElem?_cons_zero, Option.some.injEq] at he
            exact Or.inl (he ▸ hleaves)
          | succ k => exact Or.inr ⟨k, e, by omega, he, hleaves⟩
        · rintro (hleaves | ⟨k, e, hk, he, hleaves⟩)
          · exact ⟨0, c, by omega, rfl, hleaves⟩
          · exact ⟨k + 1, e, by omega, he, hleaves⟩
      rw [hlater, hearlier]
      simp only [or_assoc, or_left_comm]
  · refine (hbetween.trans hrest.after).congr fun x => ?_
    rw [hall, List.exists_mem_cons_iff]
    simp only [or_assoc, or_left_comm]

theorem surveyed_all {cs : List Code} (hcs : ∀ c ∈ cs, LeavesNames symbols c)
    (henv : env.scopes ≠ []) :
    Surveyed symbols env cs (fun _ _ => False) (fun _ => False) (surveyAll symbols env cs) := by
  induction cs generalizing env with
  | nil => exact .nil (.refl henv)
  | cons c cs ih =>
    obtain ⟨hc, hcs⟩ := List.forall_mem_cons.mp hcs
    have hbetween := hc env henv
    exact .cons hc (.refl henv) (.refl hbetween.ne_nil) (ih hcs hbetween.ne_nil) (by simp)
      (by simp) (by simp)

/-- What a variable list declares once its first initializer is passed. -/
theorem mem_vars_iff {vars later : List Var} {v : Var}
    (h : vars.dropWhile (!·.isInitialized) = v :: later) (x : String) :
    (∃ u ∈ vars, u.name = x) ↔
      (∃ u ∈ vars.takeWhile (!·.isInitialized), u.name = x) ∨ v.name = x ∨
        ∃ u ∈ later, u.name = x := by
  have hsplit := List.takeWhile_append_dropWhile (p := (!·.isInitialized)) (l := vars)
  rw [h] at hsplit
  conv_lhs => rw [← hsplit]
  simp [or_and_right, exists_or]

/-- The names ahead of the initializers of a variable list, given its first initializer. -/
theorem varsAhead_iff {vars later : List Var} {v : Var}
    (h : vars.dropWhile (!·.isInitialized) = v :: later) (n : Nat) (x : String) :
    (∃ u ∈ varsAhead vars (n + 1), u.name = x) ↔
      (∃ u ∈ vars.takeWhile (!·.isInitialized), u.name = x) ∨ v.name = x ∨
        ∃ u ∈ varsAhead later n, u.name = x := by
  rw [varsAhead_eq, h]
  simp [or_and_right, exists_or]

theorem varsAhead_zero (vars : List Var) :
    varsAhead vars 0 = vars.takeWhile (!·.isInitialized) := by
  rw [varsAhead_eq]
  cases vars.dropWhile (!·.isInitialized) <;> simp

/-- A variable list without initializers is declared as a whole. -/
theorem varsAhead_of_quiet {vars : List Var} (h : vars.dropWhile (!·.isInitialized) = [])
    (n : Nat) : varsAhead vars n = vars ∧ vars.takeWhile (!·.isInitialized) = vars := by
  have hsplit := List.takeWhile_append_dropWhile (p := (!·.isInitialized)) (l := vars)
  rw [h, List.append_nil] at hsplit
  rw [varsAhead_eq, h, hsplit]
  simp

/-- The names of a variable list around its initializers, whatever is known about the
initializers when the variables are declared. -/
theorem Surveyed.vars {c : Code} {cs : List Code} {vars : List Var}
    {rest : List SurveyedCode × Env} (hc : LeavesNames symbols c) (henv : env.scopes ≠ [])
    (hcons : ∀ v later, vars.dropWhile (!·.isInitialized) = v :: later → ∃ known,
      Surveyed symbols ((survey symbols
          (env.declareVars symbols (vars.takeWhile (!·.isInitialized))) c).2.declare symbols
        v.name v.type known) cs (fun n x => ∃ u ∈ varsAhead later n, u.name = x)
        (fun x => ∃ u ∈ later, u.name = x) rest)
    (hnil : vars.dropWhile (!·.isInitialized) = [] →
      Surveyed symbols (survey symbols
          (env.declareVars symbols (vars.takeWhile (!·.isInitialized))) c).2 cs
        (fun _ _ => False) (fun _ => False) rest) :
    Surveyed symbols env (c :: cs) (fun n x => ∃ u ∈ varsAhead vars n, u.name = x)
      (fun x => ∃ u ∈ vars, u.name = x)
      ((survey symbols (env.declareVars symbols (vars.takeWhile (!·.isInitialized))) c).1 ::
        rest.1, rest.2) := by
  have hP := Env.Grows.declareVars henv symbols (vars.takeWhile (!·.isInitialized))
  have hafter := (hc _ hP.ne_nil).ne_nil
  cases hdrop : vars.dropWhile (!·.isInitialized) with
  | nil =>
    obtain ⟨-, htake⟩ := varsAhead_of_quiet hdrop 0
    refine .cons hc hP (.refl hafter) (hnil hdrop) ?_ ?_ ?_
    · simp [varsAhead_zero]
    · intro n x
      rw [(varsAhead_of_quiet hdrop _).1, htake]
      simp
    · simp [htake]
  | cons v later =>
    obtain ⟨known, hrest⟩ := hcons v later hdrop
    refine .cons hc hP (.declare hafter symbols v.name v.type known) hrest ?_ ?_ ?_
    · simp [varsAhead_zero]
    · exact varsAhead_iff hdrop
    · exact mem_vars_iff hdrop

theorem surveyed_params {cs : List Code} (hcs : ∀ c ∈ cs, LeavesNames symbols c)
    (henv : env.scopes ≠ []) (params : List Var) :
    Surveyed symbols env cs (fun n x => ∃ v ∈ varsAhead params n, v.name = x)
      (fun x => ∃ v ∈ params, v.name = x) (surveyParams symbols params env cs) := by
  induction cs generalizing env params with
  | nil => exact .nil (.declareVars henv symbols params)
  | cons c cs ih =>
    obtain ⟨hc, hcs⟩ := List.forall_mem_cons.mp hcs
    have hP := Env.Grows.declareVars henv symbols (params.takeWhile (!·.isInitialized))
    have hafter := (hc _ hP.ne_nil).ne_nil
    refine Surveyed.vars hc henv ?_ ?_
    · intro v later hdrop
      rw [hdrop]
      exact ⟨none, ih hcs (Env.Grows.declare hafter symbols v.name v.type none).ne_nil later⟩
    · intro hdrop
      rw [hdrop]
      exact surveyed_all hcs hafter

theorem surveyed_vars {cs : List Code} (hcs : ∀ c ∈ cs, LeavesNames symbols c)
    (henv : env.scopes ≠ []) (vars : List Var) :
    Surveyed symbols env cs (fun n x => ∃ v ∈ varsAhead vars n, v.name = x)
      (fun x => ∃ v ∈ vars, v.name = x) (surveyVars symbols vars env cs) := by
  induction cs generalizing env vars with
  | nil => exact .nil (.declareVars henv symbols vars)
  | cons c cs ih =>
    obtain ⟨hc, hcs⟩ := List.forall_mem_cons.mp hcs
    have hP := Env.Grows.declareVars henv symbols (vars.takeWhile (!·.isInitialized))
    have hafter := (hc _ hP.ne_nil).ne_nil
    refine Surveyed.vars hc henv ?_ ?_
    · intro v later hdrop
      rw [hdrop]
      exact ⟨_, ih hcs (Env.Grows.declare hafter symbols v.name v.type _).ne_nil later⟩
    · intro hdrop
      rw [hdrop]
      exact surveyed_all hcs hafter

theorem elementAhead_of_body {element : Option Var} {c : Code} (hrole : c.info.role = .body)
    (cs : List Code) (n : Nat) (x : String) :
    ElementAhead element (c :: cs) n x ↔ ∃ v, element = some v ∧ v.name = x := by
  constructor
  · rintro ⟨v, hv, hx, -⟩
    exact ⟨v, hv, hx⟩
  · rintro ⟨v, hv, hx⟩
    exact ⟨v, hv, hx, 0, c, Nat.zero_le n, rfl, hrole⟩

theorem elementAhead_zero {element : Option Var} {c : Code} (hrole : c.info.role ≠ .body)
    (cs : List Code) (x : String) : ¬ ElementAhead element (c :: cs) 0 x := by
  rintro ⟨v, -, -, k, d, hk, hd, hbody⟩
  obtain rfl := Nat.le_zero.mp hk
  rw [List.getElem?_cons_zero, Option.some.injEq] at hd
  exact hrole (hd ▸ hbody)

theorem elementAhead_succ {element : Option Var} {c : Code} (hrole : c.info.role ≠ .body)
    (cs : List Code) (n : Nat) (x : String) :
    ElementAhead element (c :: cs) (n + 1) x ↔ ElementAhead element cs n x := by
  constructor
  · rintro ⟨v, hv, hx, k, d, hk, hd, hbody⟩
    cases k with
    | zero =>
      rw [List.getElem?_cons_zero, Option.some.injEq] at hd
      exact absurd (hd ▸ hbody) hrole
    | succ k => exact ⟨v, hv, hx, k, d, by omega, hd, hbody⟩
  · rintro ⟨v, hv, hx, k, d, hk, hd, hbody⟩
    exact ⟨v, hv, hx, k + 1, d, by omega, hd, hbody⟩

theorem grows_element (symbols : Symbols) (henv : env.scopes ≠ []) (element : Option Var)
    (range : Option Code) :
    env.Grows (fun x => ∃ v, element = some v ∧ v.name = x)
      (match element with
        | some v => env.declare symbols v.name v.type (range.bind (env.elementClass symbols))
        | none => env) := by
  cases element with
  | none => exact (Env.Grows.refl henv).congr (by simp)
  | some v => exact (Env.Grows.declare henv symbols v.name v.type _).congr (by simp)

/-- The names that a loop declares stay inside it, so the names at its end do not matter. -/
theorem surveyed_loop {cs : List Code} (hcs : ∀ c ∈ cs, LeavesNames symbols c)
    (henv : env.scopes ≠ []) (element : Option Var) (range : Option Code) :
    ∃ all, Surveyed symbols env cs (ElementAhead element cs) all
      (surveyLoop symbols element range env cs) := by
  induction cs generalizing env range with
  | nil => exact ⟨_, .nil (.refl henv)⟩
  | cons c cs ih =>
    obtain ⟨hc, hcs⟩ := List.forall_mem_cons.mp hcs
    have hafter := (hc env henv).ne_nil
    -- a child of the header leaves the element undeclared
    have header : c.info.role ≠ .body → ∀ range, ∃ all,
        Surveyed symbols env (c :: cs) (ElementAhead element (c :: cs)) all
          ((survey symbols env c).1 ::
            (surveyLoop symbols element range (survey symbols env c).2 cs).1,
            (surveyLoop symbols element range (survey symbols env c).2 cs).2) := by
      intro hrole range
      obtain ⟨all, hrest⟩ := ih hcs hafter range
      refine ⟨all, .cons hc (.refl henv) (.refl hafter) hrest ?_ ?_ (by simp)⟩
      · exact fun x => iff_of_false (elementAhead_zero hrole cs x) id
      · intro n x
        rw [elementAhead_succ hrole]
        simp
    rw [surveyLoop.eq_def]
    simp only
    split
    · rename_i hrole
      have hP := grows_element symbols henv element range
      have hbody := (hc _ hP.ne_nil).ne_nil
      refine ⟨_, .cons hc hP (.refl hbody) (surveyed_all hcs hbody) ?_ ?_ fun x => Iff.rfl⟩
      · exact elementAhead_of_body hrole cs 0
      · intro n x
        rw [elementAhead_of_body hrole]
        simp
    · rename_i hrole
      exact header (by rw [hrole]; simp) _
    · rename_i hbody _
      exact header hbody _

end

def innerEnv (shape : Shape) (env : Env) : Env :=
  if opensScope shape then env.pushScope else env

theorem names_innerEnv (shape : Shape) (env : Env) : (innerEnv shape env).names = env.names := by
  unfold innerEnv
  split <;> rfl

/-- The children of a node are surveyed from its inner names on. -/
theorem surveyed_node {symbols : Symbols} {env : Env} {i : CodeNode} {cs : List Code}
    (hcs : ∀ c ∈ cs, LeavesNames symbols c) (henv : env.scopes ≠ []) :
    ∃ parts after all, (survey symbols env (.node i cs)).1 = .node (i, env) parts ∧
      Surveyed symbols (innerEnv i.shape env) cs (OwnAhead i.shape cs) all (parts, after) ∧
      (survey symbols env (.node i cs)).2 =
        (if opensScope i.shape then after.popScope else after) ∧
      (opensScope i.shape = false → ∀ x, all x ↔
        ∃ vars v, i.shape = .declaration vars ∧ v ∈ vars ∧ v.name = x) := by
  have hpush : env.pushScope.scopes ≠ [] := List.cons_ne_nil _ _
  rw [survey]
  cases hshape : i.shape with
  | lambda params =>
    exact ⟨_, _, _, rfl, surveyed_params hcs hpush params, rfl, by simp [opensScope]⟩
  | declaration vars =>
    exact ⟨_, _, _, rfl, surveyed_vars hcs henv vars, rfl, by simp [opensScope]⟩
  | loop kind element =>
    obtain ⟨all, hall⟩ := surveyed_loop hcs hpush element none
    exact ⟨_, _, all, rfl, hall, rfl, by simp [opensScope]⟩
  | block | branch | switch =>
    exact ⟨_, _, _, rfl, surveyed_all hcs hpush, rfl, by simp [opensScope]⟩
  | _ => exact ⟨_, _, _, rfl, surveyed_all hcs henv, rfl, by simp [opensScope]⟩

theorem leaves_node_iff {i : CodeNode} {cs : List Code} {x : String} :
    Leaves (.node i cs) x ↔ opensScope i.shape = false ∧
      ((∃ vars v, i.shape = .declaration vars ∧ v ∈ vars ∧ v.name = x) ∨
        ∃ c ∈ cs, Leaves c x) := by
  constructor
  · rintro (⟨hshape, hv⟩ | ⟨hshape, hc, h⟩)
    · exact ⟨by rw [hshape]; rfl, Or.inl ⟨_, _, hshape, hv, rfl⟩⟩
    · exact ⟨hshape, Or.inr ⟨_, hc, h⟩⟩
  · rintro ⟨hscope, ⟨vars, v, hshape, hv, rfl⟩ | ⟨c, hc, h⟩⟩
    · exact .var hshape hv
    · exact .part hscope hc h

/-- A survey declares behind the code exactly the names that the code leaves. -/
theorem leavesNames (symbols : Symbols) (c : Code) : LeavesNames symbols c := by
  induction c using Tree.inductionOn with
  | h i cs ih =>
    intro env henv
    obtain ⟨parts, after, all, -, hparts, hafter, hall⟩ := surveyed_node (i := i) ih henv
    rw [hafter]
    cases hscope : opensScope i.shape with
    | true =>
      have hgrows := hparts.after
      rw [innerEnv, hscope, if_pos rfl] at hgrows
      refine (Env.Grows.of_eq henv hgrows.scopes_popScope).congr fun x => ?_
      simp [leaves_node_iff, hscope]
    | false =>
      have hgrows := hparts.after
      rw [innerEnv, hscope, if_neg (by simp)] at hgrows
      refine hgrows.congr fun x => ?_
      rw [leaves_node_iff, hall hscope]
      simp [hscope]

def IsSurvey (symbols : Symbols) (t : SurveyedCode) : Prop :=
  t.info.2.scopes ≠ [] ∧ t = (survey symbols t.info.2 t.code).1

theorem isSurvey_survey {symbols : Symbols} {env : Env} (henv : env.scopes ≠ []) (c : Code) :
    IsSurvey symbols (survey symbols env c).1 := by
  obtain ⟨i, cs⟩ := c
  unfold IsSurvey
  rw [code_survey, info_survey]
  exact ⟨henv, rfl⟩

/-- From a node of a survey to one of its children, exactly the names declared for the child
are added to those in force. -/
theorem exists_names_child {symbols : Symbols} {t part : SurveyedCode} {n : Nat}
    (ht : IsSurvey symbols t) (hpart : t.children[n]? = some part) :
    IsSurvey symbols part ∧ ∃ added, part.info.2.names = added ++ t.info.2.names ∧
      ∀ x, x ∈ added ↔ DeclaredFor t.code n x := by
  obtain ⟨⟨i, env⟩, parts⟩ := t
  have henv : env.scopes ≠ [] := ht.1
  have heq := ht.2
  simp only [SurveyedCode.code_node, info_node] at heq
  obtain ⟨parts', after, all, hsurvey, hparts, -⟩ := surveyed_node (i := i)
    (fun c (_ : c ∈ parts.map SurveyedCode.code) => leavesNames symbols c) henv
  rw [hsurvey] at heq
  obtain ⟨-, rfl⟩ := Tree.node.inj heq
  have hcode : (parts.map SurveyedCode.code)[n]? = some part.code := by
    rw [List.getElem?_map, ← children_node (i, env) parts, hpart]
    rfl
  obtain ⟨env', hchild, hgrows⟩ := hparts.child n part.code hcode
  have heq : part = (survey symbols env' part.code).1 :=
    Option.some.inj (hpart.symm.trans hchild)
  have hinfo : part.info.2 = env' := by
    rw [heq]
    generalize part.code = c
    cases c
    rw [info_survey]
  obtain ⟨added, hnames, hmem⟩ := hgrows.exists_names
  refine ⟨⟨hinfo ▸ hgrows.ne_nil, hinfo ▸ heq⟩, added, ?_, ?_⟩
  · rw [hinfo, hnames, names_innerEnv]
    rfl
  · rw [SurveyedCode.code_node]
    exact hmem

theorem getElem?_code_children (t : SurveyedCode) (n : Nat) :
    t.code.children[n]? = t.children[n]?.map SurveyedCode.code := by
  cases t
  rw [SurveyedCode.code_node, children_node, children_node, List.getElem?_map]

/-- From a node of a survey to a position below it, exactly the names ahead of the position
are added to those in force. -/
theorem exists_names_at {symbols : Symbols} {t s : SurveyedCode} {p : List Nat}
    (ht : IsSurvey symbols t) (hs : t.at? p = some s) :
    IsSurvey symbols s ∧ ∃ added, s.info.2.names = added ++ t.info.2.names ∧
      ∀ x, x ∈ added ↔ Ahead t.code p x := by
  induction p generalizing t with
  | nil =>
    rw [at?_nil] at hs
    obtain rfl := Option.some.inj hs
    exact ⟨ht, [], rfl, fun x => iff_of_false (by simp) not_ahead_nil⟩
  | cons n p ih =>
    rw [at?] at hs
    obtain ⟨part, hpart, hs⟩ := Option.bind_eq_some_iff.mp hs
    obtain ⟨hchild, own, hown, hownMem⟩ := exists_names_child ht hpart
    obtain ⟨hsurvey, added, hnames, hmem⟩ := ih hchild hs
    refine ⟨hsurvey, added ++ own, by rw [hnames, hown, List.append_assoc], ?_⟩
    intro x
    have hcode := getElem?_code_children t n
    rw [hpart] at hcode
    rw [List.mem_append, hmem, hownMem, ahead_cons hcode]
    exact or_comm

/-- Whether a position in the operand of a write lies in the object of the access inside the
parentheses. -/
def inObject (t : SurveyedCode) : List Nat → Bool
  | [] => false
  | n :: r => if t.info.1.isParen then t.children[n]?.any (inObject · r) else true

/-- Whether a position in a write lies in the object or in the right-hand side, which the
helper statement repeats. -/
def isCopied (t : SurveyedCode) : List Nat → Bool
  | 0 :: r => t.children[0]?.any (inObject · r)
  | 1 :: _ =>
    match t.info.1.shape with
    | .assign _ => true
    | _ => false
  | _ => false

/-- No name that the helper statement of `site` repeats means a declaration that was made
after the start of `stmt` and before `site`. -/
def KeepsScope (stmt site : SurveyedCode) : Prop :=
  ∀ r m name, isCopied site r = true → site.at? r = some m → m.info.1.shape = .identifier name →
    ¬ (stmt.info.2.names.length < m.info.2.ordinal name ∧
      m.info.2.ordinal name ≤ site.info.2.names.length)

/-- Whether the name at `p ++ r`, repeated by the helper statement of the write at `p`, means a
declaration made after the start of the statement at `q`. -/
def captures (body : SurveyedCode) (q p r : List Nat) (name : String) : Bool :=
  match body.at? q, body.at? p, body.at? (p ++ r) with
  | some stmt, some site, some m =>
    isCopied site r && m.info.1.shape == .identifier name &&
      stmt.info.2.names.length < m.info.2.ordinal name &&
      m.info.2.ordinal name ≤ site.info.2.names.length
  | _, _, _ => false

theorem exists_not_keepsScope {body : SurveyedCode} {q p r : List Nat} {name : String}
    (h : captures body q p r name = true) :
    ∃ stmt site, body.at? q = some stmt ∧ body.at? p = some site ∧ ¬ KeepsScope stmt site := by
  unfold captures at h
  split at h
  · rename_i stmt site m hstmt hsite hm
    simp only [Bool.and_eq_true, beq_iff_eq, decide_eq_true_eq] at h
    obtain ⟨⟨⟨hcopied, hshape⟩, hlt⟩, hle⟩ := h
    rw [at?_append, hsite, Option.bind_some] at hm
    exact ⟨stmt, site, hstmt, hsite, fun hkeeps => hkeeps r m name hcopied hm hshape ⟨hlt, hle⟩⟩
  · exact absurd h (by simp)

/-- A name means a declaration made between two nodes on the way to it exactly when it was
declared there and not again further down. -/
theorem ordinal_between_iff {symbols : Symbols} {stmt site m : SurveyedCode} {p r : List Nat}
    (hstmt : IsSurvey symbols stmt) (hsite : stmt.at? p = some site) (hm : site.at? r = some m)
    (name : String) :
    (stmt.info.2.names.length < m.info.2.ordinal name ∧
        m.info.2.ordinal name ≤ site.info.2.names.length) ↔
      Ahead stmt.code p name ∧ ¬ Ahead site.code r name := by
  obtain ⟨hsurvey, between, hbetween, hmemBetween⟩ := exists_names_at hstmt hsite
  obtain ⟨-, inner, hinner, hmemInner⟩ := exists_names_at hsurvey hm
  obtain ⟨hlater, hearlier⟩ := Env.ordinal_append hinner name
  obtain ⟨hlater', hearlier'⟩ := Env.ordinal_append hbetween name
  rw [← hmemBetween, ← hmemInner]
  by_cases hin : name ∈ inner
  · have hlt := hlater hin
    simp only [hin, not_true_eq_false, and_false, iff_false, not_and, not_le]
    exact fun _ => hlt
  · rw [hearlier hin]
    have hle := Env.ordinal_le site.info.2 name
    by_cases hmid : name ∈ between
    · simp [hin, hmid, hlater' hmid, hle]
    · have hle' := Env.ordinal_le stmt.info.2 name
      rw [hearlier' hmid]
      simp only [hmid, false_and, iff_false, not_and]
      omega

theorem isSurvey_surveyFunction {symbols : Symbols} {f : Function} {body : SurveyedCode}
    (h : surveyFunction symbols f = some body) : IsSurvey symbols body := by
  obtain ⟨c, -, rfl⟩ := Option.map_eq_some_iff.mp h
  refine isSurvey_survey ?_ c
  -- the parameters are declared in the block of the function
  exact (Env.Grows.declareVars (List.cons_ne_nil _ _) symbols (Binding.vars f.params)).ne_nil

/-- The boundary of a hoisted write is a node above it. -/
theorem exists_boundary_at {setting : Setting} {body : SurveyedCode} {p : List Nat} {w : Hoist}
    (h : hoist? setting body p = some w) :
    ∃ stmt site : SurveyedCode, body.at? (p.take w.boundary.depth) = some stmt ∧
      stmt.info.1.span = w.boundary.span ∧ stmt.at? (p.drop w.boundary.depth) = some site ∧
      body.at? p = some site := by
  obtain ⟨site, passed, node, outer, hsite, hanc, -, hdepth, hspan, -⟩ := hoist?_route h
  obtain ⟨stmt, hstmt, hnode, -, hbelow, -⟩ := exists_at?_take hsite hanc
  rw [← hdepth] at hstmt hbelow
  exact ⟨stmt, site, hstmt, by rw [hnode, hspan], hbelow, hsite⟩

/-- The helper statement in front of a boundary keeps the meaning of its names exactly where
no name of the object or the right-hand side, unless it is declared again inside them, was
declared between the start of the boundary and the write: as an earlier variable of a
declaration or an earlier parameter, or in an earlier part of a header. -/
theorem hoist_keeps_scope_iff (path : String) (source : List Char) (parsed : Parsed)
    (symbols : Symbols) (targets : List Target) (f : Function)
    (hf : f ∈ (SourceFile.ofParsed path source parsed).functions) (body : SurveyedCode)
    (hbody : surveyFunction symbols f = some body) (p : List Nat) (w : Hoist)
    (h : hoist? ⟨.ofParsed path source parsed, symbols, targets⟩ body p = some w)
    (hside : w.side = .before) :
    let setting : Setting := ⟨.ofParsed path source parsed, symbols, targets⟩
    ∃ stmt site : SurveyedCode, body.at? (p.take w.boundary.depth) = some stmt ∧
      stmt.info.1.span = w.boundary.span ∧ body.at? p = some site ∧
      (∀ s : Scan, s.env = site.info.2 → ∃ front text,
        (visit setting (ancestorsAt body p) site.code s).queue =
          front ++ [.insertBefore stmt.info.1.span.start text]) ∧
      (KeepsScope stmt site ↔
        ∀ r m name, isCopied site r = true → site.at? r = some m →
          m.info.1.shape = .identifier name →
          Ahead stmt.code (p.drop w.boundary.depth) name → Ahead site.code r name) := by
  intro setting
  obtain ⟨stmt, site, hstmt, hspan, hbelow, hsite⟩ := exists_boundary_at h
  have hsurvey := isSurvey_surveyFunction hbody
  refine ⟨stmt, site, hstmt, hspan, hsite, ?_, ?_⟩
  · intro s hs
    have hat : hoistAt setting (ancestorsAt body p) site = some w := by
      rw [hoist?, hsite, Option.bind_some] at h
      exact h
    have hfull : Code.Full site.code := by
      have hparts : ∀ g ∈ [f], ∀ b, g.body = some b → Everywhere Code.Full b := by
        intro g hg b hb
        rw [List.mem_singleton.mp hg] at hb
        exact full_body hf hb
      exact (full_of_at? hparts (List.mem_filterMap.mpr ⟨f, by simp, hbody⟩) hsite).here
    obtain ⟨front, text, hqueue⟩ := queue_visit_hoist hfull hat s hs
    exact ⟨front, text, by rw [hqueue, hside, hspan, helperEdit.eq_def]⟩
  · have hstmtSurvey := (exists_names_at hsurvey hstmt).1
    unfold KeepsScope
    refine forall_congr' fun r => forall_congr' fun m => forall_congr' fun name =>
      imp_congr_right fun _ => forall_congr' fun hm => imp_congr_right fun _ => ?_
    rw [ordinal_between_iff hstmtSurvey hbelow hm]
    exact not_and_not_right

section Example

open ParseTree

/-- A function with the statement `int q=1,z=(a.x=q);`. -/
def laterDeclaratorTree : ParseTree :=
  unitTree 47 [named "declaration" 29 47
    [filling "type" "primitive_type" 29 32 [],
     filling "declarator" "init_declarator" 33 36
       [filling "declarator" "identifier" 33 34 [], filling "value" "number_literal" 35 36 []],
     filling "declarator" "init_declarator" 37 46
       [filling "declarator" "identifier" 37 38 [],
        filling "value" "parenthesized_expression" 39 46
          [named "assignment_expression" 40 45
             [accessTree "left" 40, mark (some "operator") "=" 43 44,
              filling "right" "identifier" 44 45 []]]]]]

def laterDeclaratorFile : SourceFile :=
  .ofParsed "declarator.cpp" (unitText "int q=1,z=(a.x=q);") ⟨laterDeclaratorTree, false⟩

def laterDeclaratorSetting : Setting :=
  .ofUnit ["F::x"] ⟨laterDeclaratorFile, []⟩

def laterDeclaratorBody : SurveyedCode :=
  (laterDeclaratorFile.functions.head?.bind
    (surveyFunction laterDeclaratorSetting.symbols)).getD
    (.node (⟨.body, .block, .point 0⟩, {}) [])

/-- The helper statement that sets the field to `q` stands in front of the declaration of
`q`. -/
theorem helper_uses_undeclared_variable :
    (hoist? laterDeclaratorSetting laterDeclaratorBody [0, 1, 0]).any
        (fun w => decide (w.side = .before ∧ w.boundary.depth = 1)) = true ∧
      Edit.insertBefore 29 "a.setX( q );\n" ∈
        (scan laterDeclaratorSetting laterDeclaratorFile.functions).queue ∧
      ∃ stmt site, laterDeclaratorBody.at? [0] = some stmt ∧
        laterDeclaratorBody.at? [0, 1, 0] = some site ∧ ¬ KeepsScope stmt site := by
  refine ⟨by decide +kernel, by decide +kernel, ?_⟩
  have hcaptures : captures laterDeclaratorBody [0] [0, 1, 0] [1] "q" = true := by
    decide
  exact exists_not_keepsScope hcaptures

/-- A function with the statement `if(int q=1;(a.x=q))q;`. -/
def headerVariableTree : ParseTree :=
  unitTree 50 [named "if_statement" 29 50
    [filling "condition" "condition_clause" 31 48
       [filling "initializer" "init_statement" 32 40
          [named "declaration" 32 40
             [filling "type" "primitive_type" 32 35 [],
              filling "declarator" "init_declarator" 36 39
                [filling "declarator" "identifier" 36 37 [],
                 filling "value" "number_literal" 38 39 []]]],
        filling "value" "parenthesized_expression" 40 47
          [named "assignment_expression" 41 46
             [accessTree "left" 41, mark (some "operator") "=" 44 45,
              filling "right" "identifier" 45 46 []]]],
     filling "consequence" "expression_statement" 48 50 [named "identifier" 48 49 []]]]

def headerVariableFile : SourceFile :=
  .ofParsed "header.cpp" (unitText "if(int q=1;(a.x=q))q;") ⟨headerVariableTree, false⟩

def headerVariableSetting : Setting :=
  .ofUnit ["F::x"] ⟨headerVariableFile, []⟩

def headerVariableBody : SurveyedCode :=
  (headerVariableFile.functions.head?.bind
    (surveyFunction headerVariableSetting.symbols)).getD
    (.node (⟨.body, .block, .point 0⟩, {}) [])

def headerVariableHoist : Hoist :=
  { target := ⟨"F::x", "x", { base := "int" }, "const int", "F", true, ⟨9, 15⟩⟩
    boundary := ⟨1, ⟨29, 50⟩, .inside false, false, ""⟩
    side := .before }

/-- The helper statement stands in front of the whole `if`, whose init-statement declares the
variable that it uses. -/
theorem hoist_keeps_scope_iff_header :
    (∃ f ∈ headerVariableFile.functions,
        surveyFunction headerVariableSetting.symbols f = some headerVariableBody) ∧
      hoist? headerVariableSetting headerVariableBody [0, 0, 1, 0] = some headerVariableHoist ∧
      headerVariableHoist.side = .before ∧
      ∃ stmt site : SurveyedCode, headerVariableBody.at? [0] = some stmt ∧
        headerVariableBody.at? [0, 0, 1, 0] = some site ∧
        ∃ r name, isCopied site r = true ∧ Ahead stmt.code [0, 1, 0] name ∧
          ¬ Ahead site.code r name := by
  have hsome : (headerVariableFile.functions.head?.bind
      (surveyFunction headerVariableSetting.symbols)).isSome = true := by decide
  obtain ⟨body, hbody⟩ := Option.isSome_iff_exists.mp hsome
  obtain ⟨f, hhead, hsurvey⟩ := Option.bind_eq_some_iff.mp hbody
  have hf := List.mem_of_head? hhead
  have heq : body = headerVariableBody := by rw [headerVariableBody, hbody]; rfl
  rw [heq] at hsurvey
  have hhoist : hoist? headerVariableSetting headerVariableBody [0, 0, 1, 0] =
      some headerVariableHoist := by decide
  obtain ⟨stmt, site, hstmt, -, hsite, -, hiff⟩ :=
    hoist_keeps_scope_iff _ _ _ _ _ f hf _ hsurvey _ _ hhoist rfl
  refine ⟨⟨f, hf, hsurvey⟩, hhoist, rfl, stmt, site, hstmt, hsite, ?_⟩
  have hcaptures : captures headerVariableBody [0] [0, 0, 1, 0] [1] "q" = true := by
    decide
  obtain ⟨stmt', site', hstmt', hsite', hnot⟩ := exists_not_keepsScope hcaptures
  obtain rfl := Option.some.inj (hstmt.symm.trans hstmt')
  obtain rfl := Option.some.inj (hsite.symm.trans hsite')
  rw [hiff] at hnot
  push Not at hnot
  obtain ⟨r, m, name, hcopied, -, -, hahead, hinner⟩ := hnot
  exact ⟨r, name, hcopied, hahead, hinner⟩

end Example

end Accessors

end Encapsulate
