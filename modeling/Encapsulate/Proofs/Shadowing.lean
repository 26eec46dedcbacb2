import Encapsulate.Proofs.Coverage
import Encapsulate.Proofs.Scoping

/-!
Which declaration a name means, in terms of the tree that a body is read from. Names are
declared by declarations, by the parameters of lambdas and by the elements of range loops, and
by nothing else. A usage whose object is a plain name is resolved through the innermost of
these. A construct that binds the name in some other way is passed over: the parameter of a
handler, a capture with an initializer, and each name of a structured binding but the first.
-/

namespace Encapsulate

namespace Cpp.Env

def declaration? (env : Env) (number : Nat) : Option (String × Option String) :=
  if number = 0 then none else env.scopes.flatten.reverse[number - 1]?

theorem lookupLocal_eq (env : Env) (name : String) :
    env.lookupLocal name = env.scopes.flatten.lookup name := by
  unfold lookupLocal
  induction env.scopes with
  | nil => rfl
  | cons scope outer ih =>
    rw [List.findSome?_cons, List.flatten_cons, List.lookup_append, ih]
    cases scope.lookup name <;> rfl

/-- Where a list of declarations has a name, it has a latest one. -/
theorem exists_latest {ds : List (String × Option String)} {name : String}
    (h : (ds.map Prod.fst).dropWhile (· != name) ≠ []) :
    ∃ later known earlier, ds = later ++ (name, known) :: earlier ∧
      ds.lookup name = some known ∧
      ((ds.map Prod.fst).dropWhile (· != name)).length = earlier.length + 1 := by
  induction ds with
  | nil => exact absurd rfl h
  | cons d ds ih =>
    obtain ⟨other, known⟩ := d
    by_cases hname : other = name
    · subst hname
      exact ⟨[], known, ds, rfl, by simp, by simp⟩
    · have hskip : (((other, known) :: ds).map Prod.fst).dropWhile (· != name) =
          (ds.map Prod.fst).dropWhile (· != name) := by
        simp [hname]
      rw [hskip] at h
      obtain ⟨later, known', earlier, hds, hlookup, hlength⟩ := ih h
      refine ⟨(other, known) :: later, known', earlier, by rw [hds]; rfl, ?_, ?_⟩
      · have hne : (name == other) = false := by simpa using Ne.symm hname
        rw [List.lookup_cons, hne]
        exact hlookup
      · rw [← hlength, hskip]

/-- A name that an open block declares has the class of the declaration that it means. -/
theorem declaration?_ordinal {env : Env} {name : String} (h : 0 < env.ordinal name) :
    ∃ known, env.declaration? (env.ordinal name) = some (name, known) ∧
      env.lookupLocal name = some known := by
  unfold ordinal names at h
  obtain ⟨later, known, earlier, hds, hlookup, hlength⟩ :=
    exists_latest (List.length_pos_iff.mp h)
  refine ⟨known, ?_, by rw [lookupLocal_eq, hlookup]⟩
  have hordinal : env.ordinal name = earlier.length + 1 := hlength
  rw [declaration?, hordinal, if_neg (Nat.succ_ne_zero _), hds]
  simp

end Cpp.Env

namespace Accessors

open Cpp Encapsulate.Tree ParseTree Code

/-! Names in the tree -/

def declarationVars (source : List Char) (t : ParseTree) : List Var :=
  let own := readField source .initializer "value" t.children
  Binding.vars
    (if hasField "declarator" t.children then
      readDeclarators source (specifierType source t.children) own t.children
    else if own.isSome then
      [⟨⟨"", specifierType source t.children, true, t.span⟩, own⟩]
    else
      [])

def lambdaVars (source : List Char) (t : ParseTree) : List Var :=
  Binding.vars (readSignature source t.children)

def closesScope : Construct → Bool
  | .lambda | .loop _ | .block | .branch | .switch => true
  | _ => false

/-- A name that is declared in the tree and still in force behind it. -/
inductive LeavesName (source : List Char) : ParseTree → String → Prop where
  | var {t : ParseTree} {v : Var} (hkind : Construct.ofKind t.kind = .declaration)
      (hv : v ∈ declarationVars source t) : LeavesName source t v.name
  | part {t c : ParseTree} {x : String} (hscope : closesScope (.ofKind t.kind) = false)
      (hc : c ∈ parts source t) (h : LeavesName source c x) : LeavesName source t x

def part? (source : List Char) (t : ParseTree) (n : Nat) : Option ParseTree :=
  (slots source t.kind t.children)[n]?.bind Slot.tree?

def slotRole : Slot → Role
  | .tree role _ | .missing role => role
  | .typeName _ => .item

/-- The names that a construct declares for its part `n`. -/
inductive Declares (source : List Char) (t : ParseTree) (n : Nat) : String → Prop where
  /-- Earlier variables of a declaration. -/
  | declarator {v : Var} (hkind : Construct.ofKind t.kind = .declaration)
      (hv : v ∈ varsAhead (declarationVars source t) n) : Declares source t n v.name
  /-- The parameters of a lambda, from their own default values on. -/
  | parameter {v : Var} (hkind : Construct.ofKind t.kind = .lambda)
      (hv : v ∈ varsAhead (lambdaVars source t) n) : Declares source t n v.name
  /-- The element of a range loop, in its body. -/
  | element {v : Var} {k : Nat} {s : Slot} (hkind : Construct.ofKind t.kind = .loop .ranged)
      (hv : loopElement source t.span t.children = some v) (hk : k ≤ n)
      (hs : (slots source t.kind t.children)[k]? = some s) (hbody : slotRole s = .body) :
      Declares source t n v.name
  /-- What an earlier part leaves declared. -/
  | earlier {k : Nat} {c : ParseTree} {x : String} (hk : k < n) (hc : part? source t k = some c)
      (h : LeavesName source c x) : Declares source t n x

section Reading

variable {source : List Char} {role : Role} {t : ParseTree} {n : Nat} {x : String}

theorem leavesName_iff : LeavesName source t x ↔
    (Construct.ofKind t.kind = .declaration ∧ ∃ v ∈ declarationVars source t, v.name = x) ∨
      closesScope (.ofKind t.kind) = false ∧ ∃ c ∈ parts source t, LeavesName source c x := by
  constructor
  · rintro (⟨hkind, hv⟩ | ⟨hscope, hc, h⟩)
    · exact Or.inl ⟨hkind, _, hv, rfl⟩
    · exact Or.inr ⟨hscope, _, hc, h⟩
  · rintro (⟨hkind, v, hv, rfl⟩ | ⟨hscope, c, hc, h⟩)
    · exact .var hkind hv
    · exact .part hscope hc h

/-- The shape of the code of a tree, as far as names are concerned. -/
inductive ScopeOf (source : List Char) (t : ParseTree) : Shape → Prop where
  | declaration (hkind : Construct.ofKind t.kind = .declaration) :
      ScopeOf source t (.declaration (declarationVars source t))
  | lambda (hkind : Construct.ofKind t.kind = .lambda) :
      ScopeOf source t (.lambda (lambdaVars source t))
  | ranged (hkind : Construct.ofKind t.kind = .loop .ranged) :
      ScopeOf source t (.loop .ranged (loopElement source t.span t.children))
  | loop (kind : LoopKind) (hkind : Construct.ofKind t.kind = .loop kind)
      (hother : kind ≠ .ranged) : ScopeOf source t (.loop kind none)
  | other {shape : Shape} (hdeclaration : Construct.ofKind t.kind ≠ .declaration)
      (hlambda : Construct.ofKind t.kind ≠ .lambda)
      (hloop : ∀ kind, Construct.ofKind t.kind ≠ .loop kind)
      (hscope : opensScope shape = closesScope (.ofKind t.kind))
      (hvars : ∀ vars, shape ≠ .declaration vars)
      (hown : ∀ cs n x, ¬ OwnAhead shape cs n x) : ScopeOf source t shape

theorem scopeOf_read (hkind : Construct.ofKind t.kind ≠ .elseClause) :
    ScopeOf source t (Code.read source role t).shape := by
  obtain ⟨i, cs⟩ := t
  change Construct.ofKind i.kind ≠ .elseClause at hkind
  rw [Code.read]
  cases hk : Construct.ofKind i.kind with
  | elseClause => exact absurd hk hkind
  | declaration => exact .declaration hk
  | lambda => exact .lambda hk
  | loop kind =>
    cases kind with
    | ranged => exact .ranged hk
    | testFirst | testLast | counted => exact .loop _ hk (by simp)
  | member | step | unary | paren | braced | subscript =>
    simp only
    split <;> refine .other ?_ ?_ ?_ ?_ ?_ ?_ <;>
      simp [ParseTree.kind, hk, Code.shape, opensScope, closesScope, OwnAhead]
  | _ =>
    refine .other ?_ ?_ ?_ ?_ ?_ ?_ <;>
      simp [ParseTree.kind, hk, Code.shape, opensScope, closesScope, OwnAhead]

theorem not_leaves_leaf {i : CodeNode} (hshape : ∀ vars, i.shape ≠ .declaration vars) :
    ¬ Leaves (.node i []) x := by
  rw [leaves_node_iff]
  rintro ⟨-, ⟨vars, v, hvars, -⟩ | ⟨c, hc, -⟩⟩
  · exact hshape vars hvars
  · exact absurd hc List.not_mem_nil

/-- Among the parts of a construct only those that are read from trees leave names. -/
theorem leaves_slot_iff {s : Slot} (hread : ∀ role c, s = .tree role c →
      (Leaves (Code.read source role c) x ↔ LeavesName source c x)) :
    Leaves (s.code source t) x ↔ ∃ c, s.tree? = some c ∧ LeavesName source c x := by
  cases s with
  | tree role c => simp [Slot.code, Slot.tree?, hread role c rfl]
  | missing role =>
    exact iff_of_false (not_leaves_leaf (by simp)) (by simp [Slot.tree?])
  | typeName c =>
    exact iff_of_false (not_leaves_leaf (by simp)) (by simp [Slot.tree?])

/-- What the parts of a construct leave declared, if it is known for each tree below. -/
theorem leaves_slots_iff (hbelow : ∀ c ∈ descendants t, ∀ role,
      (Leaves (Code.read source role c) x ↔ LeavesName source c x)) :
    (∃ c ∈ (slots source t.kind t.children).map (Slot.code source t), Leaves c x) ↔
      ∃ c ∈ parts source t, LeavesName source c x := by
  have hslot : ∀ s ∈ slots source t.kind t.children,
      (Leaves (s.code source t) x ↔ ∃ c, s.tree? = some c ∧ LeavesName source c x) := by
    intro s hs
    refine leaves_slot_iff fun role c hc => hbelow c ?_ role
    exact mem_descendants_of_mem_parts (mem_parts.mpr ⟨role, hc ▸ hs⟩)
  simp only [parts, List.mem_map, List.mem_filterMap]
  constructor
  · rintro ⟨_, ⟨s, hs, rfl⟩, h⟩
    obtain ⟨c, hc, h⟩ := (hslot s hs).mp h
    exact ⟨c, ⟨s, hs, hc⟩, h⟩
  · rintro ⟨c, ⟨s, hs, hc⟩, h⟩
    exact ⟨_, ⟨s, hs, rfl⟩, (hslot s hs).mpr ⟨c, hc, h⟩⟩

theorem parts_elseClause (hkind : Construct.ofKind t.kind = .elseClause) :
    parts source t = (t.children.find? isItem).toList := by
  obtain ⟨i, cs⟩ := t
  change Construct.ofKind i.kind = .elseClause at hkind
  simp only [parts, slots, ParseTree.kind, info_node, children_node, hkind]
  cases cs.find? isItem <;> rfl

/-- The names that code leaves declared are those that its tree does. -/
theorem leaves_read_iff : Leaves (Code.read source role t) x ↔ LeavesName source t x := by
  revert role
  induction t using induct_descendants with
  | h t ih =>
    intro role
    have hparts := leaves_slots_iff fun c hc role => ih c hc
    by_cases hkind : Construct.ofKind (ParseTree.kind t) = .elseClause
    · rw [Code.read_elseClause source role hkind, leavesName_iff, parts_elseClause hkind, hkind]
      cases hitem : t.children.find? isItem with
      | none =>
        exact iff_of_false (not_leaves_leaf (by simp)) (by simp)
      | some c =>
        have hc : Leaves (Code.read source role c) x ↔ LeavesName source c x :=
          ih c (child_mem_descendants (List.mem_of_find?_eq_some hitem))
        simp [hc, closesScope]
    · obtain ⟨shape, hread, -⟩ := read_eq_slots source role hkind
      have hscope := @scopeOf_read source role t hkind
      rw [hread] at hscope ⊢
      rw [leaves_node_iff, hparts, leavesName_iff]
      change ScopeOf source t shape at hscope
      cases hscope with
      | declaration hdecl => simp [hdecl, opensScope, closesScope]
      | lambda hlambda => simp [hlambda, opensScope, closesScope]
      | ranged hloop => simp [hloop, opensScope, closesScope]
      | loop kind hloop => simp [hloop, opensScope, closesScope]
      | other hdeclaration _ _ hscope hvars => simp [hdeclaration, hvars, hscope]

theorem role_read : (Code.read source role t).info.role = role := by
  induction t using Tree.inductionOn with
  | h i cs ih =>
    by_cases hkind : Construct.ofKind i.kind = .elseClause
    · have hread := @Code.read_elseClause source role (.node i cs) hkind
      rw [hread, children_node]
      cases hitem : cs.find? isItem with
      | none => rfl
      | some c => exact ih c (List.mem_of_find?_eq_some hitem)
    · obtain ⟨shape, hread, -⟩ := @read_eq_slots source role (.node i cs) hkind
      rw [hread]
      rfl

theorem role_slot (s : Slot) : (s.code source t).info.role = slotRole s := by
  cases s with
  | tree role c => exact role_read
  | missing role => rfl
  | typeName c => rfl

/-- What a construct declares of its own for one of its parts. -/
theorem ownAhead_read_iff {shape : Shape} (hscope : ScopeOf source t shape) :
    OwnAhead shape ((slots source t.kind t.children).map (Slot.code source t)) n x ↔
      (Construct.ofKind t.kind = .declaration ∧
          ∃ v ∈ varsAhead (declarationVars source t) n, v.name = x) ∨
        (Construct.ofKind t.kind = .lambda ∧
          ∃ v ∈ varsAhead (lambdaVars source t) n, v.name = x) ∨
        (Construct.ofKind t.kind = .loop .ranged ∧
          ∃ v, loopElement source t.span t.children = some v ∧ v.name = x ∧
            ∃ k s, k ≤ n ∧ (slots source t.kind t.children)[k]? = some s ∧
              slotRole s = .body) := by
  cases hscope with
  | declaration hkind => simp [OwnAhead, hkind]
  | lambda hkind => simp [OwnAhead, hkind]
  | ranged hkind => simp [OwnAhead, ElementAhead, hkind, role_slot]
  | loop kind hkind hother => simp [OwnAhead, ElementAhead, hkind, hother]
  | other hdeclaration hlambda hloop _ _ hown => simp [hdeclaration, hlambda, hloop, hown]

/-- The names that code has declared for a part are those that its tree declares. -/
theorem declaredFor_read_iff (hkind : Construct.ofKind t.kind ≠ .elseClause) :
    DeclaredFor (Code.read source role t) n x ↔ Declares source t n x := by
  obtain ⟨shape, hread, -⟩ := read_eq_slots source role hkind
  have hscope := @scopeOf_read source role t hkind
  rw [hread] at hscope ⊢
  change ScopeOf source t shape at hscope
  change OwnAhead shape ((slots source t.kind t.children).map (Slot.code source t)) n x ∨
    (∃ k d, k < n ∧ ((slots source t.kind t.children).map (Slot.code source t))[k]? = some d ∧
      Leaves d x) ↔ Declares source t n x
  rw [ownAhead_read_iff hscope]
  constructor
  · rintro ((⟨hdecl, v, hv, rfl⟩ | ⟨hlambda, v, hv, rfl⟩ |
      ⟨hloop, v, hv, rfl, k, s, hk, hs, hbody⟩) | ⟨k, d, hk, hd, h⟩)
    · exact .declarator hdecl hv
    · exact .parameter hlambda hv
    · exact .element hloop hv hk hs hbody
    · rw [List.getElem?_map, Option.map_eq_some_iff] at hd
      obtain ⟨s, hs, rfl⟩ := hd
      obtain ⟨c, hc, h⟩ := (leaves_slot_iff fun role c _ => leaves_read_iff).mp h
      exact .earlier hk (by rw [part?, hs]; exact hc) h
  · intro h
    cases h with
    | declarator hdecl hv => exact Or.inl (Or.inl ⟨hdecl, _, hv, rfl⟩)
    | parameter hlambda hv => exact Or.inl (Or.inr (Or.inl ⟨hlambda, _, hv, rfl⟩))
    | element hloop hv hk hs hbody =>
      exact Or.inl (Or.inr (Or.inr ⟨hloop, _, hv, rfl, _, _, hk, hs, hbody⟩))
    | @earlier k c _ hk hc h =>
      obtain ⟨s, hs, hc⟩ := Option.bind_eq_some_iff.mp hc
      refine Or.inr ⟨k, s.code source t, hk, by rw [List.getElem?_map, hs]; rfl, ?_⟩
      exact (leaves_slot_iff fun role c _ => leaves_read_iff).mpr ⟨c, hc, h⟩

end Reading

/-! Positions in the tree -/

mutual

def statement? : ParseTree → Option ParseTree
  | .node i cs =>
    if Construct.ofKind i.kind = .elseClause then firstStatement? cs else some (.node i cs)

def firstStatement? : List ParseTree → Option ParseTree
  | [] => none
  | c :: cs => if isItem c then statement? c else firstStatement? cs

end

def treeAt? (source : List Char) (t : ParseTree) : List Nat → Option ParseTree
  | [] => statement? t
  | n :: p => (statement? t).bind fun s => (part? source s n).bind fun c => treeAt? source c p

section Positions

variable {source : List Char} {role : Role} {t v : ParseTree} {p : List Nat} {x : String}

theorem firstStatement?_eq (cs : List ParseTree) :
    firstStatement? cs = (cs.find? isItem).bind statement? := by
  induction cs with
  | nil => rfl
  | cons c cs ih =>
    rw [firstStatement?, ih]
    by_cases hc : isItem c <;> simp [hc]

theorem statement?_cases (source : List Char) (role : Role) (t : ParseTree) :
    (∃ s, statement? t = some s ∧ Construct.ofKind s.kind ≠ .elseClause ∧
        Code.read source role t = Code.read source role s) ∨
      statement? t = none ∧ (Code.read source role t).children = [] := by
  induction t using Tree.inductionOn with
  | h i cs ih =>
    by_cases hkind : Construct.ofKind i.kind = .elseClause
    · have hread := @Code.read_elseClause source role (.node i cs) hkind
      rw [hread, statement?, if_pos hkind, firstStatement?_eq, children_node]
      cases hitem : cs.find? isItem with
      | none => exact Or.inr ⟨rfl, rfl⟩
      | some c => exact ih c (List.mem_of_find?_eq_some hitem)
    · rw [statement?, if_neg hkind]
      exact Or.inl ⟨_, rfl, hkind, rfl⟩

theorem read_of_statement? {s : ParseTree} (h : statement? t = some s) :
    Construct.ofKind s.kind ≠ .elseClause ∧
      Code.read source role t = Code.read source role s := by
  rcases statement?_cases source role t with ⟨s', hs', hkind, hread⟩ | ⟨hnone, -⟩
  · obtain rfl := Option.some.inj (h.symm.trans hs')
    exact ⟨hkind, hread⟩
  · rw [h] at hnone
    exact absurd hnone (by simp)

/-- The code at the position of a tree is read from it. -/
theorem read_of_treeAt? (h : treeAt? source t p = some v) (role : Role) :
    Construct.ofKind v.kind ≠ .elseClause ∧
      ∃ role', (Code.read source role t).at? p = some (Code.read source role' v) := by
  induction p generalizing t role with
  | nil =>
    obtain ⟨hkind, hread⟩ := @read_of_statement? source role t v h
    exact ⟨hkind, role, by rw [at?_nil, hread]⟩
  | cons n p ih =>
    rw [treeAt?] at h
    obtain ⟨s, hs, h⟩ := Option.bind_eq_some_iff.mp h
    obtain ⟨c, hc, h⟩ := Option.bind_eq_some_iff.mp h
    obtain ⟨slot, hslot, hc⟩ := Option.bind_eq_some_iff.mp hc
    obtain ⟨hkind, hread⟩ := @read_of_statement? source role t s hs
    cases slot with
    | tree role' c' =>
      obtain rfl : c' = c := Option.some.inj hc
      obtain ⟨shape, hnode, -⟩ := read_eq_slots source role hkind
      obtain ⟨hplain, role'', hat⟩ := ih h role'
      refine ⟨hplain, role'', ?_⟩
      rw [hread, hnode, at?, children_node, List.getElem?_map, hslot]
      exact hat
    | missing role' => exact absurd hc (by simp [Slot.tree?])
    | typeName c' => exact absurd hc (by simp [Slot.tree?])

/-- Code that has parts is read from the tree at its position. -/
theorem exists_treeAt? {c : Code} (h : (Code.read source role t).at? p = some c)
    (hparts : c.children ≠ []) :
    ∃ v role', treeAt? source t p = some v ∧ c = Code.read source role' v := by
  induction p generalizing t role with
  | nil =>
    rw [at?_nil] at h
    obtain rfl := Option.some.inj h
    rcases statement?_cases source role t with ⟨s, hs, -, hread⟩ | ⟨-, hempty⟩
    · exact ⟨s, role, hs, hread⟩
    · exact absurd hempty hparts
  | cons n p ih =>
    rw [at?] at h
    obtain ⟨d, hd, h⟩ := Option.bind_eq_some_iff.mp h
    rcases statement?_cases source role t with ⟨s, hs, hkind, hread⟩ | ⟨-, hempty⟩
    · obtain ⟨shape, hnode, -⟩ := read_eq_slots source role hkind
      rw [hread, hnode, children_node, List.getElem?_map, Option.map_eq_some_iff] at hd
      obtain ⟨slot, hslot, rfl⟩ := hd
      -- a part that is not read from a tree has no parts itself
      have hleaf : ∀ i, slot.code source s = .node i [] → False := by
        intro i hi
        rw [hi] at h
        cases p with
        | nil =>
          rw [at?_nil] at h
          exact hparts (by rw [← Option.some.inj h]; rfl)
        | cons m p => exact absurd h (by simp [at?])
      cases slot with
      | tree role' c' =>
        obtain ⟨v, role'', hv, hc⟩ := ih h
        refine ⟨v, role'', ?_, hc⟩
        rw [treeAt?, hs, Option.bind_some, part?, hslot]
        exact hv
      | missing role' => exact (hleaf _ rfl).elim
      | typeName c' => exact (hleaf _ rfl).elim
    · rw [hempty] at hd
      exact absurd hd (by simp)

/-- The names that are declared between the start of code and a position in it are those that
the trees on the way declare. -/
theorem ahead_read_iff {c : Code} (h : (Code.read source role t).at? p = some c) :
    Ahead (Code.read source role t) p x ↔
      ∃ q n v, q ++ [n] <+: p ∧ treeAt? source t q = some v ∧ Declares source v n x := by
  constructor
  · rintro ⟨q, n, d, ⟨r, rfl⟩, hd, hdecl⟩
    have hparts : d.children ≠ [] := by
      rw [List.append_assoc, at?_append, hd, Option.bind_some, List.singleton_append, at?] at h
      obtain ⟨e, he, -⟩ := Option.bind_eq_some_iff.mp h
      rintro hnil
      rw [hnil] at he
      exact absurd he (by simp)
    obtain ⟨v, role', hv, rfl⟩ := exists_treeAt? hd hparts
    obtain ⟨hkind, -⟩ := read_of_treeAt? hv role
    exact ⟨q, n, v, List.prefix_append _ _, hv, (declaredFor_read_iff hkind).mp hdecl⟩
  · rintro ⟨q, n, v, hprefix, hv, hdecl⟩
    obtain ⟨hkind, role', hat⟩ := read_of_treeAt? hv role
    exact ⟨q, n, _, hprefix, hat, (declaredFor_read_iff hkind).mpr hdecl⟩

theorem treeAt?_append (p q : List Nat) :
    treeAt? source t (p ++ q) = (treeAt? source t p).bind fun s => treeAt? source s q := by
  -- a tree at a position is no `else`
  have hself : ∀ {s u : ParseTree}, statement? s = some u → statement? u = some u := by
    intro s u hu
    obtain ⟨i, cs⟩ := u
    have hkind : Construct.ofKind i.kind ≠ .elseClause :=
      (@read_of_statement? source .item s _ hu).1
    rw [statement?, if_neg hkind]
  induction p generalizing t with
  | nil =>
    rw [List.nil_append, treeAt?]
    cases hs : statement? t with
    | none => cases q <;> simp [treeAt?, hs]
    | some s => cases q <;> simp [treeAt?, hs, hself hs]
  | cons n p ih =>
    simp only [List.cons_append, treeAt?, ih, Option.bind_assoc]

end Positions

section Usages

variable {source : List Char} {role : Role} {tree v : ParseTree} {symbols : Symbols}
  {body outer t : SurveyedCode} {q r : List Nat} {x : String}

theorem at?_code (body : SurveyedCode) (p : List Nat) :
    body.code.at? p = (body.at? p).map SurveyedCode.code := by
  induction p generalizing body with
  | nil => rfl
  | cons n p ih =>
    rw [at?, getElem?_code_children, at?]
    cases body.children[n]? with
    | none => rfl
    | some c => exact ih c

/-- The declaration that a name means was made inside a construct around it exactly if this
construct, or one further down, declares the name for the part that the name is in. -/
theorem declared_inside_iff (hsurvey : IsSurvey symbols body)
    (hcode : body.code = Code.read source role tree) (hv : treeAt? source tree q = some v)
    (houter : body.at? q = some outer) (ht : body.at? (q ++ r) = some t) :
    outer.info.2.names.length < t.info.2.ordinal x ↔
      ∃ q' n u, q <+: q' ∧ q' ++ [n] <+: q ++ r ∧ treeAt? source tree q' = some u ∧
        Declares source u n x := by
  rw [at?_append, houter, Option.bind_some] at ht
  obtain ⟨added, hnames, hmem⟩ := (exists_names_at (exists_names_at hsurvey houter).1 ht).2
  obtain ⟨hlater, hearlier⟩ := Env.ordinal_append hnames x
  -- the code of the construct is read from its tree
  obtain ⟨-, role', hread⟩ := read_of_treeAt? hv role
  rw [← hcode, at?_code, houter] at hread
  have houtercode : outer.code = Code.read source role' v := Option.some.inj hread
  have hat := at?_code outer r
  rw [houtercode, ht] at hat
  have hinside : outer.info.2.names.length < t.info.2.ordinal x ↔ x ∈ added := by
    constructor
    · intro hlt
      by_contra hnot
      rw [hearlier hnot] at hlt
      exact absurd (Env.ordinal_le outer.info.2 x) (Nat.not_le.mpr hlt)
    · exact hlater
  rw [hinside, hmem, houtercode, ahead_read_iff hat]
  constructor
  · rintro ⟨p, n, u, hprefix, hu, hdecl⟩
    refine ⟨q ++ p, n, u, List.prefix_append _ _, ?_, ?_, hdecl⟩
    · rw [List.append_assoc]
      exact (List.prefix_append_right_inj q).mpr hprefix
    · rw [treeAt?_append, hv]
      exact hu
  · rintro ⟨_, n, u, ⟨p, rfl⟩, hprefix, hu, hdecl⟩
    rw [treeAt?_append, hv] at hu
    rw [List.append_assoc] at hprefix
    exact ⟨p, n, u, (List.prefix_append_right_inj q).mp hprefix, hu, hdecl⟩

end Usages

/-! Other binders -/

/-- A name that a declarator introduces in a structured binding. -/
inductive BindsStructured (source : List Char) : ParseTree → String → Prop where
  | name {d c : ParseTree} (hkind : d.kind = "structured_binding_declarator")
      (hc : c ∈ items d.children) : BindsStructured source d (text source c)
  | initialized {d c : ParseTree} {x : String} (hkind : d.kind = "init_declarator")
      (hc : field? "declarator" d.children = some c) (h : BindsStructured source c x) :
      BindsStructured source d x
  | reference {d c : ParseTree} {x : String} (hkind : d.kind = "reference_declarator")
      (hc : d.children.find? isItem = some c) (h : BindsStructured source c x) :
      BindsStructured source d x

/-- The names that a construct binds for its part `n` otherwise than by a declaration of one
name: the parameters of a handler, captures with an initializer, and structured bindings that
stand earlier in a block. -/
inductive Rebinds (source : List Char) (t : ParseTree) (n : Nat) : String → Prop where
  | handler {v : Var} (hkind : t.kind = "catch_clause")
      (hv : v ∈ Binding.vars (readParamsField source t.children))
      (hbody : (part? source t n).any (fills "body") = true) : Rebinds source t n v.name
  | capture {list c name : ParseTree} (hkind : t.kind = "lambda_expression")
      (hlist : field? "captures" t.children = some list) (hc : c ∈ items list.children)
      (hinit : c.kind = "lambda_capture_initializer")
      (hname : field? "left" c.children = some name)
      (hbody : (part? source t n).any (fills "body") = true) :
      Rebinds source t n (text source name)
  | structured {k : Nat} {c d : ParseTree} {x : String} (hkind : t.kind = "compound_statement")
      (hk : k < n) (hpart : part? source t k = some c) (hdeclaration : c.kind = "declaration")
      (hd : d ∈ fieldAll "declarator" c.children) (h : BindsStructured source d x) :
      Rebinds source t n x

/-- The name at a position of a body means a variable of the innermost construct that binds it:
its declaration was made inside of every construct around it that binds it. -/
def RespectsShadowing (source : List Char) (tree : ParseTree) (body : SurveyedCode) (p : List Nat)
    (x : String) : Prop :=
  ∀ q n r v outer t, p = q ++ n :: r → treeAt? source tree q = some v →
    body.at? q = some outer → body.at? p = some t →
    Declares source v n x ∨ Rebinds source v n x →
    outer.info.2.names.length < t.info.2.ordinal x

def objectName? (t : SurveyedCode) : Option String :=
  match t.code.children.head?.map Code.shape with
  | some (.identifier x) => if Name.isQualified x then none else some x
  | _ => none

/-- A usage whose object is a plain name is resolved through what the name means. -/
theorem exists_record_of_isUsage {setting : Setting} {t : SurveyedCode} {x : String}
    (h : isUsage setting t = true) (hx : objectName? t = some x) :
    Name.isQualified x = false ∧
      ∃ record, t.info.2.lookup setting.symbols x = some record := by
  obtain ⟨target, htarget⟩ := Option.isSome_iff_exists.mp h
  obtain ⟨field, hfield, -⟩ := Option.bind_eq_some_iff.mp htarget
  unfold Env.resolveMember at hfield
  split at hfield
  · obtain ⟨record, hrecord, -⟩ := Option.bind_eq_some_iff.mp hfield
    unfold objectName? at hx
    split at hx
    · rename_i y hshape
      obtain ⟨base, hbase, hy⟩ := Option.map_eq_some_iff.mp hshape
      obtain ⟨⟨i, cs⟩, rest, hchildren⟩ : ∃ c rest, t.code.children = c :: rest :=
        List.exists_cons_of_ne_nil (by rintro hnil; simp [hnil] at hbase)
      rw [hchildren, List.head?_cons, Option.some.injEq] at hbase
      subst hbase
      split at hx
      · exact absurd hx (by simp)
      · rename_i hplain
        obtain rfl := Option.some.inj hx
        refine ⟨by simpa using hplain, record, ?_⟩
        rw [hchildren, Env.classOfFirst, Env.classOf] at hrecord
        have hi : i.shape = .identifier y := hy
        rw [hi] at hrecord
        exact hrecord
    · exact absurd hx (by simp)
  · exact absurd hfield (by simp)

/-- A usage whose object is a plain name is resolved through the declaration that the name
means. For every construct around the usage, this was made inside of it exactly if the
construct, or one further down, declares the name. So shadowing is respected exactly where
each handler, capture or structured binding on the way that binds the name comes ahead of such
a declaration, or is one. -/
theorem respects_shadowing_iff (fields : List String) (path : String) (source : List Char)
    (parsed : Parsed) (headers : List SourceFile) (f : Function)
    (hf : f ∈ (SourceFile.ofParsed path source parsed).functions) (body : SurveyedCode)
    (hbody : surveyFunction (.ofUnit ⟨.ofParsed path source parsed, headers⟩) f = some body)
    (p : List Nat) (t : SurveyedCode) (ht : body.at? p = some t)
    (husage : isUsage (.ofUnit fields ⟨.ofParsed path source parsed, headers⟩) t = true)
    (x : String) (hx : objectName? t = some x) :
    (∃ record, t.info.2.lookup (.ofUnit ⟨.ofParsed path source parsed, headers⟩) x = some record ∧
      (0 < t.info.2.ordinal x →
        t.info.2.declaration? (t.info.2.ordinal x) = some (x, some record))) ∧
    ∃ d ∈ subtrees parsed.tree, ∃ tree, ParseTree.span d = f.span ∧
      field? "body" d.children = some tree ∧
      (∀ q r v outer, p = q ++ r → treeAt? source tree q = some v → body.at? q = some outer →
        (outer.info.2.names.length < t.info.2.ordinal x ↔
          ∃ q' n u, q <+: q' ∧ q' ++ [n] <+: p ∧ treeAt? source tree q' = some u ∧
            Declares source u n x)) ∧
      (RespectsShadowing source tree body p x ↔
        ∀ q n r v, p = q ++ n :: r → treeAt? source tree q = some v → Rebinds source v n x →
          ∃ q' m u, q <+: q' ∧ q' ++ [m] <+: p ∧ treeAt? source tree q' = some u ∧
            Declares source u m x) := by
  obtain ⟨hplain, record, hrecord⟩ := exists_record_of_isUsage husage hx
  refine ⟨⟨record, hrecord, ?_⟩, ?_⟩
  · intro hpos
    obtain ⟨known, hdeclaration, hlocal⟩ := Env.declaration?_ordinal hpos
    have hknown : known = some record := by
      rw [← hrecord]
      simp [Env.lookup, hplain, hlocal]
    rw [hdeclaration, hknown]
  · obtain ⟨b, hb, hsurveyed⟩ := Option.map_eq_some_iff.mp hbody
    obtain ⟨d, hd, scope, owner, hread⟩ :=
      (Decl.kept_definedIn source).ofParsed path parsed f hf b hb
    obtain ⟨hspan, hparts⟩ := Decl.readFunction_parts hread
    rw [hb] at hparts
    obtain ⟨tree, hfield, hb'⟩ := Option.map_eq_some_iff.mp hparts.symm
    have hcode : body.code = Code.read source .body tree := by
      rw [← hsurveyed, code_survey, hb']
    have hinside : ∀ q r v outer, p = q ++ r → treeAt? source tree q = some v →
        body.at? q = some outer → (outer.info.2.names.length < t.info.2.ordinal x ↔
          ∃ q' n u, q <+: q' ∧ q' ++ [n] <+: p ∧ treeAt? source tree q' = some u ∧
            Declares source u n x) := by
      rintro q r v outer rfl hv houter
      exact declared_inside_iff (isSurvey_surveyFunction hbody) hcode hv houter ht
    refine ⟨d, hd, tree, hspan.symm, hfield, hinside, ?_⟩
    constructor
    · intro hrespects q n r v hp hv hrebinds
      have hat := ht
      rw [hp, at?_append] at hat
      obtain ⟨outer, houter, -⟩ := Option.bind_eq_some_iff.mp hat
      exact (hinside q (n :: r) v outer hp hv houter).mp
        (hrespects q n r v outer t hp hv houter ht (Or.inr hrebinds))
    · intro hall q n r v outer t' hp hv houter ht' hbinds
      obtain rfl := Option.some.inj (ht.symm.trans ht')
      refine (hinside q (n :: r) v outer hp hv houter).mpr ?_
      rcases hbinds with hdeclares | hrebinds
      · exact ⟨q, n, v, List.prefix_refl q, ⟨r, by rw [hp]; simp⟩, hv, hdeclares⟩
      · exact hall q n r v hp hv hrebinds

section Example

/-- Three usages of `a.x` in a function with the parameter `F a`. In each of them `a` is bound
again: by a handler, by a capture and by a structured binding. -/
def shadowText : List Char :=
  ["struct F\x7bint x;\x7d;", "struct G\x7bint x;\x7d;", "struct P\x7bint k;G a;\x7d;",
    "void f(F a,G g,P p)\x7b", "try\x7b\x7dcatch(G a)\x7ba.x=1;\x7d", "[a=g]\x7breturn a.x;\x7d;",
    "\x7bauto[k,a]=p;a.x=2;\x7d", "\x7d"].flatMap String.toList

def handlerTree : ParseTree :=
  named "catch_clause" 80 98
    [filling "parameters" "parameter_list" 85 90
       [named "parameter_declaration" 86 89
          [filling "type" "type_identifier" 86 87 [],
           filling "declarator" "identifier" 88 89 []]],
     filling "body" "compound_statement" 90 98
       [named "expression_statement" 91 97
          [named "assignment_expression" 91 96
             [filling "left" "field_expression" 91 94
                [filling "argument" "identifier" 91 92 [],
                 filling "field" "field_identifier" 93 94 []],
              mark (some "operator") "=" 94 95,
              filling "right" "number_literal" 95 96 []]]]]

def capturingLambda : ParseTree :=
  named "lambda_expression" 98 116
    [filling "captures" "lambda_capture_specifier" 98 103
       [named "lambda_capture_initializer" 99 102
          [filling "left" "identifier" 99 100 [],
           filling "right" "identifier" 101 102 []]],
     filling "body" "compound_statement" 103 116
       [named "return_statement" 104 115
          [named "field_expression" 111 114
             [filling "argument" "identifier" 111 112 [],
              filling "field" "field_identifier" 113 114 []]]]]

def bindingDeclaration : ParseTree :=
  named "declaration" 118 130
    [filling "type" "placeholder_type_specifier" 118 122
       [named "auto" 118 122 []],
     filling "declarator" "init_declarator" 122 129
       [filling "declarator" "structured_binding_declarator" 122 127
          [named "identifier" 123 124 [],
           named "identifier" 125 126 []],
        filling "value" "identifier" 128 129 []]]

def bindingBlock : ParseTree :=
  named "compound_statement" 117 137
    [bindingDeclaration,
     named "expression_statement" 130 136
       [named "assignment_expression" 130 135
          [filling "left" "field_expression" 130 133
             [filling "argument" "identifier" 130 131 [],
              filling "field" "field_identifier" 132 133 []],
           mark (some "operator") "=" 133 134,
           filling "right" "number_literal" 134 135 []]]]

def shadowBodyTree : ParseTree :=
  filling "body" "compound_statement" 74 138
    [named "try_statement" 75 98
       [filling "body" "compound_statement" 78 80 [],
        handlerTree],
     named "expression_statement" 98 117
       [capturingLambda],
     bindingBlock]

def shadowTree : ParseTree :=
  named "translation_unit" 0 138
    [named "struct_specifier" 0 16
       [filling "name" "type_identifier" 7 8 [],
        filling "body" "field_declaration_list" 8 16
          [named "field_declaration" 9 15
             [filling "type" "primitive_type" 9 12 [],
              filling "declarator" "field_identifier" 13 14 []],
           mark none "\x7d" 15 16]],
     named "struct_specifier" 17 33
       [filling "name" "type_identifier" 24 25 [],
        filling "body" "field_declaration_list" 25 33
          [named "field_declaration" 26 32
             [filling "type" "primitive_type" 26 29 [],
              filling "declarator" "field_identifier" 30 31 []],
           mark none "\x7d" 32 33]],
     named "struct_specifier" 34 54
       [filling "name" "type_identifier" 41 42 [],
        filling "body" "field_declaration_list" 42 54
          [named "field_declaration" 43 49
             [filling "type" "primitive_type" 43 46 [],
              filling "declarator" "field_identifier" 47 48 []],
           named "field_declaration" 49 53
             [filling "type" "type_identifier" 49 50 [],
              filling "declarator" "field_identifier" 51 52 []],
           mark none "\x7d" 53 54]],
     named "function_definition" 55 138
       [filling "type" "primitive_type" 55 59 [],
        filling "declarator" "function_declarator" 60 74
          [filling "declarator" "identifier" 60 61 [],
           filling "parameters" "parameter_list" 61 74
             [named "parameter_declaration" 62 65
                [filling "type" "type_identifier" 62 63 [],
                 filling "declarator" "identifier" 64 65 []],
              named "parameter_declaration" 66 69
                [filling "type" "type_identifier" 66 67 [],
                 filling "declarator" "identifier" 68 69 []],
              named "parameter_declaration" 70 73
                [filling "type" "type_identifier" 70 71 [],
                 filling "declarator" "identifier" 72 73 []]]],
        shadowBodyTree]]

def shadowFile : SourceFile :=
  .ofParsed "shadow.cpp" shadowText ⟨shadowTree, false⟩

def shadowSetting : Setting :=
  .ofUnit ["F::x"] ⟨shadowFile, []⟩

def shadowBody : SurveyedCode :=
  (shadowFile.functions.head?.bind (surveyFunction shadowSetting.symbols)).getD
    (.node (⟨.body, .block, .point 0⟩, {}) [])

/-- Whether the name at the position `q ++ n :: r` means a declaration made outside of the
construct at `q`. -/
def meansOutside (body : SurveyedCode) (q : List Nat) (n : Nat) (r : List Nat) (x : String) :
    Bool :=
  (body.at? q).any fun outer => (body.at? (q ++ n :: r)).any fun t =>
    decide (t.info.2.ordinal x ≤ outer.info.2.names.length)

theorem not_respectsShadowing {source : List Char} {tree v : ParseTree} {body : SurveyedCode}
    {q r : List Nat} {n : Nat} {x : String} (hv : treeAt? source tree q = some v)
    (hrebinds : Rebinds source v n x) (houtside : meansOutside body q n r x = true) :
    ¬ RespectsShadowing source tree body (q ++ n :: r) x := by
  intro hrespects
  obtain ⟨outer, houter, hinner⟩ := (Option.any_eq_true _ _).mp houtside
  obtain ⟨t, ht, hle⟩ := (Option.any_eq_true _ _).mp hinner
  have hlt := hrespects q n r v outer t rfl hv houter ht (Or.inr hrebinds)
  exact absurd (of_decide_eq_true hle) (Nat.not_le.mpr hlt)

theorem rebinds_handler : Rebinds shadowText handlerTree 1 "a" := by
  obtain ⟨v, hv, hname⟩ : ∃ v ∈ Binding.vars (readParamsField shadowText handlerTree.children),
      v.name = "a" := by decide
  rw [← hname]
  exact .handler rfl hv (by decide)

theorem rebinds_capture : Rebinds shadowText capturingLambda 0 "a" := by
  have hname : text shadowText (filling "left" "identifier" 99 100 []) = "a" := by decide
  rw [← hname]
  exact .capture rfl rfl (List.mem_singleton_self _) rfl rfl (by decide)

theorem rebinds_structured : Rebinds shadowText bindingBlock 1 "a" := by
  have hname : text shadowText (named "identifier" 125 126 []) = "a" := by decide
  have hpart : part? shadowText bindingBlock 0 = some bindingDeclaration := by decide
  rw [← hname]
  refine .structured rfl Nat.zero_lt_one hpart rfl (List.mem_singleton_self _) ?_
  exact .initialized rfl rfl (.name rfl (by decide))

/-- All three usages are rewritten as usages of the field of `F`. -/
theorem shadowed_names_rewritten :
    (∀ e ∈ [Edit.replace ⟨91, 96⟩ "a.setX( 1 )", .replace ⟨111, 114⟩ "a.getX()",
        .replace ⟨130, 135⟩ "a.setX( 2 )"],
      e ∈ (scan shadowSetting shadowFile.functions).queue) ∧
      ¬ RespectsShadowing shadowText shadowBodyTree shadowBody [0, 1, 1, 0, 0, 0] "a" ∧
      ¬ RespectsShadowing shadowText shadowBodyTree shadowBody [1, 0, 0, 0, 0] "a" ∧
      ¬ RespectsShadowing shadowText shadowBodyTree shadowBody [2, 1, 0, 0] "a" := by
  have htrees : treeAt? shadowText shadowBodyTree [0, 1] = some handlerTree ∧
      treeAt? shadowText shadowBodyTree [1, 0] = some capturingLambda ∧
      treeAt? shadowText shadowBodyTree [2] = some bindingBlock := by decide
  have houtside : meansOutside shadowBody [0, 1] 1 [0, 0, 0] "a" = true ∧
      meansOutside shadowBody [1, 0] 0 [0, 0] "a" = true ∧
      meansOutside shadowBody [2] 1 [0, 0] "a" = true := by decide
  obtain ⟨hhandler, hlambda, hblock⟩ := htrees
  obtain ⟨hinHandler, hinLambda, hinBlock⟩ := houtside
  exact ⟨by decide +kernel, not_respectsShadowing hhandler rebinds_handler hinHandler,
    not_respectsShadowing hlambda rebinds_capture hinLambda,
    not_respectsShadowing hblock rebinds_structured hinBlock⟩

/-- The usage in the handler is resolved through the parameter of the function. -/
theorem respects_shadowing_iff_handler :
    ∃ f ∈ shadowFile.functions, ∃ body t, surveyFunction shadowSetting.symbols f = some body ∧
      body.at? [0, 1, 1, 0, 0, 0] = some t ∧ isUsage shadowSetting t = true ∧
      objectName? t = some "a" ∧ t.info.2.declaration? 1 = some ("a", some "F") := by
  obtain ⟨f, hf, hbody⟩ : ∃ f ∈ shadowFile.functions,
      ((surveyFunction shadowSetting.symbols f).any fun body =>
        (body.at? [0, 1, 1, 0, 0, 0]).any fun t =>
          isUsage shadowSetting t && objectName? t == some "a" && t.info.2.ordinal "a" == 1 &&
            t.info.2.lookup shadowSetting.symbols "a" == some "F") = true := by
    decide
  obtain ⟨body, hbody, hat⟩ := (Option.any_eq_true _ _).mp hbody
  obtain ⟨t, ht, hall⟩ := (Option.any_eq_true _ _).mp hat
  simp only [Bool.and_eq_true, beq_iff_eq] at hall
  obtain ⟨⟨⟨husage, hx⟩, hordinal⟩, hlookup⟩ := hall
  obtain ⟨⟨record, hrecord, hdeclaration⟩, -⟩ := respects_shadowing_iff ["F::x"] "shadow.cpp"
    shadowText ⟨shadowTree, false⟩ [] f hf body hbody _ t ht husage "a" hx
  have hF : some record = some "F" := hrecord.symm.trans hlookup
  rw [hordinal, hF] at hdeclaration
  exact ⟨f, hf, body, t, hbody, ht, husage, hx, hdeclaration Nat.zero_lt_one⟩

end Example

end Accessors

end Encapsulate
