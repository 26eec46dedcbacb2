import Encapsulate.Tree
import Mathlib.Data.List.Basic

/-!
Subtrees and positions of a tree. A property that every node must have is stated
once, for the subtree of the node, and asked everywhere. A position is the list of
child numbers that leads from the root to a node; the nodes above a position are
listed innermost first.
-/

namespace Encapsulate.Tree

variable {α β : Type}

/-- Induction with one hypothesis for each child. -/
theorem inductionOn {P : Tree α → Prop} (h : ∀ i cs, (∀ c ∈ cs, P c) → P (node i cs)) :
    (t : Tree α) → P t
  | node i cs => h i cs fun c _ => inductionOn h c

@[simp] theorem info_node (i : α) (cs : List (Tree α)) : (node i cs).info = i := rfl

@[simp] theorem children_node (i : α) (cs : List (Tree α)) : (node i cs).children = cs := rfl

theorem node_info_children (t : Tree α) : node t.info t.children = t := by
  cases t
  rfl

theorem subtrees_node (i : α) (cs : List (Tree α)) :
    subtrees (node i cs) = subtreesOf cs ++ [node i cs] := by
  rw [subtrees]

@[simp] theorem mem_subtreesOf {s : Tree α} {cs : List (Tree α)} :
    s ∈ subtreesOf cs ↔ ∃ c ∈ cs, s ∈ subtrees c := by
  induction cs with
  | nil => simp [subtreesOf]
  | cons c cs ih => simp [subtreesOf, ih]

theorem mem_subtrees_node {s : Tree α} {i : α} {cs : List (Tree α)} :
    s ∈ subtrees (node i cs) ↔ s = node i cs ∨ ∃ c ∈ cs, s ∈ subtrees c := by
  rw [subtrees_node, List.mem_append, mem_subtreesOf, List.mem_singleton]
  exact or_comm

theorem self_mem_subtrees (t : Tree α) : t ∈ subtrees t := by
  cases t with
  | node i cs => exact mem_subtrees_node.mpr (Or.inl rfl)

theorem mem_subtrees_trans {r s : Tree α} (t : Tree α) (hr : r ∈ subtrees s)
    (hs : s ∈ subtrees t) : r ∈ subtrees t := by
  induction t using inductionOn with
  | h i cs ih =>
    rcases mem_subtrees_node.mp hs with rfl | ⟨c, hc, hsc⟩
    · exact hr
    · exact mem_subtrees_node.mpr (Or.inr ⟨c, hc, ih c hc hsc⟩)

def descendants (t : Tree α) : List (Tree α) :=
  subtreesOf t.children

theorem mem_descendants {s t : Tree α} : s ∈ descendants t ↔ ∃ c ∈ t.children, s ∈ subtrees c :=
  mem_subtreesOf

theorem child_mem_descendants {c t : Tree α} (h : c ∈ t.children) : c ∈ descendants t :=
  mem_descendants.mpr ⟨c, h, self_mem_subtrees c⟩

theorem descendants_trans {r s t : Tree α} (hr : r ∈ descendants s) (hs : s ∈ descendants t) :
    r ∈ descendants t := by
  obtain ⟨c, hc, hrc⟩ := mem_descendants.mp hr
  obtain ⟨d, hd, hsd⟩ := mem_descendants.mp hs
  refine mem_descendants.mpr ⟨d, hd, mem_subtrees_trans d ?_ hsd⟩
  rw [← node_info_children s]
  exact mem_subtrees_node.mpr (Or.inr ⟨c, hc, hrc⟩)

theorem mem_subtrees_of_mem_descendants {r s t : Tree α} (hs : s ∈ descendants t)
    (hr : r ∈ subtrees s) : r ∈ subtrees t := by
  obtain ⟨c, hc, hsc⟩ := mem_descendants.mp hs
  rw [← node_info_children t]
  exact mem_subtrees_node.mpr (Or.inr ⟨c, hc, mem_subtrees_trans c hr hsc⟩)

/-- Induction with one hypothesis for each proper subtree. -/
theorem induct_descendants {P : Tree α → Prop} (h : ∀ t, (∀ s ∈ descendants t, P s) → P t)
    (t : Tree α) : P t := by
  have all : ∀ s ∈ subtrees t, P s := by
    induction t using inductionOn with
    | h i cs ih =>
      have hdesc : ∀ s ∈ descendants (node i cs), P s := by
        intro s hs
        obtain ⟨c, hc, hsc⟩ := mem_descendants.mp hs
        exact ih c hc s hsc
      intro s hs
      rcases mem_subtrees_node.mp hs with rfl | ⟨c, hc, hsc⟩
      · exact h _ hdesc
      · exact ih c hc s hsc
  exact all t (self_mem_subtrees t)

def Everywhere (P : Tree α → Prop) (t : Tree α) : Prop :=
  ∀ s ∈ t.subtrees, P s

instance {P : Tree α → Prop} [DecidablePred P] (t : Tree α) : Decidable (Everywhere P t) :=
  inferInstanceAs (Decidable (∀ s ∈ subtrees t, P s))

namespace Everywhere

variable {P : Tree α → Prop}

theorem node_iff {i : α} {cs : List (Tree α)} :
    Everywhere P (node i cs) ↔ P (node i cs) ∧ ∀ c ∈ cs, Everywhere P c := by
  constructor
  · intro h
    refine ⟨h _ (self_mem_subtrees _), ?_⟩
    intro c hc s hs
    exact h s (mem_subtrees_node.mpr (Or.inr ⟨c, hc, hs⟩))
  · rintro ⟨hroot, hcs⟩ s hs
    rcases mem_subtrees_node.mp hs with rfl | ⟨c, hc, hsc⟩
    · exact hroot
    · exact hcs c hc s hsc

theorem here {t : Tree α} (h : Everywhere P t) : P t :=
  h t (self_mem_subtrees t)

theorem child {t c : Tree α} (h : Everywhere P t) (hc : c ∈ t.children) : Everywhere P c := by
  rw [← node_info_children t] at h
  exact (node_iff.mp h).2 c hc

theorem of_mem {t s : Tree α} (h : Everywhere P t) (hs : s ∈ t.subtrees) : Everywhere P s :=
  fun _ hr => h _ (mem_subtrees_trans t hr hs)

theorem of_mem_descendants {t s : Tree α} (h : Everywhere P t) (hs : s ∈ descendants t) :
    Everywhere P s := by
  obtain ⟨c, hc, hsc⟩ := mem_descendants.mp hs
  exact (h.child hc).of_mem hsc

end Everywhere

mutual

def map (f : α → β) : Tree α → Tree β
  | node i cs => node (f i) (mapAll f cs)

def mapAll (f : α → β) : List (Tree α) → List (Tree β)
  | [] => []
  | c :: cs => map f c :: mapAll f cs

end

theorem mapAll_eq (f : α → β) (cs : List (Tree α)) : mapAll f cs = cs.map (map f) := by
  induction cs with
  | nil => rfl
  | cons c cs ih => rw [mapAll, ih, List.map_cons]

theorem subtreesOf_append (as bs : List (Tree α)) :
    subtreesOf (as ++ bs) = subtreesOf as ++ subtreesOf bs := by
  induction as with
  | nil => simp [subtreesOf]
  | cons a as ih => simp [subtreesOf, ih]

theorem subtrees_map (f : α → β) (t : Tree α) :
    subtrees (t.map f) = (subtrees t).map (map f) := by
  induction t using inductionOn with
  | h i cs ih =>
    have hcs : ∀ ds : List (Tree α), (∀ d ∈ ds, d ∈ cs) →
        subtreesOf (ds.map (map f)) = (subtreesOf ds).map (map f) := by
      intro ds hds
      induction ds with
      | nil => simp [subtreesOf]
      | cons d ds ihds =>
        have hd := ih d (hds d (List.mem_cons_self ..))
        have hrest := ihds fun x hx => hds x (List.mem_cons_of_mem _ hx)
        simp [subtreesOf, hd, hrest]
    rw [map, mapAll_eq, subtrees_node, subtrees_node, hcs cs fun _ hd => hd, List.map_append,
      List.map_singleton, map, mapAll_eq]

theorem subtreesOf_map (f : α → β) (ts : List (Tree α)) :
    subtreesOf (ts.map (map f)) = (subtreesOf ts).map (map f) := by
  induction ts with
  | nil => simp [subtreesOf]
  | cons t ts ih => simp [subtreesOf, subtrees_map, ih]

def at? (t : Tree α) : List Nat → Option (Tree α)
  | [] => some t
  | n :: p => t.children[n]?.bind fun c => c.at? p

def above (t : Tree α) : List Nat → List α
  | [] => []
  | n :: p => ((t.children[n]?.map fun c => c.above p).getD []) ++ [t.info]

@[simp] theorem at?_nil (t : Tree α) : t.at? [] = some t := rfl

@[simp] theorem above_nil (t : Tree α) : t.above [] = [] := rfl

theorem at?_append (t : Tree α) (p q : List Nat) :
    t.at? (p ++ q) = (t.at? p).bind fun s => s.at? q := by
  induction p generalizing t with
  | nil => rfl
  | cons n p ih =>
    simp only [List.cons_append, at?]
    cases t.children[n]? with
    | none => rfl
    | some c => exact ih c

theorem mem_subtrees_of_at? {t s : Tree α} {p : List Nat} (h : t.at? p = some s) :
    s ∈ subtrees t := by
  induction p generalizing t with
  | nil =>
    rw [at?_nil] at h
    rw [← Option.some.inj h]
    exact self_mem_subtrees t
  | cons n p ih =>
    rw [at?] at h
    obtain ⟨c, hc, hs⟩ := Option.bind_eq_some_iff.mp h
    rw [← node_info_children t]
    exact mem_subtrees_node.mpr (Or.inr ⟨c, List.mem_of_getElem? hc, ih hs⟩)

theorem above_append {t s : Tree α} {p : List Nat} (hs : t.at? p = some s) (q : List Nat) :
    t.above (p ++ q) = s.above q ++ t.above p := by
  induction p generalizing t with
  | nil =>
    rw [at?_nil] at hs
    rw [Option.some.inj hs, List.nil_append, above_nil, List.append_nil]
  | cons n p ih =>
    rw [at?] at hs
    obtain ⟨c, hc, hcs⟩ := Option.bind_eq_some_iff.mp hs
    simp only [List.cons_append, above, hc, Option.map_some, Option.getD_some, ih hcs,
      List.append_assoc]

/-- From a position to a child of the node there. -/
theorem at?_concat {t s c : Tree α} {p : List Nat} {n : Nat} (hs : t.at? p = some s)
    (hc : s.children[n]? = some c) : t.at? (p ++ [n]) = some c := by
  rw [at?_append, hs, Option.bind_some, at?, hc, Option.bind_some, at?_nil]

theorem length_above {t s : Tree α} {p : List Nat} (hs : t.at? p = some s) :
    (t.above p).length = p.length := by
  induction p generalizing t with
  | nil => rfl
  | cons n p ih =>
    rw [at?] at hs
    obtain ⟨c, hc, hcs⟩ := Option.bind_eq_some_iff.mp hs
    simp [above, hc, ih hcs]

/-- A node and its child on the way to a position follow each other among the labels
above it. -/
theorem exists_above_eq {t r c s : Tree α} {p q : List Nat} {n : Nat} (hr : t.at? p = some r)
    (hc : r.children[n]? = some c) (hs : c.at? q = some s) :
    ∃ below, s.info :: t.above (p ++ n :: q) = below ++ c.info :: r.info :: t.above p := by
  have habove : r.above (n :: q) = c.above q ++ [r.info] := by simp [above, hc]
  rw [above_append hr, habove]
  cases q with
  | nil =>
    rw [at?_nil] at hs
    exact ⟨[], by simp [Option.some.inj hs]⟩
  | cons m q =>
    obtain ⟨d, hd, -⟩ := Option.bind_eq_some_iff.mp hs
    exact ⟨s.info :: d.above q, by simp [above, hd]⟩

mutual

def positions : Tree α → List (List Nat)
  | node _ cs => [] :: positionsFrom 0 cs

def positionsFrom (n : Nat) : List (Tree α) → List (List Nat)
  | [] => []
  | c :: cs => (positions c).map (n :: ·) ++ positionsFrom (n + 1) cs

end

theorem mem_positionsFrom {n : Nat} {cs : List (Tree α)} {p : List Nat} :
    p ∈ positionsFrom n cs ↔ ∃ m q c, p = (n + m) :: q ∧ cs[m]? = some c ∧ q ∈ positions c := by
  induction cs generalizing n with
  | nil => simp [positionsFrom]
  | cons c cs ih =>
    rw [positionsFrom, List.mem_append, List.mem_map, ih]
    constructor
    · rintro (⟨q, hq, rfl⟩ | ⟨m, q, d, rfl, hd, hq⟩)
      · exact ⟨0, q, c, rfl, rfl, hq⟩
      · exact ⟨m + 1, q, d, by rw [Nat.add_assoc, Nat.add_comm 1], hd, hq⟩
    · rintro ⟨m, q, d, rfl, hd, hq⟩
      cases m with
      | zero =>
        rw [List.getElem?_cons_zero, Option.some.injEq] at hd
        exact Or.inl ⟨q, by rw [hd]; exact hq, rfl⟩
      | succ m => exact Or.inr ⟨m, q, d, by rw [Nat.add_assoc, Nat.add_comm 1], hd, hq⟩

theorem mem_positions {t : Tree α} {p : List Nat} : p ∈ positions t ↔ (t.at? p).isSome = true := by
  induction t using inductionOn generalizing p with
  | h i cs ih =>
    rw [positions, List.mem_cons, mem_positionsFrom]
    cases p with
    | nil => simp
    | cons n q =>
      rw [at?, children_node]
      constructor
      · rintro (h | ⟨m, q', c, heq, hc, hq⟩)
        · exact absurd h (by simp)
        · obtain ⟨rfl, rfl⟩ := List.cons.inj heq
          rw [Nat.zero_add, hc, Option.bind_some]
          exact (ih c (List.mem_of_getElem? hc)).mp hq
      · intro h
        cases hc : cs[n]? with
        | none => simp [hc] at h
        | some c =>
          rw [hc, Option.bind_some] at h
          exact Or.inr ⟨n, q, c, by rw [Nat.zero_add], hc,
            (ih c (List.mem_of_getElem? hc)).mpr h⟩

end Encapsulate.Tree
