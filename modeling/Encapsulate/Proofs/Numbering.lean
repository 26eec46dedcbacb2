import Encapsulate.Proofs.Outline
import Mathlib.Data.List.Nodup
import Mathlib.Logic.Relation

/-!
The table of a file's code is a well-formed arena. Nodes are numbered after their own
children, so numbers grow on every way up and fall on every way down, and the parent that
an entry names is the one node that lists it among its children. In the table of a tidy
tree the children of a node stand inside it and apart from each other.
-/

namespace Encapsulate.Cpp

open Encapsulate.Tree ParseTree

namespace Code

section Numbers

variable {α : Type}

mutual

/-- The nodes of a tree, children first, have the numbers from `first` on. -/
theorem ids_number (first : Nat) : (t : Tree α) →
    (subtrees (number first t)).map (·.info.1) = List.range' first t.size
  | .node i cs => by
    rw [number, subtrees_node, List.map_append, ids_numberAll first cs, size,
      List.range'_1_concat]
    rfl

theorem ids_numberAll (first : Nat) : (cs : List (Tree α)) →
    (subtreesOf (numberAll first cs)).map (·.info.1) = List.range' first (sizes cs)
  | [] => rfl
  | c :: cs => by
    rw [numberAll, subtreesOf, List.map_append, ids_number first c,
      ids_numberAll (first + c.size) cs, List.range'_append_1, sizes]

end

mutual

/-- What numbering adds can be taken away. -/
theorem map_snd_number (first : Nat) : (t : Tree α) → (number first t).map Prod.snd = t
  | .node i cs => by rw [number, map, mapAll_snd_numberAll first cs]

theorem mapAll_snd_numberAll (first : Nat) : (cs : List (Tree α)) →
    mapAll Prod.snd (numberAll first cs) = cs
  | [] => rfl
  | c :: cs => by
    rw [numberAll, mapAll, map_snd_number first c, mapAll_snd_numberAll (first + c.size) cs]

end

theorem map_snd_numberAll (first : Nat) (cs : List (Tree α)) :
    (numberAll first cs).map (map Prod.snd) = cs := by
  rw [← mapAll_eq, mapAll_snd_numberAll]

mutual

/-- A part of a numbered tree is a part of the tree, numbered. -/
theorem exists_of_mem_number {first : Nat} {s : Tree (Nat × α)} : (t : Tree α) →
    s ∈ subtrees (number first t) → ∃ k, ∃ u ∈ subtrees t, s = number k u
  | .node i cs, h => by
    rw [number, mem_subtrees_node, ← mem_subtreesOf] at h
    rcases h with h | h
    · exact ⟨first, .node i cs, self_mem_subtrees _, by rw [number, h]⟩
    · obtain ⟨k, u, hu, hs⟩ := exists_of_mem_numberAll cs h
      exact ⟨k, u, mem_subtrees_node.mpr (Or.inr (mem_subtreesOf.mp hu)), hs⟩

theorem exists_of_mem_numberAll {first : Nat} {s : Tree (Nat × α)} : (cs : List (Tree α)) →
    s ∈ subtreesOf (numberAll first cs) → ∃ k, ∃ u ∈ subtreesOf cs, s = number k u
  | [], h => by simp [numberAll] at h
  | c :: cs, h => by
    rw [numberAll, subtreesOf, List.mem_append] at h
    rw [subtreesOf]
    rcases h with h | h
    · obtain ⟨k, u, hu, hs⟩ := exists_of_mem_number c h
      exact ⟨k, u, List.mem_append_left _ hu, hs⟩
    · obtain ⟨k, u, hu, hs⟩ := exists_of_mem_numberAll cs h
      exact ⟨k, u, List.mem_append_right _ hu, hs⟩

end

/-- The trees of a list are some of their own parts, in the same order. -/
theorem sublist_subtreesOf (ts : List (Tree α)) : ts.Sublist (subtreesOf ts) := by
  induction ts with
  | nil => exact List.Sublist.refl _
  | cons t ts ih =>
    obtain ⟨i, cs⟩ := t
    rw [subtreesOf, subtrees_node, List.append_assoc]
    exact (ih.cons_cons _).trans (List.sublist_append_right ..)

end Numbers

section Entries

mutual

theorem map_code_entries (parent : Option Nat) : (t : NumberedCode) →
    (entries parent t).map Entry.code = subtrees t
  | .node i cs => by
    rw [entries, List.map_append, map_code_entriesOf (some i.1) cs, subtrees_node]
    rfl

theorem map_code_entriesOf (parent : Option Nat) : (cs : List NumberedCode) →
    (entriesOf parent cs).map Entry.code = subtreesOf cs
  | [] => rfl
  | c :: cs => by
    rw [entriesOf, List.map_append, map_code_entries parent c, map_code_entriesOf parent cs,
      subtreesOf]

end

mutual

/-- An entry is that of the root, or it names the node it is a child of. -/
theorem mem_entries {parent : Option Nat} {e : Entry} : (t : NumberedCode) →
    (e ∈ entries parent t ↔ e = ⟨parent, t⟩ ∨
      ∃ s ∈ subtrees t, ∃ c ∈ s.children, e = ⟨some s.info.1, c⟩)
  | .node i cs => by
    rw [entries, List.mem_append, mem_entriesOf cs, List.mem_singleton]
    constructor
    · rintro ((⟨c, hc, rfl⟩ | ⟨s, hs, c, hc, rfl⟩) | rfl)
      · exact Or.inr ⟨_, self_mem_subtrees _, c, hc, rfl⟩
      · exact Or.inr ⟨s, mem_subtrees_node.mpr (Or.inr (mem_subtreesOf.mp hs)), c, hc, rfl⟩
      · exact Or.inl rfl
    · rintro (rfl | ⟨s, hs, c, hc, rfl⟩)
      · exact Or.inr rfl
      · rcases mem_subtrees_node.mp hs with rfl | hs
        · exact Or.inl (Or.inl ⟨c, hc, rfl⟩)
        · exact Or.inl (Or.inr ⟨s, mem_subtreesOf.mpr hs, c, hc, rfl⟩)

theorem mem_entriesOf {parent : Option Nat} {e : Entry} : (cs : List NumberedCode) →
    (e ∈ entriesOf parent cs ↔ (∃ c ∈ cs, e = ⟨parent, c⟩) ∨
      ∃ s ∈ subtreesOf cs, ∃ c ∈ s.children, e = ⟨some s.info.1, c⟩)
  | [] => by simp [entriesOf]
  | c :: cs => by
    rw [entriesOf, List.mem_append, mem_entries c, mem_entriesOf cs]
    simp only [subtreesOf, List.mem_cons, List.mem_append, or_and_right, exists_or,
      exists_eq_left]
    exact or_or_or_comm

end

end Entries

section Table

variable {codes : List Code} {e f : Entry}

theorem ids_table (codes : List Code) :
    (table codes).map Entry.id = List.range (sizes codes) := by
  have hids : (table codes).map Entry.id =
      ((table codes).map Entry.code).map (·.info.1) := by
    rw [List.map_map]
    rfl
  rw [hids, table, map_code_entriesOf, ids_numberAll, List.range_eq_range']

/-- The table lists all nodes of the code, each after its own children. -/
theorem map_code_table (codes : List Code) :
    (table codes).map (fun e => e.code.map Prod.snd) = subtreesOf codes := by
  have hcodes : (table codes).map (fun e => e.code.map Prod.snd) =
      ((table codes).map Entry.code).map (map Prod.snd) := by
    rw [List.map_map]
    rfl
  rw [hcodes, table, map_code_entriesOf, ← subtreesOf_map, map_snd_numberAll]

/-- The number of a node is its place in the table. -/
theorem id_of_getElem? {n : Nat} (h : (table codes)[n]? = some e) : e.id = n := by
  have hid : ((table codes).map Entry.id)[n]? = some e.id := by
    rw [List.getElem?_map, h, Option.map_some]
  rw [ids_table] at hid
  obtain ⟨hn, heq⟩ := List.getElem?_eq_some_iff.mp hid
  rw [List.getElem_range] at heq
  exact heq.symm

/-- An entry is known by its number. -/
theorem eq_of_id (he : e ∈ table codes) (hf : f ∈ table codes) (h : e.id = f.id) : e = f := by
  have hnodup : ((table codes).map Entry.id).Nodup := by
    rw [ids_table]
    exact List.nodup_range
  exact List.inj_on_of_nodup_map hnodup he hf h

/-- A node in the table is a part of the code, numbered. -/
theorem exists_code (he : e ∈ table codes) : ∃ k, ∃ u ∈ subtreesOf codes, e.code = number k u := by
  have hmem : e.code ∈ (table codes).map Entry.code := List.mem_map_of_mem he
  rw [table, map_code_entriesOf] at hmem
  exact exists_of_mem_numberAll codes hmem

/-- Every child of a node has an entry, which names the node. -/
theorem child_mem_table (he : e ∈ table codes) {c : NumberedCode} (hc : c ∈ e.code.children) :
    ⟨some e.id, c⟩ ∈ table codes := by
  have hmem : e.code ∈ (table codes).map Entry.code := List.mem_map_of_mem he
  rw [table, map_code_entriesOf] at hmem
  exact (mem_entriesOf _).mpr (Or.inr ⟨e.code, hmem, c, hc, rfl⟩)

theorem exists_child (he : e ∈ table codes) {n : Nat} (hn : n ∈ e.children) :
    ∃ c ∈ e.code.children, c.info.1 = n ∧ ⟨some e.id, c⟩ ∈ table codes := by
  obtain ⟨c, hc, rfl⟩ := List.mem_map.mp hn
  exact ⟨c, hc, rfl, child_mem_table he hc⟩

/-- The entry of a child is the one with its code. -/
theorem code_mem_children (he : e ∈ table codes) (hf : f ∈ table codes)
    (h : e.id ∈ f.children) : e = ⟨some f.id, e.code⟩ ∧ e.code ∈ f.code.children := by
  obtain ⟨c, hc, hid, hmem⟩ := exists_child hf h
  have heq : e = ⟨some f.id, c⟩ := eq_of_id he hmem hid.symm
  rw [heq]
  exact ⟨rfl, hc⟩

theorem parent_eq_some_iff (he : e ∈ table codes) {p : Nat} :
    e.parent = some p ↔ ∃ f ∈ table codes, f.id = p ∧ e.id ∈ f.children := by
  constructor
  · intro hp
    rcases (mem_entriesOf _).mp he with ⟨c, -, rfl⟩ | ⟨s, hs, c, hc, rfl⟩
    · exact absurd hp (by simp)
    · rw [← map_code_entriesOf none] at hs
      obtain ⟨f, hf, rfl⟩ := List.mem_map.mp hs
      exact ⟨f, hf, Option.some.inj hp, List.mem_map_of_mem hc⟩
  · rintro ⟨f, hf, rfl, hmem⟩
    rw [(code_mem_children he hf hmem).1]

/-- The children of a node have different numbers below its own. -/
theorem children_ids (he : e ∈ table codes) :
    e.children.Nodup ∧ ∀ n ∈ e.children, n < e.id := by
  obtain ⟨k, ⟨i, cs⟩, -, hcode⟩ := exists_code he
  have hid : e.id = k + sizes cs := by rw [Entry.id, hcode, number, info_node]
  have hsub : e.children.Sublist (List.range' k (sizes cs)) := by
    rw [← ids_numberAll, Entry.children, hcode, number, children_node]
    exact (sublist_subtreesOf _).map _
  refine ⟨(List.nodup_range' 1).sublist hsub, ?_⟩
  intro n hn
  have hrange := List.mem_range'_1.mp (hsub.subset hn)
  omega

/-- The children of an entry stand inside it and apart, as those of its code do. -/
theorem nested_of_mem_table (hnested : ∀ u ∈ subtreesOf codes, Nested u) (he : e ∈ table codes) :
    (∀ c ∈ e.code.children, e.node.span.contains c.info.2.span = true) ∧
      e.code.children.Pairwise fun c d => Span.Apart c.info.2.span d.info.2.span := by
  obtain ⟨k, ⟨i, cs⟩, hu, hcode⟩ := exists_code he
  have hspan : ∀ c : NumberedCode, c.info.2.span = Code.span (c.map Prod.snd) := by
    rintro ⟨j, ds⟩
    rfl
  obtain ⟨hinside, hapart⟩ := hnested _ hu
  rw [children_node, ← map_snd_numberAll k cs] at hinside hapart
  rw [Entry.node, hcode, number, children_node, info_node]
  constructor
  · intro c hc
    rw [hspan]
    exact hinside _ (List.mem_map_of_mem hc)
  · refine (List.pairwise_map.mp hapart).imp ?_
    intro c d hcd
    rw [hspan, hspan]
    exact hcd

end Table

/-- A table in which parents and children refer to each other and stand in the text as
they are nested. -/
structure WellFormed (es : List Entry) : Prop where
  numbered : ∀ (n : Nat) (e : Entry), es[n]? = some e → e.id = n
  smaller : ∀ e ∈ es, ∀ n ∈ e.children, n < e.id
  once : ∀ e ∈ es, e.children.Nodup
  oneParent : ∀ e ∈ es, ∀ f ∈ es, ∀ n ∈ e.children, n ∈ f.children → e.id = f.id
  linked : ∀ e ∈ es, ∀ p, e.parent = some p ↔ ∃ f ∈ es, f.id = p ∧ e.id ∈ f.children
  inside : ∀ e ∈ es, ∀ f ∈ es, e.id ∈ f.children → f.node.span.contains e.node.span = true
  apart : ∀ d ∈ es, ∀ e ∈ es, ∀ f ∈ es, d.id ∈ f.children → e.id ∈ f.children → d.id ≠ e.id →
    Span.Apart d.node.span e.node.span

/-- The table of code that is nested everywhere. -/
theorem wellFormed_of_nested {codes : List Code} (hnested : ∀ u ∈ subtreesOf codes, Nested u) :
    WellFormed (table codes) where
  numbered _ _ h := id_of_getElem? h
  smaller _ he := (children_ids he).2
  once _ he := (children_ids he).1
  oneParent e he f hf n hn hm := by
    obtain ⟨c, -, rfl, hc⟩ := exists_child he hn
    have heq := (code_mem_children hc hf hm).1
    exact Option.some.inj (congrArg Entry.parent heq)
  linked _ he _ := parent_eq_some_iff he
  inside e he f hf h := (nested_of_mem_table hnested hf).1 _ (code_mem_children he hf h).2
  apart d hd e he f hf hdf hef hne := by
    have hsymm : Std.Symm fun c d : NumberedCode => Span.Apart c.info.2.span d.info.2.span :=
      ⟨fun _ _ h => h.symm⟩
    refine (nested_of_mem_table hnested hf).2.forall (code_mem_children hd hf hdf).2
      (code_mem_children he hf hef).2 ?_
    intro hcode
    exact hne (congrArg (·.info.1) hcode)

def StepDown (es : List Entry) (n m : Nat) : Prop :=
  ∃ e ∈ es, e.id = n ∧ m ∈ e.children

def StepUp (es : List Entry) (n m : Nat) : Prop :=
  ∃ e ∈ es, e.id = n ∧ e.parent = some m

def StepIn (es : List Entry) (n m : Nat) : Prop :=
  ∃ e ∈ es, e.id = n ∧ e.node.isParen = true ∧ e.children.head? = some m

namespace WellFormed

variable {es : List Entry}

theorem id_lt_length (h : WellFormed es) {e : Entry} (he : e ∈ es) : e.id < es.length := by
  obtain ⟨n, hn⟩ := List.mem_iff_getElem?.mp he
  rw [h.numbered n e hn]
  exact (List.getElem?_eq_some_iff.mp hn).1

/-- A walk over children ends, whichever children it takes. -/
theorem wellFounded_stepDown (h : WellFormed es) : WellFounded fun m n => StepDown es n m := by
  refine Subrelation.wf ?_ Nat.lt_wfRel.wf
  rintro m n ⟨e, he, rfl, hm⟩
  exact h.smaller e he m hm

/-- A walk over parents ends. -/
theorem wellFounded_stepUp (h : WellFormed es) : WellFounded fun m n => StepUp es n m := by
  refine Subrelation.wf ?_ (measure fun n => es.length - n).wf
  rintro m n ⟨e, he, rfl, hm⟩
  obtain ⟨f, hf, rfl, hmem⟩ := (h.linked e he m).mp hm
  have hlt := h.smaller f hf e.id hmem
  have hbound := h.id_lt_length hf
  change es.length - f.id < es.length - e.id
  omega

end WellFormed

/-- The walk out of all parentheses ends at the node that the entry gives for it. -/
theorem unparen_eq {codes : List Code} {e : Entry} (he : e ∈ table codes) :
    Relation.ReflTransGen (StepIn (table codes)) e.id e.unparen ∧
      ∀ m, ¬ StepIn (table codes) e.unparen m := by
  obtain ⟨parent, code⟩ := e
  -- induction on the code, with one step for each pair of parentheses
  induction code using Tree.inductionOn generalizing parent with
  | h i cs ih =>
    have halone : ∀ m, StepIn (table codes) i.1 m → i.2.isParen = true ∧ ∃ c ds, cs = c :: ds := by
      rintro m ⟨f, hf, hid, hparen, hhead⟩
      have heq := eq_of_id hf he hid
      subst heq
      refine ⟨hparen, ?_⟩
      cases cs with
      | nil => simp [Entry.children] at hhead
      | cons c ds => exact ⟨c, ds, rfl⟩
    rw [Entry.unparen, skip]
    by_cases hparen : i.2.isParen = true
    · rw [if_pos hparen]
      cases cs with
      | nil =>
        refine ⟨.refl, fun m hm => ?_⟩
        obtain ⟨-, c, ds, hcs⟩ := halone m hm
        exact absurd hcs (by simp)
      | cons c ds =>
        have hc : c ∈ c :: ds := List.mem_cons_self ..
        obtain ⟨hreach, hend⟩ := ih c hc _ (child_mem_table he hc)
        exact ⟨.head ⟨_, he, rfl, hparen, rfl⟩ hreach, hend⟩
    · rw [if_neg hparen]
      exact ⟨.refl, fun m hm => hparen (halone m hm).1⟩

end Code

namespace Decl

theorem mem_codesOf {c : Code} {ds : List Decl} : c ∈ codesOf ds ↔ ∃ d ∈ ds, c ∈ codes d := by
  induction ds with
  | nil => simp [codesOf]
  | cons d ds ih => simp [codesOf, ih]

theorem codesOf_nest (segments : List String) (ds : List Decl) :
    codesOf (nest segments ds) = codesOf ds := by
  have nested : ∀ segments : List String, codesOf
      (segments.foldr (fun name inner => [.space (some name) inner]) ds) = codesOf ds := by
    intro segments
    induction segments with
    | nil => rfl
    | cons s segments ih => simpa [codesOf, codes] using ih
  cases segments with
  | nil => simp [nest, codesOf, codes]
  | cons s segments => exact nested (s :: segments)

mutual

theorem mem_of_functionDeclarator {s : ParseTree} : (t : ParseTree) →
    functionDeclarator t = some s → s ∈ subtrees t
  | .node i cs, h => by
    rw [functionDeclarator] at h
    rw [mem_subtrees_node, ← mem_subtreesOf]
    cases hk : DeclaratorStep.ofKind i.kind with
    | function =>
      simp only [hk] at h
      split at h
      · split at h
        · exact absurd h (by simp)
        · exact Or.inl (Option.some.inj h).symm
      · exact absurd h (by simp)
    | pointer =>
      simp only [hk] at h
      exact Or.inr (mem_of_functionInDeclarator cs h)
    | reference | attributed =>
      simp only [hk] at h
      exact Or.inr (mem_of_functionInNamed cs h)
    | _ => simp [hk] at h

theorem mem_of_functionInDeclarator {s : ParseTree} : (cs : List ParseTree) →
    functionInDeclarator cs = some s → s ∈ subtreesOf cs
  | [], h => by simp [functionInDeclarator] at h
  | c :: cs, h => by
    rw [functionInDeclarator] at h
    rw [subtreesOf, List.mem_append]
    split at h
    · exact Or.inl (mem_of_functionDeclarator c h)
    · exact Or.inr (mem_of_functionInDeclarator cs h)

theorem mem_of_functionInNamed {s : ParseTree} : (cs : List ParseTree) →
    functionInNamed cs = some s → s ∈ subtreesOf cs
  | [], h => by simp [functionInNamed] at h
  | c :: cs, h => by
    rw [functionInNamed] at h
    rw [subtreesOf, List.mem_append]
    split at h
    · exact Or.inl (mem_of_functionDeclarator c h)
    · exact Or.inr (mem_of_functionInNamed cs h)

end

def ReadIn (source : List Char) (t : ParseTree) (c : Code) : Prop :=
  ∃ role, ∃ v ∈ descendants t, c = Code.read source role v

theorem ReadIn.up {source : List Char} {t v : ParseTree} {c : Code} (h : ReadIn source v c)
    (hv : v ∈ descendants t) : ReadIn source t c := by
  obtain ⟨role, w, hw, hc⟩ := h
  exact ⟨role, w, descendants_trans hw hv, hc⟩

/-- The default values of the parameters of a function. -/
theorem readIn_of_mem_params {source : List Char} {t declarator signature : ParseTree}
    (hdeclarator : declarator ∈ t.children) (hsig : functionDeclarator declarator = some signature)
    {c : Code} (hc : c ∈ Binding.inits (Code.readParamsField source signature.children)) :
    ReadIn source t c := by
  rw [Code.inits_readParamsField] at hc
  obtain ⟨v, hv, rfl⟩ := List.mem_map.mp hc
  cases hlist : field? "parameters" signature.children with
  | none => simp [hlist] at hv
  | some list =>
    simp only [hlist, Option.map_some, Option.getD_some] at hv
    obtain ⟨param, hparam, hval⟩ := List.mem_filterMap.mp hv
    have hsigt : signature ∈ descendants t :=
      mem_descendants.mpr ⟨declarator, hdeclarator, mem_of_functionDeclarator _ hsig⟩
    have hlistt : list ∈ descendants t :=
      descendants_trans (child_mem_descendants (field?_mem hlist)) hsigt
    have hparamt : param ∈ descendants t :=
      descendants_trans (child_mem_descendants hparam) hlistt
    exact ⟨.initializer, v,
      descendants_trans (child_mem_descendants (Code.defaultValue_mem hval)) hparamt, rfl⟩

theorem readIn_readFunction {source : List Char} {scope : List String} {owner : Option String}
    {t : ParseTree} {f : Function} (h : readFunction source scope owner t = some f) {c : Code}
    (hc : c ∈ codes (.function f)) : ReadIn source t c := by
  unfold readFunction at h
  obtain ⟨declarator, hdeclarator, h⟩ := Option.bind_eq_some_iff.mp h
  obtain ⟨signature, hsig, h⟩ := Option.bind_eq_some_iff.mp h
  obtain ⟨g, hg, h⟩ := Option.bind_eq_some_iff.mp h
  simp only [Option.pure_def, Option.some.injEq] at h
  rw [← h, codes, List.mem_append, (readPrototype_parts hg).1, Code.readField_eq,
    Option.mem_toList, Option.map_eq_some_iff] at hc
  rcases hc with hc | ⟨v, hv, rfl⟩
  · exact readIn_of_mem_params (field?_mem hdeclarator) hsig hc
  · exact ⟨.body, v, child_mem_descendants (field?_mem hv), rfl⟩

theorem readIn_readDeclarator {source : List Char} {scope : List String}
    {t declarator : ParseTree} (hdeclarator : declarator ∈ t.children) {d : Decl}
    (hd : d ∈ readDeclarator source scope t declarator) {c : Code} (hc : c ∈ codes d) :
    ReadIn source t c := by
  unfold readDeclarator at hd
  split at hd
  · rename_i signature hsig
    obtain ⟨f, hf, rfl⟩ := Option.map_eq_some_iff.mp (Option.mem_toList.mp hd)
    obtain ⟨hparams, hbody⟩ := readPrototype_parts hf
    rw [codes, hparams, hbody, Option.toList_none, List.append_nil] at hc
    exact readIn_of_mem_params hdeclarator hsig hc
  · obtain ⟨b, hb, rfl⟩ := Option.map_eq_some_iff.mp (Option.mem_toList.mp hd)
    rw [codes, Option.mem_toList] at hc
    have hinit : Code.readValue source
        (Code.readField source .initializer "value" t.children) declarator = some c := by
      unfold Declared.bind? at hb
      obtain ⟨name, -, rfl⟩ := Option.map_eq_some_iff.mp hb
      exact hc
    have hcases := Code.readValue_cases source
      (Code.readField source .initializer "value" t.children) declarator
    rcases hcases with hown | hnone | ⟨v, hv, hread⟩
    · rw [hown, Code.readField_eq, Option.map_eq_some_iff] at hinit
      obtain ⟨v, hv, rfl⟩ := hinit
      exact ⟨.initializer, v, child_mem_descendants (field?_mem hv), rfl⟩
    · exact absurd (hnone.symm.trans hinit) (by simp)
    · rw [hread, Option.some.injEq] at hinit
      exact ⟨.initializer, v, descendants_trans hv (child_mem_descendants hdeclarator), hinit.symm⟩

/-- All code of the declarations that are read comes from below the tree. -/
theorem kept_readIn (source : List Char) :
    Kept source fun _ t _ ds => ∀ c ∈ codesOf ds, ReadIn source t c where
  up hv h c hc := (h c hc).up hv
  children hl hg c hc := by
    obtain ⟨d, hd, hcd⟩ := mem_codesOf.mp hc
    obtain ⟨v, hv, hdv⟩ := List.mem_flatMap.mp hd
    exact (hg v hv c (mem_codesOf.mpr ⟨d, hdv, hcd⟩)).up (child_mem_descendants (hl.subset hv))
  methods _ h := h
  nest h c hc := h c (by rwa [codesOf_nest] at hc)
  record _ _ hof hitems c hc := by
    rw [codesOf, codes, codesOf, List.append_nil, hof.decls_eq] at hc
    obtain ⟨d, hd, hcd⟩ := mem_codesOf.mp hc
    obtain ⟨v, hv, hdv⟩ := List.mem_flatMap.mp hd
    exact (hitems v hv c (mem_codesOf.mpr ⟨d, hdv, hcd⟩)).up
      (descendants_trans (child_mem_descendants (Code.mem_children_of_mem_items hv))
        (child_mem_descendants (field?_mem hof.body_eq)))
  function hf c hc := by
    rw [codesOf, codesOf, List.append_nil] at hc
    exact readIn_readFunction hf hc
  declarators h c hc := by
    obtain ⟨d, hd, hcd⟩ := mem_codesOf.mp hc
    rcases List.mem_append.mp hd with hd | hd
    · exact h c (mem_codesOf.mpr ⟨d, hd, hcd⟩)
    · obtain ⟨declarator, hmem, hdd⟩ := List.mem_flatMap.mp hd
      exact readIn_readDeclarator (List.mem_of_mem_filter hmem) hdd hcd

end Decl

/-- All code of a file of which the tree is tidy is nested. -/
theorem SourceFile.nested_codes (path : String) (source : List Char) {parsed : Parsed}
    (htidy : Tidy parsed.tree) :
    ∀ u ∈ subtreesOf (ofParsed path source parsed).codes, Code.Nested u := by
  intro u hu
  obtain ⟨c, hc, huc⟩ := mem_subtreesOf.mp hu
  obtain ⟨role, v, hv, rfl⟩ := (Decl.kept_readIn source).ofParsed path parsed c hc
  exact Code.nested_read (htidy.of_mem_descendants hv) source role u huc

namespace Code

/-- Reading a tidy tree gives a well-formed table of all its code. So walks over children
and over parents both end, and the walk out of parentheses ends where the entry says. -/
theorem wellFormed_table (path : String) (source : List Char) (parsed : Parsed)
    (htidy : Tidy parsed.tree) :
    let file := SourceFile.ofParsed path source parsed
    let es := table file.codes
    es.map (fun e => e.code.map Prod.snd) = subtreesOf file.codes ∧ WellFormed es ∧
      (WellFounded fun m n => StepDown es n m) ∧ (WellFounded fun m n => StepUp es n m) ∧
      ∀ e ∈ es, Relation.ReflTransGen (StepIn es) e.id e.unparen ∧
        ∀ m, ¬ StepIn es e.unparen m := by
  intro file es
  have hform : WellFormed es := wellFormed_of_nested (SourceFile.nested_codes path source htidy)
  exact ⟨map_code_table file.codes, hform, hform.wellFounded_stepDown, hform.wellFounded_stepUp,
    fun _ he => unparen_eq he⟩

/-- The file with the statement `a.x=(a.x);`. -/
def copyTree : ParseTree :=
  unitTree 39
    [named "expression_statement" 29 39
      [named "assignment_expression" 29 38
        [accessTree "left" 29, mark (some "operator") "=" 32 33,
         filling "right" "parenthesized_expression" 33 38
          [named "field_expression" 34 37
            [filling "argument" "identifier" 34 35 [],
             filling "field" "field_identifier" 36 37 []]]]]]

/-- The parentheses are entry 4 of this table and hold entry 3. -/
theorem wellFormed_table_copy :
    let es := table (SourceFile.ofParsed "F" (unitText "a.x=(a.x);") ⟨copyTree, false⟩).codes
    Tidy copyTree ∧ es.map Entry.parent = [some 1, some 5, some 3, some 4, some 5, some 6,
      some 7, none] ∧ es.map Entry.unparen = [0, 1, 2, 3, 3, 5, 6, 7] ∧ WellFormed es := by
  have htidy : Tidy copyTree := by decide
  exact ⟨htidy, by decide, by decide,
    (wellFormed_table "F" (unitText "a.x=(a.x);") ⟨copyTree, false⟩ htidy).2.1⟩

end Code

end Encapsulate.Cpp
