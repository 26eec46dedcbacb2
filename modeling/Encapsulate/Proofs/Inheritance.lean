import Encapsulate.Cpp.ClassIndex

/-!
Members that a class inherits. A search climbs from a class to its bases, at most sixteen
steps, and keeps no record of where it has been, so a class is searched again on every path
that leads to it. It still finds a member exactly if some class within reach declares one: on a
cycle of bases because the steps are counted, at a common base because the paths to it are
tried one after the other. The class itself comes first, and then its bases in order.
-/

namespace Encapsulate.Cpp.ClassIndex

/-- The record of a class that is so many base steps up from the class of the given name. The
name of a base is resolved in the scope of the record that derives from it. -/
inductive Ancestor (index : ClassIndex) : Nat → String → Record → Prop
  | self {name r} (hr : index.get? name = some r) : Ancestor index 0 name r
  | base {steps name r written next q} (hr : index.get? name = some r)
      (hbase : written ∈ r.bases) (hnext : index.resolveType written r.scope = some next)
      (hq : Ancestor index steps next q) : Ancestor index (steps + 1) name q

/-- `found` is what a class and those at most `limit` base steps up from it give, where `pick`
is what one record declares. -/
structure Inherits {α : Type} (index : ClassIndex) (pick : Record → Option α) (limit : Nat)
    (name : String) (found : Option (Record × α)) : Prop where
  /-- It is declared by the record with which it is found, and this record is within reach. -/
  sound : ∀ r a, found = some (r, a) → pick r = some a ∧ ∃ n ≤ limit, Ancestor index n name r
  /-- What the class itself declares comes before all that it inherits. -/
  own : ∀ r a, index.get? name = some r → pick r = some a → found = some (r, a)
  /-- Nothing is found only if nothing within reach declares it. -/
  complete : found = none → ∀ n ≤ limit, ∀ r, Ancestor index n name r → pick r = none
  /-- What is inherited comes from the first base below which something is within reach. -/
  first : ∀ r, index.get? name = some r → pick r = none → found.isSome = true →
    ∃ before written after next, r.bases = before ++ written :: after ∧
      index.resolveType written r.scope = some next ∧
      found = index.search pick (limit - 1) next ∧
      ∀ earlier ∈ before, ∀ other, index.resolveType earlier r.scope = some other →
        ∀ n < limit, ∀ q, Ancestor index n other q → pick q = none

section Searching

variable {α : Type} {index : ClassIndex} {pick : Record → Option α} {limit : Nat}
  {name : String} {r : Record}

def searchBases (index : ClassIndex) (pick : Record → Option α) :
    Nat → Record → Option (Record × α)
  | 0, _ => none
  | rest + 1, r => r.bases.findSome? fun written =>
    (index.resolveType written r.scope).bind (index.search pick rest)

/-- A search looks into the record of the class and then below its bases. -/
theorem search_of_get? (hr : index.get? name = some r) :
    index.search pick limit name =
      ((pick r).map (r, ·)).or (index.searchBases pick limit r) := by
  rw [search, hr]
  cases hpick : pick r with
  | some a => simp only [hpick, Option.map_some, Option.some_or]
  | none =>
    simp only [hpick, Option.map_none, Option.none_or]
    cases limit <;> rfl

theorem search_of_unknown (hnone : index.get? name = none) :
    index.search pick limit name = none := by
  cases limit <;> simp [search, hnone]

/-- The base that gives something, and those before it, which give nothing. -/
theorem exists_of_searchBases {found : Record × α}
    (h : index.searchBases pick limit r = some found) :
    ∃ before written after next, r.bases = before ++ written :: after ∧
      index.resolveType written r.scope = some next ∧ 0 < limit ∧
      index.search pick (limit - 1) next = some found ∧
      ∀ earlier ∈ before, ∀ other, index.resolveType earlier r.scope = some other →
        index.search pick (limit - 1) other = none := by
  cases limit with
  | zero => exact absurd h (by simp [searchBases])
  | succ rest =>
    obtain ⟨before, written, after, hbases, hfound, hbefore⟩ := List.findSome?_eq_some_iff.mp h
    obtain ⟨next, hnext, hsearch⟩ := Option.bind_eq_some_iff.mp hfound
    refine ⟨before, written, after, next, hbases, hnext, Nat.succ_pos rest, hsearch, ?_⟩
    intro earlier hearlier other hother
    have hnothing := hbefore earlier hearlier
    rwa [hother, Option.bind_some] at hnothing

theorem search_sound {a : α} (h : index.search pick limit name = some (r, a)) :
    pick r = some a ∧ ∃ n ≤ limit, index.Ancestor n name r := by
  induction limit using Nat.strongRecOn generalizing name with
  | ind limit ih =>
    cases hq : index.get? name with
    | none => exact absurd h (by simp [search_of_unknown hq])
    | some q =>
      rw [search_of_get? hq] at h
      rcases Option.or_eq_some_iff.mp h with hown | ⟨-, hbases⟩
      · obtain ⟨b, hb, heq⟩ := Option.map_eq_some_iff.mp hown
        obtain ⟨rfl, rfl⟩ := Prod.mk.inj heq
        exact ⟨hb, 0, Nat.zero_le limit, .self hq⟩
      · obtain ⟨before, written, after, next, hsplit, hnext, hpos, hsearch, -⟩ :=
          exists_of_searchBases hbases
        obtain ⟨hpick, n, hn, hancestor⟩ := ih (limit - 1) (Nat.sub_one_lt_of_lt hpos) hsearch
        have hwritten : written ∈ q.bases := by simp [hsplit]
        exact ⟨hpick, n + 1, by omega, .base hq hwritten hnext hancestor⟩

/-- A search that fails has looked into every class within its limit: the induction is on the
path to the class, and each step up the path is one step less for the search. -/
theorem search_complete {n : Nat} (hancestor : index.Ancestor n name r) (hn : n ≤ limit)
    (h : index.search pick limit name = none) : pick r = none := by
  induction hancestor generalizing limit with
  | self hr =>
    rw [search_of_get? hr, Option.or_eq_none_iff, Option.map_eq_none_iff] at h
    exact h.1
  | base hr hbase hnext hq ih =>
    rw [search_of_get? hr, Option.or_eq_none_iff] at h
    obtain ⟨rest, rfl⟩ := Nat.exists_eq_add_of_le' (Nat.lt_of_lt_of_le (Nat.succ_pos _) hn)
    have hnothing := List.findSome?_eq_none_iff.mp h.2 _ hbase
    rw [hnext, Option.bind_some] at hnothing
    exact ih (Nat.le_of_succ_le_succ hn) hnothing

theorem search_inherits (index : ClassIndex) (pick : Record → Option α) (limit : Nat)
    (name : String) : index.Inherits pick limit name (index.search pick limit name) where
  sound _ _ h := search_sound h
  own r a hr ha := by rw [search_of_get? hr, ha, Option.map_some, Option.some_or]
  complete h n hn r hancestor := search_complete hancestor hn h
  first r hr hnone hsome := by
    have hbases : index.search pick limit name = index.searchBases pick limit r := by
      rw [search_of_get? hr, hnone, Option.map_none, Option.none_or]
    rw [hbases] at hsome ⊢
    obtain ⟨found, hfound⟩ := Option.isSome_iff_exists.mp hsome
    obtain ⟨before, written, after, next, hsplit, hnext, hpos, hsearch, hbefore⟩ :=
      exists_of_searchBases hfound
    refine ⟨before, written, after, next, hsplit, hnext, hfound.trans hsearch.symm, ?_⟩
    intro earlier hearlier other hother n hn q hancestor
    exact search_complete hancestor (Nat.le_sub_one_of_lt hn)
      (hbefore earlier hearlier other hother)

end Searching

/-- Looking up a field or a method of a class gives the first one of this name that the class
itself declares, or else what the first of its bases gives below which a class declares one, at
most sixteen base steps up; and it gives nothing only if no class within this reach declares
one. This holds for every index, also where bases form a cycle or meet again. -/
theorem lookup_inherits (index : ClassIndex) (name : String) :
    (∀ field, index.Inherits (fun r => r.fields.find? (·.name == field)) 16 name
      (index.lookupField name field)) ∧
    ∀ method, index.Inherits (fun r => r.methods.find? (·.name == method)) 16 name
      (index.lookupMethod name method) :=
  ⟨fun _ => search_inherits index _ maxBaseSteps name,
    fun _ => search_inherits index _ maxBaseSteps name⟩

end Encapsulate.Cpp.ClassIndex
