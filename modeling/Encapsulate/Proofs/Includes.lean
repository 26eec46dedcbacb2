import Encapsulate.Proofs.Spellings
import Mathlib.Data.List.Forall2
import Mathlib.Logic.Relation

/-!
The search for headers as a loop. Each turn takes up one include, and a header that is read
adds its own includes at the end. Files are told apart by their locations, and the loop is
compared with the graph of locations in which a file leads to what its includes find: what is
found stands in the order of its distance from the file the search starts with, and a loop that
runs out of includes has found every text file that can be reached. For this no include may be
too long a path when it is asked for beside the file that holds it. A header is known by its
location but its includes are looked up from the path under which it was found first, and
behind a long path nothing is found.
-/

namespace Encapsulate

open Cpp

def Disk.textAt? (disk : Disk) (loc : Location) : Option String :=
  match disk.get? loc with
  | some (.file content) => String.fromUTF8? content
  | _ => none

theorem Disk.toOption_readText {disk : Disk} {path : String} {loc : Location}
    (h : disk.fileAt? path = some loc) :
    (disk.readText path).toOption = disk.textAt? loc := by
  obtain ⟨hresolve, hfile⟩ := fileAt?_eq_some_iff.mp h
  obtain ⟨content, hget⟩ := holdsFile_iff.mp hfile
  have hread : disk.readBytes path = .ok content := by
    simp [readBytes, find, hresolve, hget, Except.bind]
  simp only [readText, hread, textAt?, hget, Except.bind]
  cases String.fromUTF8? content <;> rfl

namespace HeaderSearch

/-! Files and what they lead to -/

def includesOf (search : HeaderSearch) (text : String) : List String :=
  includesOfItems text.toList (search.parse text).tree.children

/-- The file that an include finds: the first one among the file beside the one that holds the
include, if there is one, and those in the include directories. -/
def included? (search : HeaderSearch) (beside : Option Location) (target : String) :
    Option Location :=
  (beside :: search.includeDirs.map fun dir => search.disk.fileAt? (Path.join dir target)).findSome?
    id

theorem included?_of_beside {search : HeaderSearch} {beside : Option Location} {loc : Location}
    {target : String} (h : beside = some loc) : search.included? beside target = some loc := by
  rw [included?, List.findSome?_cons, h]
  rfl

/-- A text file other than the one at a path. -/
structure IsHeader (search : HeaderSearch) (path : String) (loc : Location) : Prop where
  isText : ∃ text, search.disk.textAt? loc = some text
  other : search.disk.identity path ≠ .known loc

/-- The headers that can be reached from a file with a given number of includes. -/
inductive Reaches (search : HeaderSearch) (path source : String) : Nat → Location → Prop
  | direct {target : String} {loc : Location} (htarget : target ∈ search.includesOf source)
      (hloc : search.included? (search.disk.fileAt? (Path.join (Path.parent path) target))
        target = some loc)
      (hheader : search.IsHeader path loc) : Reaches search path source 1 loc
  | through {n : Nat} {loc next : Location} {text target : String}
      (h : Reaches search path source n loc) (htext : search.disk.textAt? loc = some text)
      (htarget : target ∈ search.includesOf text)
      (hnext : search.included? (search.disk.fileFrom? loc.dropLast target) target = some next)
      (hheader : search.IsHeader path next) : Reaches search path source (n + 1) next

/-- The least number of includes with which a header is reached. -/
structure IsDistance (search : HeaderSearch) (path source : String) (loc : Location) (n : Nat) :
    Prop where
  reaches : search.Reaches path source n loc
  least : ∀ m, search.Reaches path source m loc → n ≤ m

theorem IsDistance.unique {search : HeaderSearch} {path source : String} {loc : Location}
    {m n : Nat} (hm : search.IsDistance path source loc m)
    (hn : search.IsDistance path source loc n) : m = n :=
  Nat.le_antisymm (hm.least n hn.reaches) (hn.least m hm.reaches)

def Short (files : List SourceFile) : Prop :=
  ∀ f ∈ files, ∀ target ∈ f.includes, Path.isAbsolute target = false →
    (Path.join (Path.parent f.path) target).utf8ByteSize ≤ maxPathBytes

/-! The loop -/

/-- What the search has at the start of a turn. -/
structure Progress where
  found : List SourceFile
  visited : List Disk.Identity
  pending : List IncludeRequest

def start (search : HeaderSearch) (path source : String) : Progress :=
  ⟨[], [search.disk.identity path],
    IncludeRequest.ofFile (.ofParsed path source.toList (search.parse source))⟩

/-- One turn, unless the includes are used up or no further header is wanted. -/
def turn? (search : HeaderSearch) (p : Progress) : Option Progress :=
  match p.pending with
  | [] => none
  | r :: rest =>
    if maxHeaders ≤ p.found.length then none
    else
      match r.resolve? search.disk search.includeDirs with
      | none => some { p with pending := rest }
      | some path =>
        if p.visited.contains (search.disk.identity path) then some { p with pending := rest }
        else
          match search.disk.readText path with
          | .error _ =>
            some { p with visited := search.disk.identity path :: p.visited, pending := rest }
          | .ok text =>
            let header := SourceFile.ofParsed path text.toList (search.parse text)
            some ⟨p.found ++ [header], search.disk.identity path :: p.visited,
              rest ++ IncludeRequest.ofFile header⟩

def Turns (search : HeaderSearch) (p q : Progress) : Prop :=
  search.turn? p = some q

def Runs (search : HeaderSearch) : Progress → Progress → Prop :=
  Relation.ReflTransGen search.Turns

theorem turn?_eq_none_iff {search : HeaderSearch} {p : Progress} :
    search.turn? p = none ↔ p.pending = [] ∨ maxHeaders ≤ p.found.length := by
  unfold turn?
  split
  · rename_i hpending
    simp [hpending]
  · rename_i r rest hpending
    split
    · rename_i hfull
      simp [hfull]
    · rename_i hroom
      have hnot : ¬ (p.pending = [] ∨ maxHeaders ≤ p.found.length) := by simp [hpending, hroom]
      refine iff_of_false ?_ hnot
      split
      · simp
      · split
        · simp
        · split <;> simp

def asked? (search : HeaderSearch) (r : IncludeRequest) : Option Location :=
  search.included? (search.disk.fileAt? (Path.join r.dir r.target)) r.target

theorem findSome?_of_find? {α β : Type} {p : α → Bool} {f : α → Option β}
    (h : ∀ a, p a = (f a).isSome) (as : List α) : (as.find? p).bind f = as.findSome? f := by
  induction as with
  | nil => rfl
  | cons a as ih =>
    rw [List.find?_cons, List.findSome?_cons, h a]
    cases hf : f a with
    | none => simpa using ih
    | some b => simpa using hf

theorem fileAt?_resolve? (search : HeaderSearch) (r : IncludeRequest) :
    (r.resolve? search.disk search.includeDirs).bind search.disk.fileAt? = search.asked? r := by
  rw [IncludeRequest.resolve?, findSome?_of_find? (search.disk.isFile_eq), asked?, included?,
    List.map_cons, List.findSome?_cons, List.findSome?_cons, List.findSome?_map,
    List.findSome?_map]
  rfl

/-- What one turn can do. -/
inductive TurnCases (search : HeaderSearch) (p : Progress) (r : IncludeRequest)
    (rest : List IncludeRequest) : Progress → Prop
  /-- Nothing is found, or nothing new. -/
  | passed (h : ∀ loc, search.asked? r = some loc → .known loc ∈ p.visited) :
      TurnCases search p r rest ⟨p.found, p.visited, rest⟩
  | unreadable {loc : Location} (hloc : search.asked? r = some loc)
      (hnew : .known loc ∉ p.visited) (htext : search.disk.textAt? loc = none) :
      TurnCases search p r rest ⟨p.found, .known loc :: p.visited, rest⟩
  | read {loc : Location} {path text : String} (hloc : search.asked? r = some loc)
      (hnew : .known loc ∉ p.visited) (htext : search.disk.textAt? loc = some text)
      (hpath : search.disk.fileAt? path = some loc) :
      TurnCases search p r rest
        ⟨p.found ++ [.ofParsed path text.toList (search.parse text)], .known loc :: p.visited,
          rest ++ IncludeRequest.ofFile (.ofParsed path text.toList (search.parse text))⟩

theorem turn_cases {search : HeaderSearch} {p q : Progress} (h : search.Turns p q) :
    ∃ r rest, p.pending = r :: rest ∧ p.found.length < maxHeaders ∧
      search.TurnCases p r rest q := by
  unfold Turns turn? at h
  split at h
  · exact absurd h (by simp)
  · rename_i r rest hpending
    split at h
    · exact absurd h (by simp)
    · rename_i hroom
      refine ⟨r, rest, hpending, Nat.lt_of_not_le hroom, ?_⟩
      have hasked := search.fileAt?_resolve? r
      split at h
      · rename_i hnone
        rw [hnone] at hasked
        rw [← Option.some.inj h]
        exact .passed fun loc hloc => by simp [← hasked] at hloc
      · rename_i path hpath
        rw [hpath, Option.bind_some] at hasked
        obtain ⟨loc, hloc⟩ : ∃ loc, search.disk.fileAt? path = some loc := by
          have hfile := List.find?_some hpath
          rw [Disk.isFile_eq] at hfile
          exact Option.isSome_iff_exists.mp hfile
        have htext := Disk.toOption_readText hloc
        rw [Disk.identity_of_fileAt? hloc] at h
        rw [hloc] at hasked
        split at h
        · rename_i hknown
          rw [← Option.some.inj h]
          refine .passed fun other hother => ?_
          rw [← hasked] at hother
          rw [← Option.some.inj hother]
          simpa using hknown
        · rename_i hnew
          have hnew : .known loc ∉ p.visited := by simpa using hnew
          split at h
          · rename_i e hread
            rw [← Option.some.inj h]
            rw [hread] at htext
            exact .unreadable hasked.symm hnew htext.symm
          · rename_i text hread
            rw [← Option.some.inj h]
            rw [hread] at htext
            exact .read hasked.symm hnew htext.symm hloc

/-- No endless run: each turn adds a header, and there is room for `maxHeaders` only, or uses up
an include. -/
theorem wellFounded_turns (search : HeaderSearch) :
    WellFounded fun after before => search.Turns before after := by
  refine Subrelation.wf ?_ (InvImage.wf
    (fun p : Progress => (maxHeaders - p.found.length, p.pending.length))
    (Prod.lex Nat.lt_wfRel Nat.lt_wfRel).wf)
  intro after before h
  obtain ⟨r, rest, hpending, hroom, hcases⟩ := turn_cases h
  cases hcases with
  | passed _ =>
    refine Prod.Lex.right _ ?_
    show rest.length < before.pending.length
    rw [hpending]
    exact Nat.lt_succ_self _
  | unreadable _ _ _ =>
    refine Prod.Lex.right _ ?_
    show rest.length < before.pending.length
    rw [hpending]
    exact Nat.lt_succ_self _
  | read _ _ _ _ =>
    refine Prod.Lex.left _ _ ?_
    show maxHeaders - (before.found ++ [_]).length < maxHeaders - before.found.length
    rw [List.length_append, List.length_singleton]
    omega

theorem gather_nil (search : HeaderSearch) (room : Nat) (visited : List Disk.Identity) :
    search.gather room visited [] = [] := by
  cases room <;> rfl

theorem gather_succ (search : HeaderSearch) (room : Nat) (visited : List Disk.Identity)
    (requests : List IncludeRequest) :
    search.gather (room + 1) visited requests =
      match search.next? visited requests with
      | none => []
      | some (header, visited, rest) =>
        header :: search.gather room visited (rest ++ IncludeRequest.ofFile header) :=
  rfl

-- unfolding must not look into the paths of a request
attribute [local irreducible] IncludeRequest.resolve? in
theorem next?_cons (search : HeaderSearch) (visited : List Disk.Identity) (r : IncludeRequest)
    (rest : List IncludeRequest) :
    search.next? visited (r :: rest) =
      match r.resolve? search.disk search.includeDirs with
      | none => search.next? visited rest
      | some path =>
        if visited.contains (search.disk.identity path) then search.next? visited rest
        else
          match search.disk.readText path with
          | .error _ => search.next? (search.disk.identity path :: visited) rest
          | .ok text => some (SourceFile.ofParsed path text.toList (search.parse text),
              search.disk.identity path :: visited, rest) :=
  rfl

def outcome (search : HeaderSearch) (p : Progress) : List SourceFile :=
  p.found ++ search.gather (maxHeaders - p.found.length) p.visited p.pending

theorem headers_load (search : HeaderSearch) (path source : String) :
    (search.load path source).headers = search.outcome (search.start path source) :=
  rfl

theorem outcome_of_turn {search : HeaderSearch} {p q : Progress} (h : search.Turns p q) :
    search.outcome q = search.outcome p := by
  unfold Turns turn? at h
  split at h
  · exact absurd h (by simp)
  · rename_i r rest hpending
    split at h
    · exact absurd h (by simp)
    · rename_i hroom
      obtain ⟨room, hrest⟩ : ∃ room, maxHeaders - p.found.length = room + 1 :=
        ⟨maxHeaders - p.found.length - 1, by omega⟩
      unfold outcome
      rw [hpending, hrest, gather_succ, next?_cons]
      -- one header is taken off the room that is left only where one is found
      split at h
      · obtain rfl := Option.some.inj h
        rw [hrest, gather_succ]
      · rename_i path hpath
        split at h
        · rename_i hknown
          obtain rfl := Option.some.inj h
          simp only [hrest, gather_succ, hknown, if_true]
        · rename_i hnew
          split at h
          · obtain rfl := Option.some.inj h
            simp only [hrest, gather_succ, hnew, if_false, Bool.false_eq_true]
          · obtain rfl := Option.some.inj h
            have hroom' : maxHeaders - (p.found.length + 1) = room := by omega
            simp only [hnew, if_false, Bool.false_eq_true, List.length_append,
              List.length_singleton, hroom', List.append_assoc, List.singleton_append]

theorem outcome_of_runs {search : HeaderSearch} {p q : Progress} (h : search.Runs p q) :
    search.outcome q = search.outcome p := by
  induction h with
  | refl => rfl
  | tail _ hturn ih => rw [outcome_of_turn hturn, ih]

theorem outcome_of_end {search : HeaderSearch} {p : Progress} (h : search.turn? p = none) :
    search.outcome p = p.found := by
  unfold outcome
  rcases turn?_eq_none_iff.mp h with hpending | hfull
  · rw [hpending, gather_nil, List.append_nil]
  · rw [Nat.sub_eq_zero_of_le hfull]
    exact List.append_nil _

theorem exists_end (search : HeaderSearch) (p : Progress) :
    ∃ last, search.Runs p last ∧ search.turn? last = none := by
  induction p using search.wellFounded_turns.induction with
  | _ p ih =>
    cases hturn : search.turn? p with
    | none => exact ⟨p, .refl, hturn⟩
    | some q =>
      obtain ⟨last, hruns, hend⟩ := ih q hturn
      exact ⟨last, .head hturn hruns, hend⟩

/-! What a run keeps -/

section

variable {search : HeaderSearch} {path source : String} {p q : Progress}

def Found (search : HeaderSearch) (p : Progress) (loc : Location) : Prop :=
  ∃ f ∈ p.found, search.disk.fileAt? f.path = some loc

/-- What is known of the files found and visited, whatever the paths. -/
structure Sound (search : HeaderSearch) (path : String) (p : Progress) : Prop where
  room : p.found.length ≤ maxHeaders
  marked : ∀ i ∈ search.disk.identity path :: p.found.map (search.disk.identity ·.path),
    i ∈ p.visited
  distinct : (search.disk.identity path :: p.found.map (search.disk.identity ·.path)).Nodup
  read : ∀ f ∈ p.found, ∃ loc text, search.disk.fileAt? f.path = some loc ∧
    search.disk.textAt? loc = some text ∧ f = .ofParsed f.path text.toList (search.parse text)
  visited : ∀ loc, .known loc ∈ p.visited → search.IsHeader path loc → search.Found p loc

theorem sound_start (search : HeaderSearch) (path source : String) :
    search.Sound path (search.start path source) where
  room := Nat.zero_le _
  marked := by simp [start]
  distinct := by simp [start]
  read := by simp [start]
  visited := by
    intro loc hloc hheader
    exact absurd (List.mem_singleton.mp hloc).symm hheader.other

theorem Sound.turn (h : search.Sound path p) (hturn : search.Turns p q) :
    search.Sound path q := by
  obtain ⟨r, rest, -, hroom, hcases⟩ := turn_cases hturn
  cases hcases with
  | passed _ => exact ⟨h.room, h.marked, h.distinct, h.read, h.visited⟩
  | @unreadable loc hloc hnew htext =>
    refine ⟨h.room, fun i hi => List.mem_cons_of_mem _ (h.marked i hi), h.distinct, h.read, ?_⟩
    intro other hother hheader
    rcases List.mem_cons.mp hother with heq | hother
    · obtain ⟨text, hsome⟩ := hheader.isText
      rw [Disk.Identity.known.inj heq, htext] at hsome
      exact absurd hsome (by simp)
    · exact h.visited other hother hheader
  | @read loc hpath text hloc hnew htext hfile =>
    have hidentity := Disk.identity_of_fileAt? hfile
    have hmarked := h.marked
    have hdistinct := h.distinct
    refine ⟨?_, ?_, ?_, ?_, ?_⟩
    · rw [List.length_append, List.length_singleton]
      exact hroom
    · intro i hi
      rw [List.map_append, ← List.cons_append] at hi
      rcases List.mem_append.mp hi with hi | hi
      · exact List.mem_cons_of_mem _ (hmarked i hi)
      · rw [List.mem_singleton.mp hi]
        exact List.mem_cons.mpr (Or.inl hidentity)
    · rw [List.map_append, ← List.cons_append]
      refine List.nodup_append.mpr ⟨hdistinct, by simp, ?_⟩
      intro i hi j hj heq
      rw [List.mem_singleton.mp hj] at heq
      change i = search.disk.identity hpath at heq
      rw [heq, hidentity] at hi
      exact hnew (hmarked _ hi)
    · intro f hf
      rcases List.mem_append.mp hf with hf | hf
      · exact h.read f hf
      · rw [List.mem_singleton.mp hf]
        exact ⟨loc, text, hfile, htext, rfl⟩
    · intro other hother hheader
      rcases List.mem_cons.mp hother with heq | hother
      · rw [Disk.Identity.known.inj heq]
        exact ⟨_, List.mem_append_right _ (List.mem_singleton_self _), hfile⟩
      · obtain ⟨f, hf, hat⟩ := h.visited other hother hheader
        exact ⟨f, List.mem_append_left _ hf, hat⟩

theorem Sound.runs (h : search.Sound path p) (hruns : search.Runs p q) : search.Sound path q := by
  induction hruns with
  | refl => exact h
  | tail _ hturn ih => exact ih.turn hturn

/-- The files that the file the search starts with and the headers found lead to, with the
distance of the file that holds the include. -/
inductive LeadsTo (search : HeaderSearch) (path source : String) (p : Progress) :
    Nat → Location → Prop
  | direct {target : String} {next : Location} (htarget : target ∈ search.includesOf source)
      (hnext : search.included? (search.disk.fileAt? (Path.join (Path.parent path) target))
        target = some next) : LeadsTo search path source p 0 next
  | through {n : Nat} {loc next : Location} {text target : String} (hfound : search.Found p loc)
      (hdistance : search.IsDistance path source loc n)
      (htext : search.disk.textAt? loc = some text) (htarget : target ∈ search.includesOf text)
      (hnext : search.included? (search.disk.fileFrom? loc.dropLast target) target = some next) :
      LeadsTo search path source p n next

/-- The includes still open are of two layers: those of files at distance `k`, then those of
files one include further. -/
structure Layered (search : HeaderSearch) (path source : String) (p : Progress) (k : Nat)
    (now later : List IncludeRequest) : Prop where
  pending : p.pending = now ++ later
  ordered : ∃ levels : List Nat,
    List.Forall₂ (fun f n => ∃ loc, search.disk.fileAt? f.path = some loc ∧
      search.IsDistance path source loc n) p.found levels ∧
    levels.Pairwise (· ≤ ·) ∧ ∀ n ∈ levels, n ≤ k + 1
  finds_now : ∀ r ∈ now, ∀ loc, search.asked? r = some loc → search.IsHeader path loc →
    search.Reaches path source (k + 1) loc
  finds_later : ∀ r ∈ later, ∀ loc, search.asked? r = some loc → search.IsHeader path loc →
    search.Reaches path source (k + 2) loc
  settled : ∀ n next, search.LeadsTo path source p n next → search.IsHeader path next →
    search.Found p next ∨ (n = k ∧ ∃ r ∈ now, search.asked? r = some next) ∨
      (n = k + 1 ∧ ∃ r ∈ later, search.asked? r = some next)

theorem layered_start (search : HeaderSearch) (path source : String) :
    search.Layered path source (search.start path source) 0 (search.start path source).pending
      [] where
  pending := (List.append_nil _).symm
  ordered := ⟨[], .nil, .nil, by simp⟩
  finds_now := by
    intro r hr loc hloc hheader
    obtain ⟨target, htarget, rfl⟩ := List.mem_map.mp hr
    exact .direct htarget hloc hheader
  finds_later := by simp
  settled := by
    intro n next hleads _
    cases hleads with
    | direct htarget hnext => exact Or.inr (Or.inl ⟨rfl, _, List.mem_map_of_mem htarget, hnext⟩)
    | through hfound => exact absurd hfound (by simp [Found, start])

/-- When the includes of one layer are used up, those of the next one are due. -/
theorem Layered.shift {k : Nat} {later : List IncludeRequest}
    (h : search.Layered path source p k [] later) :
    search.Layered path source p (k + 1) later [] where
  pending := by rw [h.pending, List.nil_append, List.append_nil]
  ordered := by
    obtain ⟨levels, hlevels, hsorted, hbound⟩ := h.ordered
    exact ⟨levels, hlevels, hsorted, fun n hn => Nat.le_succ_of_le (hbound n hn)⟩
  finds_now := h.finds_later
  finds_later := by simp
  settled := by
    intro n next hleads hheader
    rcases h.settled n next hleads hheader with hfound | ⟨-, r, hr, -⟩ | hlater
    · exact Or.inl hfound
    · exact absurd hr (by simp)
    · exact Or.inr (Or.inl hlater)

theorem Layered.isDistance {k : Nat} {now later : List IncludeRequest} {loc : Location}
    (h : search.Layered path source p k now later) (hfound : search.Found p loc) :
    ∃ n, search.IsDistance path source loc n := by
  obtain ⟨f, hf, hat⟩ := hfound
  obtain ⟨levels, hlevels, -, -⟩ := h.ordered
  generalize p.found = files at hf hlevels
  induction hlevels with
  | nil => exact absurd hf (by simp)
  | @cons g n _ _ hg _ ih =>
    rcases List.mem_cons.mp hf with rfl | hf
    · obtain ⟨other, hother, hdistance⟩ := hg
      rw [hat] at hother
      rw [Option.some.inj hother]
      exact ⟨n, hdistance⟩
    · exact ih hf

/-- A header that can be reached has been found, or the way to it goes through an include that
is still open. -/
theorem Layered.frontier {k m : Nat} {now later : List IncludeRequest} {loc : Location}
    (h : search.Layered path source p k now later) (hreaches : search.Reaches path source m loc) :
    search.Found p loc ∨ k < m ∧ p.pending ≠ [] := by
  have hopen : ∀ {r : IncludeRequest}, r ∈ now ∨ r ∈ later → p.pending ≠ [] := by
    intro r hr
    rw [h.pending]
    exact List.ne_nil_of_mem (List.mem_append.mpr hr)
  induction hreaches with
  | direct htarget hloc hheader =>
    rcases h.settled _ _ (.direct htarget hloc) hheader with
      hfound | ⟨hlevel, r, hr, -⟩ | ⟨hlevel, r, hr, -⟩
    · exact Or.inl hfound
    · exact Or.inr ⟨by omega, hopen (Or.inl hr)⟩
    · exact Or.inr ⟨by omega, hopen (Or.inr hr)⟩
  | @through n loc next text target hreach htext htarget hnext hheader ih =>
    rcases ih with hfound | ⟨hlevel, hpending⟩
    · obtain ⟨j, hdistance⟩ := h.isDistance hfound
      have hj : j ≤ n := hdistance.least n hreach
      rcases h.settled _ _ (.through hfound hdistance htext htarget hnext) hheader with
        hfound | ⟨hlevel, r, hr, -⟩ | ⟨hlevel, r, hr, -⟩
      · exact Or.inl hfound
      · exact Or.inr ⟨by omega, hopen (Or.inl hr)⟩
      · exact Or.inr ⟨by omega, hopen (Or.inr hr)⟩
    · exact Or.inr ⟨by omega, hpending⟩

/-- What a header asks for beside itself is found as from its location. -/
theorem asked?_of_short {files : List SourceFile} {f : SourceFile} {loc : Location}
    {target : String} (hshort : Short files) (hf : f ∈ files)
    (hat : search.disk.fileAt? f.path = some loc) (htarget : target ∈ f.includes) :
    search.asked? ⟨Path.parent f.path, target⟩ =
      search.included? (search.disk.fileFrom? loc.dropLast target) target := by
  obtain ⟨dir, name, hnames, rfl⟩ := Disk.exists_names_of_fileAt? hat
  rw [asked?, Disk.fileAt?_join_parent hnames (hshort f hf target htarget),
    List.dropLast_concat]

theorem LeadsTo.of_found {n : Nat} {next : Location} (h : search.LeadsTo path source q n next)
    (hfound : ∀ loc, search.Found q loc → search.Found p loc) :
    search.LeadsTo path source p n next := by
  cases h with
  | direct htarget hnext => exact .direct htarget hnext
  | through hloc hdistance htext htarget hnext =>
    exact .through (hfound _ hloc) hdistance htext htarget hnext

/-- A turn that finds nothing closes the include it has taken up. -/
theorem Layered.skip {k : Nat} {r : IncludeRequest} {now later : List IncludeRequest}
    (h : search.Layered path source p k (r :: now) later) (hq : q.found = p.found)
    (hpending : q.pending = now ++ later)
    (hr : ∀ loc, search.asked? r = some loc → search.IsHeader path loc → search.Found p loc) :
    search.Layered path source q k now later where
  pending := hpending
  ordered := by rw [hq]; exact h.ordered
  finds_now := fun r hr => h.finds_now r (List.mem_cons_of_mem _ hr)
  finds_later := h.finds_later
  settled := by
    have hsame : ∀ loc, search.Found q loc ↔ search.Found p loc := by
      intro loc
      rw [Found, hq]
      rfl
    intro n next hleads hheader
    rw [hsame]
    rcases h.settled n next (hleads.of_found fun loc => (hsame loc).mp) hheader with
      hfound | ⟨hlevel, r', hr', hasked⟩ | hlater
    · exact Or.inl hfound
    · rcases List.mem_cons.mp hr' with rfl | hr'
      · exact Or.inl (hr next hasked hheader)
      · exact Or.inr (Or.inl ⟨hlevel, r', hr', hasked⟩)
    · exact Or.inr (Or.inr hlater)

/-- A turn that reads a header puts it at the end of its layer. -/
theorem Layered.extend {k : Nat} {r : IncludeRequest} {now later : List IncludeRequest}
    {loc : Location} {f : SourceFile} {text : String}
    (h : search.Layered path source p k (r :: now) later) (hfound : q.found = p.found ++ [f])
    (hpending : q.pending = now ++ (later ++ IncludeRequest.ofFile f))
    (hshort : Short q.found) (hasked : search.asked? r = some loc)
    (hheader : search.IsHeader path loc) (hnew : ¬ search.Found p loc)
    (hat : search.disk.fileAt? f.path = some loc) (htext : search.disk.textAt? loc = some text)
    (hincludes : f.includes = search.includesOf text) :
    search.Layered path source q k now (later ++ IncludeRequest.ofFile f) := by
  have hmem : f ∈ q.found := by
    rw [hfound]
    exact List.mem_append_right _ (List.mem_singleton_self f)
  have hdistance : search.IsDistance path source loc (k + 1) := by
    refine ⟨h.finds_now r List.mem_cons_self loc hasked hheader, ?_⟩
    intro m hm
    rcases h.frontier hm with hloc | ⟨hlevel, -⟩
    · exact absurd hloc hnew
    · exact hlevel
  have hgrows : ∀ other, search.Found p other → search.Found q other := by
    rintro other ⟨g, hg, hother⟩
    rw [Found, hfound]
    exact ⟨g, List.mem_append_left _ hg, hother⟩
  refine ⟨hpending, ?_, fun r hr => h.finds_now r (List.mem_cons_of_mem _ hr), ?_, ?_⟩
  · obtain ⟨levels, hlevels, hsorted, hbound⟩ := h.ordered
    refine ⟨levels ++ [k + 1], ?_, ?_, ?_⟩
    · rw [hfound]
      exact List.rel_append hlevels (.cons ⟨loc, hat, hdistance⟩ .nil)
    · refine List.pairwise_append.mpr ⟨hsorted, List.pairwise_singleton _ _, ?_⟩
      intro m hm n hn
      rw [List.mem_singleton.mp hn]
      exact hbound m hm
    · intro n hn
      rcases List.mem_append.mp hn with hn | hn
      · exact hbound n hn
      · exact Nat.le_of_eq (List.mem_singleton.mp hn)
  · intro r' hr' next hnext hnextHeader
    rcases List.mem_append.mp hr' with hr' | hr'
    · exact h.finds_later r' hr' next hnext hnextHeader
    · obtain ⟨target, htarget, rfl⟩ := List.mem_map.mp hr'
      rw [asked?_of_short hshort hmem hat htarget] at hnext
      rw [hincludes] at htarget
      exact .through hdistance.reaches htext htarget hnext hnextHeader
  · -- an include is one of the new header, or was open or settled before the turn
    intro n next hleads hnextHeader
    by_cases hold : search.LeadsTo path source p n next
    · rcases h.settled n next hold hnextHeader with
        hdone | ⟨hlevel, r', hr', hnext⟩ | ⟨hlevel, r', hr', hnext⟩
      · exact Or.inl (hgrows next hdone)
      · rcases List.mem_cons.mp hr' with rfl | hr'
        · rw [hasked] at hnext
          rw [← Option.some.inj hnext]
          exact Or.inl ⟨f, hmem, hat⟩
        · exact Or.inr (Or.inl ⟨hlevel, r', hr', hnext⟩)
      · exact Or.inr (Or.inr ⟨hlevel, r', List.mem_append_left _ hr', hnext⟩)
    · cases hleads with
      | direct htarget hnext => exact absurd (.direct htarget hnext) hold
      | @through n other next text' target hother hdistance' htext' htarget hnext =>
        obtain ⟨g, hg, hgat⟩ := hother
        rw [hfound] at hg
        rcases List.mem_append.mp hg with hg | hg
        · exact absurd (.through ⟨g, hg, hgat⟩ hdistance' htext' htarget hnext) hold
        · rw [List.mem_singleton.mp hg, hat] at hgat
          obtain rfl := Option.some.inj hgat
          rw [htext] at htext'
          rw [← Option.some.inj htext', ← hincludes] at htarget
          refine Or.inr (Or.inr ⟨hdistance'.unique hdistance, ⟨Path.parent f.path, target⟩, ?_, ?_⟩)
          · exact List.mem_append_right _ (List.mem_map_of_mem htarget)
          · rw [asked?_of_short hshort hmem hat htarget, hnext]

/-- The first include is one of the layer that is due. -/
theorem Layered.exists_due {k : Nat} {r : IncludeRequest} {now later rest : List IncludeRequest}
    (h : search.Layered path source p k now later) (hpending : p.pending = r :: rest) :
    ∃ k now later, search.Layered path source p k (r :: now) later ∧ rest = now ++ later := by
  have hsplit := h.pending
  rw [hpending] at hsplit
  cases now with
  | nil =>
    rw [List.nil_append] at hsplit
    rw [← hsplit] at h
    exact ⟨k + 1, rest, [], h.shift, (List.append_nil _).symm⟩
  | cons r' now =>
    rw [List.cons_append] at hsplit
    obtain ⟨rfl, hrest⟩ := List.cons.inj hsplit
    exact ⟨k, now, later, h, hrest⟩

theorem Layered.turn {k : Nat} {now later : List IncludeRequest}
    (h : search.Layered path source p k now later) (hsound : search.Sound path p)
    (hturn : search.Turns p q) (hshort : Short q.found) :
    ∃ k now later, search.Layered path source q k now later := by
  obtain ⟨r, rest, hpending, -, hcases⟩ := turn_cases hturn
  obtain ⟨k, now, later, h, rfl⟩ := h.exists_due hpending
  cases hcases with
  | passed hvisited =>
    exact ⟨k, now, later, h.skip rfl rfl fun loc hloc hheader =>
      hsound.visited loc (hvisited loc hloc) hheader⟩
  | unreadable hloc _ htext =>
    refine ⟨k, now, later, h.skip rfl rfl ?_⟩
    intro other hother hheader
    obtain ⟨text, hsome⟩ := hheader.isText
    rw [hloc] at hother
    rw [← Option.some.inj hother, htext] at hsome
    exact absurd hsome (by simp)
  | read hloc hnew htext hfile =>
    refine ⟨k, now, _, h.extend rfl (List.append_assoc _ _ _) hshort hloc ⟨⟨_, htext⟩, ?_⟩ ?_
      hfile htext rfl⟩
    · intro heq
      exact hnew (heq ▸ hsound.marked _ List.mem_cons_self)
    · rintro ⟨g, hg, hgat⟩
      refine hnew (hsound.marked _ (List.mem_cons_of_mem _ ?_))
      exact List.mem_map.mpr ⟨g, hg, Disk.identity_of_fileAt? hgat⟩

theorem found_of_turn (h : search.Turns p q) : ∀ f ∈ p.found, f ∈ q.found := by
  obtain ⟨r, rest, -, -, hcases⟩ := turn_cases h
  intro f hf
  cases hcases with
  | passed _ => exact hf
  | unreadable _ _ _ => exact hf
  | read _ _ _ _ => exact List.mem_append_left _ hf

theorem Layered.runs {k : Nat} {now later : List IncludeRequest}
    (h : search.Layered path source p k now later) (hsound : search.Sound path p)
    (hruns : search.Runs p q) (hshort : Short q.found) :
    ∃ k now later, search.Layered path source q k now later := by
  induction hruns with
  | refl => exact ⟨k, now, later, h⟩
  | tail hruns hturn ih =>
    obtain ⟨k, now, later, h⟩ := ih fun f hf => hshort f (found_of_turn hturn f hf)
    exact h.turn (hsound.runs hruns) hturn hshort

end

/-- The search for headers is a breadth-first search. It ends; what it finds are at most
`maxHeaders` text files, each once and none of them the file it starts with. Unless an include
is too long a path beside the header that holds it, the headers stand in the order of their
distances, and a search that ran out of includes has found every header that can be reached. -/
theorem load_breadth_first (search : HeaderSearch) (path source : String) :
    let headers := (search.load path source).headers
    WellFounded (fun after before => search.Turns before after) ∧
    ∃ last, search.Runs (search.start path source) last ∧ search.turn? last = none ∧
      headers = last.found ∧
      (last.pending ≠ [] → headers.length = maxHeaders) ∧
      headers.length ≤ maxHeaders ∧
      (search.disk.identity path :: headers.map (search.disk.identity ·.path)).Nodup ∧
      (∀ f ∈ headers, ∃ loc text, search.disk.fileAt? f.path = some loc ∧
        search.disk.textAt? loc = some text ∧
        f = .ofParsed f.path text.toList (search.parse text)) ∧
      (Short headers →
        (∃ levels : List Nat,
          List.Forall₂ (fun f n => ∃ loc, search.disk.fileAt? f.path = some loc ∧
            search.IsDistance path source loc n) headers levels ∧
          levels.Pairwise (· ≤ ·)) ∧
        (last.pending = [] → ∀ n loc, search.Reaches path source n loc →
          ∃ f ∈ headers, search.disk.fileAt? f.path = some loc)) := by
  intro headers
  obtain ⟨last, hruns, hend⟩ := search.exists_end (search.start path source)
  have hheaders : headers = last.found := by
    rw [← outcome_of_end hend, outcome_of_runs hruns, ← headers_load]
  have hsound := (search.sound_start path source).runs hruns
  refine ⟨search.wellFounded_turns, last, hruns, hend, hheaders, ?_⟩
  rw [hheaders]
  refine ⟨?_, hsound.room, hsound.distinct, hsound.read, ?_⟩
  · intro hpending
    rcases turn?_eq_none_iff.mp hend with hnil | hfull
    · exact absurd hnil hpending
    · exact Nat.le_antisymm hsound.room hfull
  · intro hshort
    obtain ⟨k, now, later, h⟩ :=
      (search.layered_start path source).runs (search.sound_start path source) hruns hshort
    obtain ⟨levels, hlevels, hsorted, -⟩ := h.ordered
    refine ⟨⟨levels, hlevels, hsorted⟩, ?_⟩
    intro hpending n loc hreaches
    rcases h.frontier hreaches with hfound | ⟨-, hopen⟩
    · exact hfound
    · exact absurd hpending hopen

section Example

open ParseTree

def includeText (targets : List String) : String :=
  String.join (targets.map fun t => "#include \"" ++ t ++ "\"\n")

def includeTrees (start : Nat) : List String → List ParseTree
  | [] => []
  | t :: ts =>
    let stop := start + t.utf8ByteSize + 12
    named "preproc_include" start stop
        [filling "path" "string_literal" (start + 9) (stop - 1)
          [named "string_content" (start + 10) (stop - 2) []]]
      :: includeTrees stop ts

def includeParser (texts : List (List String)) : Parser := fun text =>
  ⟨named "translation_unit" 0 text.utf8ByteSize
    (includeTrees 0 ((texts.find? (includeText · == text)).getD [])), false⟩

def ringSearch : HeaderSearch where
  parse := includeParser [["a.h"], ["b.h"], ["a.h", "main.cpp", "c.h"]]
  disk :=
    { entries := [(["main.cpp"], .file (includeText ["a.h"]).toUTF8),
        (["a.h"], .file (includeText ["b.h"]).toUTF8),
        (["b.h"], .file (includeText ["a.h", "main.cpp", "c.h"]).toUTF8),
        (["c.h"], .file (includeText []).toUTF8)] }
  includeDirs := []

theorem load_breadth_first_ring :
    (ringSearch.load "main.cpp" (includeText ["a.h"])).headers.map (·.path) =
        ["a.h", "b.h", "c.h"] ∧
      ∀ n loc, ringSearch.Reaches "main.cpp" (includeText ["a.h"]) n loc →
        ∃ f ∈ (ringSearch.load "main.cpp" (includeText ["a.h"])).headers,
          ringSearch.disk.fileAt? f.path = some loc := by
  have hpaths : (ringSearch.load "main.cpp" (includeText ["a.h"])).headers.map (·.path) =
      ["a.h", "b.h", "c.h"] := by decide +kernel
  have hshort : Short (ringSearch.load "main.cpp" (includeText ["a.h"])).headers := by
    unfold Short
    decide
  obtain ⟨-, last, -, -, -, hfull, -, -, -, hsearch⟩ :=
    load_breadth_first ringSearch "main.cpp" (includeText ["a.h"])
  refine ⟨hpaths, (hsearch hshort).2 ?_⟩
  by_contra hpending
  have hlength := congrArg List.length hpaths
  rw [List.length_map, hfull hpending] at hlength
  exact absurd hlength (by decide)

def dottedDir (k : Nat) : String :=
  String.intercalate "/" ("d" :: (List.replicate k "." ++ ["e"]))

def farText : String :=
  includeText ["a.h", "d/e/a.h"]

def nestedText : String :=
  includeText ["forward_declarations.h"]

def farDisk : Disk :=
  { entries := [(["main.cpp"], .file farText.toUTF8), (["d"], .directory), (["d", "e"], .directory),
      (["d", "e", "a.h"], .file nestedText.toUTF8),
      (["d", "e", "forward_declarations.h"], .file (includeText []).toUTF8)] }

/-- The search for the headers of a file that includes `a.h` from an include directory, then
from its own. The header includes another one of the directory. -/
def farSearch (k : Nat) : HeaderSearch where
  parse := includeParser [["a.h", "d/e/a.h"], ["forward_declarations.h"]]
  disk := farDisk
  includeDirs := [dottedDir k]

def farPath (k : Nat) : String :=
  Path.join (dottedDir k) "a.h"

theorem mem_dottedDir {k : Nat} {c : Char} (h : c ∈ (dottedDir k).toList) :
    c = '/' ∨ c = 'd' ∨ c = '.' ∨ c = 'e' := by
  rcases Path.mem_intercalate h with rfl | ⟨s, hs, hc⟩
  · exact Or.inl rfl
  · rcases List.mem_cons.mp hs with rfl | hs
    · exact Or.inr (Or.inl (List.mem_singleton.mp hc))
    · rcases List.mem_append.mp hs with hs | hs
      · rw [List.eq_of_mem_replicate hs] at hc
        exact Or.inr (Or.inr (Or.inl (List.mem_singleton.mp hc)))
      · rw [List.mem_singleton.mp hs] at hc
        exact Or.inr (Or.inr (Or.inr (List.mem_singleton.mp hc)))

theorem segments_dottedDir (k : Nat) :
    Path.segments (dottedDir k) = "d" :: (List.replicate k "." ++ ["e"]) := by
  refine Path.segments_intercalate (by simp) ?_
  intro s hs
  rcases List.mem_cons.mp hs with rfl | hs
  · decide
  · rcases List.mem_append.mp hs with hs | hs
    · rw [List.eq_of_mem_replicate hs]
      decide
    · rw [List.mem_singleton.mp hs]
      decide

theorem segments_join_dottedDir (k : Nat) {t : String} (ht : Path.isAbsolute t = false) :
    Path.segments (Path.join (dottedDir k) t) =
      "d" :: (List.replicate k "." ++ ["e"]) ++ Path.segments t := by
  rw [← segments_dottedDir]
  refine (Path.segments_join ?_ (by decide : "e" ≠ "") ht).1
  rw [segments_dottedDir, ← List.cons_append, List.getLast?_concat]

/-- A path whose segments start with a plain name starts neither with a slash nor with a dot. -/
theorem start_of_segments {path : String} {ss : List String}
    (h : Path.segments path = "d" :: ss) :
    (∀ ds, path.toList ≠ '/' :: ds) ∧ ∀ ds, path.toList ≠ '.' :: '/' :: ds := by
  refine ⟨fun ds hds => ?_, fun ds hds => ?_⟩
  · rw [Path.segments, hds, Path.segmentsOf_cons_slash] at h
    exact absurd (List.cons.inj h).1 (by decide)
  · have hdot : Path.segmentsOf ('.' :: '/' :: ds) = "." :: Path.segmentsOf ds :=
      Path.segmentsOf_append_slash ['.'] ds
    rw [Path.segments, hds, hdot] at h
    exact absurd (List.cons.inj h).1 (by decide)

section Dotted

variable {path t : String} {k : Nat}
  (h : Path.segments path = "d" :: (List.replicate k "." ++ ["e"]) ++ Path.segments t)

include h

theorem utf8ByteSize_of_segments : path.utf8ByteSize = 2 * k + 4 + t.utf8ByteSize := by
  have hpath := Path.sum_segments path
  have htext := Path.sum_segments t
  have hd : "d".utf8ByteSize = 1 := by decide
  have he : "e".utf8ByteSize = 1 := by decide
  have hdot : ".".utf8ByteSize = 1 := by decide
  rw [h] at hpath
  simp only [List.map_append, List.map_cons, List.map_replicate, List.map_nil, List.sum_append,
    List.sum_cons, List.sum_nil, List.sum_replicate_nat, List.cons_append, htext, hd, he,
    hdot] at hpath
  omega

theorem resolve_of_segments :
    farDisk.resolve path =
      (Disk.checkPath path).bind fun _ => farDisk.walk ["d", "e"] (Path.segments t) := by
  have hroot : farDisk.get? [] = some .directory := by decide
  have hd : farDisk.get? ["d"] = some .directory := by decide
  have he : farDisk.get? ["d", "e"] = some .directory := by decide
  have hshort : isTooLongName "d" = false ∧ isTooLongName "e" = false := by decide
  have hfirst : ∀ rest, farDisk.walk [] ("d" :: rest) = farDisk.walk ["d"] rest := by
    intro rest
    rw [Disk.walk, hroot]
    simp [Path.isVoid, hd, hshort.1]
  have hdots : ∀ rest,
      farDisk.walk ["d"] (List.replicate k "." ++ rest) = farDisk.walk ["d"] rest := by
    intro rest
    clear h
    induction k with
    | zero => rfl
    | succ k ih =>
      rw [List.replicate_succ, List.cons_append, Disk.walk, hd]
      simpa [Path.isVoid] using ih
  have hlast : ∀ rest, farDisk.walk ["d"] ("e" :: rest) = farDisk.walk ["d", "e"] rest := by
    intro rest
    rw [Disk.walk, hd]
    simp [Path.isVoid, he, hshort.2]
  have hbase : Location.base path = [] := by
    refine if_neg ?_
    intro habsolute
    rw [Path.isAbsolute, beq_iff_eq] at habsolute
    obtain ⟨ds, hds⟩ := List.head?_eq_some_iff.mp habsolute
    exact (start_of_segments h).1 ds hds
  rw [Disk.resolve, hbase, h, List.cons_append, hfirst, List.append_assoc, hdots,
    List.singleton_append, hlast]

/-- Nothing is found under a path that is too long. -/
theorem isFile_of_segments (hlong : maxPathBytes < 2 * k + 4 + t.utf8ByteSize) :
    farDisk.isFile path = false := by
  rw [Disk.isFile_eq, Option.isSome_eq_false_iff, Option.isNone_iff_eq_none,
    Option.eq_none_iff_forall_ne_some]
  intro loc hloc
  obtain ⟨hresolve, -⟩ := Disk.fileAt?_eq_some_iff.mp hloc
  obtain ⟨⟨⟩, hcheck, -⟩ := except_bind_eq_ok.mp hresolve
  have hsize := (Disk.checkPath_eq_ok_iff.mp hcheck).2.2
  rw [utf8ByteSize_of_segments h] at hsize
  omega

end Dotted

section Far

variable {k : Nat} (hfits : 2 * k + 7 ≤ maxPathBytes)

include hfits

theorem resolve_farPath : farDisk.resolve (farPath k) = .ok ["d", "e", "a.h"] := by
  have hsegments : Path.segments (farPath k) = _ :=
    segments_join_dottedDir k (by decide : Path.isAbsolute "a.h" = false)
  have hsize := utf8ByteSize_of_segments hsegments
  have hname : "a.h".utf8ByteSize = 3 := by decide
  have hcheck : Disk.checkPath (farPath k) = .ok () := by
    refine Disk.checkPath_eq_ok_iff.mpr ⟨?_, ?_, by omega⟩
    · intro hmem
      rcases Path.mem_join hmem with hmem | hmem | hmem
      · rcases mem_dottedDir hmem with hmem | hmem | hmem | hmem <;>
          exact absurd hmem (by decide)
      · exact absurd hmem (by decide)
      · exact absurd hmem (by decide)
    · intro hempty
      rw [hempty, hname] at hsize
      exact absurd hsize (by simp)
  rw [resolve_of_segments hsegments, hcheck]
  decide

theorem resolve?_first :
    IncludeRequest.resolve? farDisk [dottedDir k] ⟨"", "a.h"⟩ = some (farPath k) := by
  have hbeside : farDisk.isFile (Path.join "" "a.h") = false := by decide
  have hfar : farDisk.isFile (farPath k) = true := by
    rw [Disk.isFile_eq, Disk.fileAt?, resolve_farPath hfits]
    decide
  rw [farPath] at hfar ⊢
  rw [IncludeRequest.resolve?]
  simp only [List.map_cons, List.find?_cons, hbeside, hfar]

theorem readText_farPath : farDisk.readText (farPath k) = .ok nestedText := by
  have hentry : farDisk.get? ["d", "e", "a.h"] = some (.file nestedText.toUTF8) := by
    decide
  rw [Disk.readText_eq_ok_iff, Disk.readBytes, Disk.find, resolve_farPath hfits]
  simp only [Except.bind, hentry]

end Far

/-- Behind the path under which the header was found first, what it includes is not found. -/
theorem resolve?_nested {k : Nat} (hlong : maxPathBytes < 2 * k + 26) :
    IncludeRequest.resolve? farDisk [dottedDir k]
      ⟨Path.parent (farPath k), "forward_declarations.h"⟩ = none := by
  have hrelative : Path.isAbsolute "forward_declarations.h" = false := by decide
  have hname : "forward_declarations.h".utf8ByteSize = 22 := by decide
  have hsegments : Path.segments (farPath k) =
      "d" :: (List.replicate k "." ++ ["e"]) ++ ["a.h"] := by
    rw [farPath, segments_join_dottedDir k (by decide)]
    congr 1
  obtain ⟨hslash, hdot⟩ := start_of_segments hsegments
  obtain ⟨hbeside, -⟩ := Path.putsBehind_of_plain hslash hdot hsegments (by decide) _ hrelative
  rw [← List.cons_append, Path.trimSegments_concat (by decide), List.cons_append] at hbeside
  have hown := isFile_of_segments hbeside (by omega)
  have hlist := isFile_of_segments (segments_join_dottedDir k hrelative) (by omega)
  rw [IncludeRequest.resolve?]
  simp only [List.map_cons, List.map_nil, List.find?_cons, List.find?_nil, hown, hlist]

theorem start_far (k : Nat) :
    (farSearch k).start "main.cpp" farText =
      ⟨[], [.known ["main.cpp"]], [⟨"", "a.h"⟩, ⟨"", "d/e/a.h"⟩]⟩ := by
  have hincludes : (farSearch k).includesOf farText = ["a.h", "d/e/a.h"] := by
    show includesOfItems farText.toList
      (includeParser [["a.h", "d/e/a.h"], ["forward_declarations.h"]] farText).tree.children = _
    decide
  have hparent : Path.parent "main.cpp" = "" := by decide
  have hidentity : farDisk.identity "main.cpp" = .known ["main.cpp"] := by decide
  show Progress.mk [] [farDisk.identity "main.cpp"]
    (((farSearch k).includesOf farText).map (⟨Path.parent "main.cpp", ·⟩)) = _
  rw [hincludes, hparent, hidentity]
  rfl

def farHeader (k : Nat) : SourceFile :=
  .ofParsed (farPath k) nestedText.toList ((farSearch k).parse nestedText)

/-- The three turns of the search: the header is read, it is known under its other path, and
what it includes is not found. -/
theorem runs_far {k : Nat} (hfits : 2 * k + 7 ≤ maxPathBytes) (hlong : maxPathBytes < 2 * k + 26) :
    (farSearch k).Runs ((farSearch k).start "main.cpp" farText)
      ⟨[farHeader k], [.known ["d", "e", "a.h"], .known ["main.cpp"]], []⟩ := by
  have hidentity : farDisk.identity (farPath k) = .known ["d", "e", "a.h"] := by
    rw [Disk.identity, resolve_farPath hfits]
  have hsecond : IncludeRequest.resolve? farDisk [dottedDir k] ⟨"", "d/e/a.h"⟩ =
      some "d/e/a.h" := by
    have hfile : farDisk.isFile (Path.join "" "d/e/a.h") = true := by decide
    rw [IncludeRequest.resolve?, List.map_cons, List.find?_cons, hfile]
    show some (Path.join "" "d/e/a.h") = some "d/e/a.h"
    decide
  have hsame : farDisk.identity "d/e/a.h" = .known ["d", "e", "a.h"] := by decide
  have hnested : IncludeRequest.ofFile (farHeader k) =
      [⟨Path.parent (farPath k), "forward_declarations.h"⟩] := by
    have hincludes : (farHeader k).includes = ["forward_declarations.h"] := by
      show includesOfItems nestedText.toList
        (includeParser [["a.h", "d/e/a.h"], ["forward_declarations.h"]] nestedText).tree.children
          = _
      decide
    rw [IncludeRequest.ofFile, hincludes]
    rfl
  rw [start_far]
  refine .head (b := ⟨[farHeader k], [.known ["d", "e", "a.h"], .known ["main.cpp"]],
    [⟨"", "d/e/a.h"⟩, ⟨Path.parent (farPath k), "forward_declarations.h"⟩]⟩) ?_
    (.head (b := ⟨[farHeader k], [.known ["d", "e", "a.h"], .known ["main.cpp"]],
      [⟨Path.parent (farPath k), "forward_declarations.h"⟩]⟩) ?_ (.single ?_))
  · rw [Turns, turn?]
    simp only [farSearch, resolve?_first hfits, readText_farPath hfits, hidentity]
    rw [if_neg (by decide), if_neg (by decide)]
    exact congrArg (fun rs => some (Progress.mk _ _ (_ :: rs))) hnested
  · rw [Turns, turn?]
    simp only [farSearch, hsecond, hsame]
    rw [if_neg (by simp [maxHeaders]), if_pos (by decide)]
  · rw [Turns, turn?]
    simp only [farSearch, resolve?_nested hlong]
    rw [if_neg (by simp [maxHeaders])]

theorem reaches_nested (k : Nat) :
    (farSearch k).Reaches "main.cpp" farText 2 ["d", "e", "forward_declarations.h"] := by
  have htarget : "d/e/a.h" ∈ (farSearch k).includesOf farText := by
    show "d/e/a.h" ∈ includesOfItems farText.toList
      (includeParser [["a.h", "d/e/a.h"], ["forward_declarations.h"]] farText).tree.children
    decide
  have hnested : "forward_declarations.h" ∈ (farSearch k).includesOf nestedText := by
    show "forward_declarations.h" ∈ includesOfItems nestedText.toList
      (includeParser [["a.h", "d/e/a.h"], ["forward_declarations.h"]] nestedText).tree.children
    decide
  have hother : ∀ name, farDisk.identity "main.cpp" ≠ .known ["d", "e", name] := by
    intro name
    have hidentity : farDisk.identity "main.cpp" = .known ["main.cpp"] := by decide
    rw [hidentity]
    simp
  have htext : farDisk.textAt? ["d", "e", "a.h"] = some nestedText := by decide
  have hempty : farDisk.textAt? ["d", "e", "forward_declarations.h"] = some "" := by
    decide
  have hbeside : farDisk.fileAt? (Path.join (Path.parent "main.cpp") "d/e/a.h") =
      some ["d", "e", "a.h"] := by decide
  have hbelow : farDisk.fileFrom? ["d", "e"] "forward_declarations.h" =
      some ["d", "e", "forward_declarations.h"] := by decide
  refine .through (.direct htarget ?_ ⟨⟨_, htext⟩, hother _⟩) htext hnested ?_
    ⟨⟨_, hempty⟩, hother _⟩
  · exact included?_of_beside hbeside
  · exact included?_of_beside hbelow

theorem headers_far {k : Nat} (hfits : 2 * k + 7 ≤ maxPathBytes)
    (hlong : maxPathBytes < 2 * k + 26) :
    ((farSearch k).load "main.cpp" farText).headers = [farHeader k] := by
  rw [headers_load, ← outcome_of_runs (runs_far hfits hlong)]
  exact outcome_of_end (turn?_eq_none_iff.mpr (Or.inl rfl))

theorem not_found_far {k : Nat} (hfits : 2 * k + 7 ≤ maxPathBytes)
    (hlong : maxPathBytes < 2 * k + 26) :
    ∀ f ∈ ((farSearch k).load "main.cpp" farText).headers,
      (farSearch k).disk.fileAt? f.path ≠ some ["d", "e", "forward_declarations.h"] := by
  rw [headers_far hfits hlong]
  intro f hf
  rw [List.mem_singleton.mp hf]
  show farDisk.fileAt? (farPath k) ≠ _
  rw [Disk.fileAt?, resolve_farPath hfits]
  decide

/-- A header that a header of the search includes from its own directory is missed, though the
search does not end for want of room: the including header was found first under a path behind
which its includes are too long, and under the short one it is not taken up. -/
theorem far_header_missed :
    ∃ last, (farSearch 2039).Runs ((farSearch 2039).start "main.cpp" farText) last ∧
      (farSearch 2039).turn? last = none ∧ last.pending = [] ∧
      ((farSearch 2039).load "main.cpp" farText).headers = last.found ∧
      (farSearch 2039).Reaches "main.cpp" farText 2 ["d", "e", "forward_declarations.h"] ∧
      ∀ f ∈ ((farSearch 2039).load "main.cpp" farText).headers,
        (farSearch 2039).disk.fileAt? f.path ≠ some ["d", "e", "forward_declarations.h"] := by
  have hfits : 2 * 2039 + 7 ≤ maxPathBytes := by decide
  have hlong : maxPathBytes < 2 * 2039 + 26 := by decide
  exact ⟨_, runs_far hfits hlong, turn?_eq_none_iff.mpr (Or.inl rfl), rfl,
    headers_far hfits hlong, reaches_nested 2039, not_found_far hfits hlong⟩

end Example

end HeaderSearch

end Encapsulate
