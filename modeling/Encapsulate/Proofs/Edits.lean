import Encapsulate.Accessors.Usage
import Encapsulate.Proofs.Route
import Encapsulate.Proofs.Splicing

/-!
The edits that a search queues can be combined. Visiting a piece of code replaces only
text of that code, or of the parentheses around it, and inserts only at the ends of
statements: of those inside the code and of those around it. Statements inside a part
that is rendered lie strictly inside it, so their insertions are applied with it; the
insertions of the statements around it are handed on, and fall outside of everything
that is replaced inside them.
-/

namespace Encapsulate.Accessors

open Cpp Encapsulate.Tree

def isHost (n : CodeNode) : Bool :=
  n.shape.sort == .statement && n.shape != .block

theorem isHost_iff {n : CodeNode} :
    isHost n = true ↔ n.shape.sort = .statement ∧ n.shape ≠ .block := by
  simp [isHost]

def Trimmed (cs : List Char) : Prop :=
  (∀ c, cs.head? = some c → Text.isBlank c = false) ∧
    ∀ c, cs.getLast? = some c → Text.isBlank c = false

/-- The ends of a node are boundaries. -/
structure OnText (source : List Char) (n : CodeNode) : Prop where
  start_le : n.span.start ≤ n.span.stop
  start : Text.isBoundary source n.span.start = true
  stop : Text.isBoundary source n.span.stop = true

instance (cs : List Char) : Decidable (Trimmed cs) :=
  decidable_of_iff
    ((cs.head?.all fun c => !Text.isBlank c) = true ∧
      (cs.getLast?.all fun c => !Text.isBlank c) = true)
    (by simp [Trimmed, Option.all_eq_true])

/-- Every statement of the code lies strictly inside it, blocks apart. -/
def Encloses (c : Code) : Prop :=
  ∀ s ∈ subtrees c, isHost s.info = true →
    c.span.start < (Code.span s).start ∧ (Code.span s).stop < c.span.stop

instance (c : Code) : Decidable (Encloses c) :=
  inferInstanceAs (Decidable (∀ s ∈ subtrees c, isHost s.info = true →
    c.span.start < (Code.span s).start ∧ (Code.span s).stop < c.span.stop))

def Enclosing (c : Code) : Prop :=
  c.shape.sort = .expression → Encloses c

instance (c : Code) : Decidable (Enclosing c) :=
  inferInstanceAs (Decidable (c.shape.sort = .expression → Encloses c))

def isAssignment (c : Code) : Bool :=
  match c.shape with
  | .assign _ => true
  | _ => false

/-- Code between boundaries of the text whose parts stand inside it and apart. -/
structure Laid (source : List Char) (c : Code) : Prop where
  start_le : c.span.start ≤ c.span.stop
  start : Text.isBoundary source c.span.start = true
  stop : Text.isBoundary source c.span.stop = true
  inside : ∀ d ∈ c.children, c.span.contains (Code.span d) = true
  apart : c.children.Pairwise fun a b : Code => Span.Apart a.span b.span
  full : Code.Full c
  named : ∀ isArrow field, c.shape = .member isArrow field → field ≠ "" →
    c.span.start < c.span.stop

/-- An expression that is not empty starts and ends with something visible, and statements
inside an expression stand strictly inside it. -/
structure Regular (source : List Char) (c : Code) : Prop where
  trimmed : c.shape.sort = .expression → c.span.start < c.span.stop →
    Trimmed (Text.slice source c.span)
  enclosing : Enclosing c

instance (source : List Char) (c : Code) : Decidable (Regular source c) :=
  decidable_of_iff
    ((c.shape.sort = .expression → c.span.start < c.span.stop →
        Trimmed (Text.slice source c.span)) ∧ Enclosing c)
    ⟨fun h => ⟨h.1, h.2⟩, fun h => ⟨h.1, h.2⟩⟩

/-- How statements stand in the parts that are rendered, the object of an access and the right
operand of an assignment among them. -/
structure Fenced (c : Code) : Prop where
  enclosing : Enclosing c
  right : isAssignment c = true → ∀ left right, c.children = [left, right] → Encloses right
  unnamed : ∀ isArrow, c.shape = .member isArrow "" → c.span.start < c.span.stop

/-- How a node of code lies in the text. -/
structure Settled (source : List Char) (c : Code) : Prop extends Laid source c, Fenced c

theorem Settled.onText {source : List Char} {c : Code} (h : Settled source c) :
    OnText source c.info :=
  ⟨h.start_le, h.start, h.stop⟩

theorem Settled.access {source : List Char} {c : Code} (h : Settled source c) {isArrow : Bool}
    {field : String} (hc : c.shape = .member isArrow field) : c.span.start < c.span.stop := by
  by_cases hfield : field = ""
  · rw [hfield] at hc
    exact h.unnamed isArrow hc
  · exact h.named isArrow field hc hfield

/-- Everything in code that is laid out lies inside it. -/
theorem Laid.span_contains {source : List Char} {c d : Code} (h : Everywhere (Laid source) c)
    (hd : d ∈ subtrees c) : c.span.contains d.span = true := by
  induction c using Tree.inductionOn with
  | h i cs ih =>
    rcases mem_subtrees_node.mp hd with rfl | ⟨e, he, hde⟩
    · exact Span.contains_refl _
    · exact Span.contains_trans (h.here.inside e he) (ih e he (h.child he) hde)

theorem span_contains_of_mem_subtrees {source : List Char} {c d : Code}
    (h : Everywhere (Settled source) c) (hd : d ∈ subtrees c) :
    c.span.contains d.span = true :=
  Laid.span_contains (fun e he => (h e he).toLaid) hd

/-- What is known of a node and the nodes above it. -/
structure Context (source : List Char) (n : CodeNode) (ancestors : List CodeNode) : Prop where
  nested : (n :: ancestors).Pairwise fun x y => y.span.contains x.span = true
  onText : ∀ m ∈ n :: ancestors, OnText source m

namespace Context

variable {source : List Char} {n : CodeNode} {ancestors : List CodeNode}

theorem root (h : OnText source n) : Context source n [] :=
  ⟨List.pairwise_singleton .., fun m hm => by rw [List.mem_singleton.mp hm]; exact h⟩

theorem child {i : CodeNode} {cs : List Code} (h : Context source i ancestors)
    (hsettled : Everywhere (Settled source) (.node i cs)) {d : Code} (hd : d ∈ cs) :
    Context source d.info (i :: ancestors) := by
  have hin := hsettled.here.inside d hd
  constructor
  · refine List.pairwise_cons.mpr ⟨?_, h.nested⟩
    intro m hm
    rcases List.mem_cons.mp hm with rfl | hm
    · exact hin
    · exact Span.contains_trans ((List.pairwise_cons.mp h.nested).1 m hm) hin
  · intro m hm
    rcases List.mem_cons.mp hm with rfl | hm
    · exact (hsettled.child hd).here.onText
    · exact h.onText m hm

end Context

/-- The parentheses around a node have the span of the node or of one above it. -/
theorem exists_parenthesizedSpan (n : CodeNode) (ancestors : List CodeNode) :
    ∃ m ∈ n :: ancestors, parenthesizedSpan n ancestors = m.span := by
  induction ancestors generalizing n with
  | nil => exact ⟨n, List.mem_cons_self .., rfl⟩
  | cons parent outer ih =>
    rw [parenthesizedSpan]
    split
    · obtain ⟨m, hm, hspan⟩ := ih parent
      exact ⟨m, List.mem_cons_of_mem _ hm, hspan⟩
    · exact ⟨n, List.mem_cons_self .., rfl⟩

theorem parenthesizedSpan_contains {source : List Char} {n : CodeNode}
    {ancestors : List CodeNode} (h : Context source n ancestors) :
    (parenthesizedSpan n ancestors).contains n.span = true := by
  obtain ⟨m, hm, hspan⟩ := exists_parenthesizedSpan n ancestors
  rw [hspan]
  rcases List.mem_cons.mp hm with rfl | hm
  · exact Span.contains_refl _
  · exact (List.pairwise_cons.mp h.nested).1 m hm

/-- A statement around a node is around its parentheses as well. -/
theorem contains_parenthesizedSpan {n : CodeNode} {ancestors : List CodeNode}
    (h : (n :: ancestors).Pairwise fun x y => y.span.contains x.span = true) {m : CodeNode}
    (hm : m ∈ ancestors) (hparen : m.isParen = false) :
    m.span.contains (parenthesizedSpan n ancestors) = true := by
  induction ancestors generalizing n with
  | nil => simp at hm
  | cons parent outer ih =>
    rw [parenthesizedSpan]
    split
    · rename_i hp
      rcases List.mem_cons.mp hm with rfl | hm
      · rw [hparen] at hp
        exact absurd hp (by simp)
      · exact ih (List.pairwise_cons.mp h).2 hm
    · exact (List.pairwise_cons.mp h).1 m hm

theorem isParen_eq_false_of_isHost {n : CodeNode} (h : isHost n = true) : n.isParen = false := by
  rw [isHost_iff] at h
  simp only [CodeNode.isParen, beq_eq_false_iff_ne]
  intro hp
  rw [hp] at h
  exact absurd h.1 (by decide)

def EndOf (span : Span) (offset : Nat) : Prop :=
  offset = span.start ∨ offset = span.stop

/-- Edits that replace parts of some regions and insert at the ends of the hosts among
the ancestors and inside some pieces of code. -/
structure Tame (source : List Char) (ancestors : List CodeNode) (regions : List Span)
    (inner : List Code) (new : EditQueue) : Prop where
  shaped : ∀ e ∈ new, e.WellShaped
  start : ∀ e ∈ new, Text.isBoundary source e.span.start = true
  stop : ∀ e ∈ new, Text.isBoundary source e.span.stop = true
  replaces : ∀ e ∈ new, e.kind = .replace → ∃ r ∈ regions, r.contains e.span = true
  inserts : ∀ e ∈ new, e.kind ≠ .replace →
    (∃ h ∈ ancestors, isHost h = true ∧ EndOf h.span e.offset) ∨
      ∃ h ∈ subtreesOf inner, isHost h.info = true ∧ EndOf (Code.span h) e.offset
  compatible : new.Pairwise Edit.Compatible

namespace Tame

variable {source : List Char} {ancestors : List CodeNode} {regions regions' : List Span}
  {inner inner' : List Code} {new new' : EditQueue}

theorem nil : Tame source ancestors regions inner [] :=
  ⟨by simp, by simp, by simp, by simp, by simp, List.Pairwise.nil⟩

theorem mono (h : Tame source ancestors regions inner new)
    (hregions : ∀ r ∈ regions, ∃ r' ∈ regions', r'.contains r = true)
    (hinner : ∀ d ∈ subtreesOf inner, d ∈ subtreesOf inner') :
    Tame source ancestors regions' inner' new := by
  refine ⟨h.shaped, h.start, h.stop, ?_, ?_, h.compatible⟩
  · intro e he hkind
    obtain ⟨r, hr, hin⟩ := h.replaces e he hkind
    obtain ⟨r', hr', hrr'⟩ := hregions r hr
    exact ⟨r', hr', Span.contains_trans hrr' hin⟩
  · intro e he hkind
    rcases h.inserts e he hkind with hanc | ⟨d, hd, hhost⟩
    · exact Or.inl hanc
    · exact Or.inr ⟨d, hinner d hd, hhost⟩

/-- A node above that is no host does not matter. -/
theorem of_cons {i : CodeNode} (h : Tame source (i :: ancestors) regions inner new)
    (hi : isHost i = false) : Tame source ancestors regions inner new := by
  refine ⟨h.shaped, h.start, h.stop, h.replaces, ?_, h.compatible⟩
  intro e he hkind
  rcases h.inserts e he hkind with ⟨m, hm, hhost, hend⟩ | hin
  · rcases List.mem_cons.mp hm with rfl | hm
    · rw [hi] at hhost
      exact absurd hhost (by simp)
    · exact Or.inl ⟨m, hm, hhost, hend⟩
  · exact Or.inr hin

/-- Edits of the children of a node are edits of the node. -/
theorem ofChildren {i : CodeNode} {cs : List Code}
    (h : Tame source (i :: ancestors) regions cs new) :
    Tame source ancestors regions [.node i cs] new := by
  refine ⟨h.shaped, h.start, h.stop, h.replaces, ?_, h.compatible⟩
  have hsub : ∀ d, d ∈ subtreesOf [.node i cs] ↔ d = .node i cs ∨ d ∈ subtreesOf cs := by
    intro d
    simp only [mem_subtreesOf, List.mem_singleton, exists_eq_left, mem_subtrees_node]
  intro e he hkind
  rcases h.inserts e he hkind with ⟨m, hm, hhost, hend⟩ | ⟨d, hd, hhost⟩
  · rcases List.mem_cons.mp hm with rfl | hm
    · exact Or.inr ⟨.node m cs, (hsub _).mpr (Or.inl rfl), hhost, hend⟩
    · exact Or.inl ⟨m, hm, hhost, hend⟩
  · exact Or.inr ⟨d, (hsub d).mpr (Or.inr hd), hhost⟩

end Tame

/-- Where edits may fall: the hosts above are around all regions, and every piece of code
lies in some region. -/
structure Area (source : List Char) (ancestors : List CodeNode) (regions : List Span)
    (inner : List Code) : Prop where
  settled : ∀ d ∈ inner, Everywhere (Settled source) d
  covered : ∀ d ∈ inner, ∃ r ∈ regions, r.contains (Code.span d) = true
  framed : ∀ m ∈ ancestors, isHost m = true → ∀ r ∈ regions, m.span.contains r = true

def RegionsApart (regions regions' : List Span) : Prop :=
  ∀ r ∈ regions, ∀ r' ∈ regions', Span.Apart r r'

theorem RegionsApart.symm {regions regions' : List Span} (h : RegionsApart regions regions') :
    RegionsApart regions' regions :=
  fun r' hr' r hr => (h r hr r' hr').symm

/-- An end of a span around a range is not strictly inside the range. -/
theorem not_strictlyContains_of_contains {outer range : Span} {offset : Nat}
    (h : outer.contains range = true) (hend : EndOf outer offset) :
    ¬ range.strictlyContains offset = true := by
  simp only [Span.contains_iff, Span.strictlyContains_iff] at *
  unfold EndOf at hend
  omega

theorem not_strictlyContains_of_apart {other range host : Span} {offset : Nat}
    (h : Span.Apart range other) (hin : other.contains host = true)
    (hle : host.start ≤ host.stop) (hend : EndOf host offset) :
    ¬ range.strictlyContains offset = true := by
  simp only [Span.contains_iff, Span.strictlyContains_iff] at *
  unfold EndOf at hend
  unfold Span.Apart at h
  omega

namespace Area

variable {source : List Char} {ancestors : List CodeNode} {regions : List Span}
  {inner : List Code}

theorem nil : Area source ancestors [] [] :=
  ⟨by simp, by simp, by simp⟩

/-- An insertion of an area is not strictly inside what is replaced in a region that is
framed by the hosts above and apart from the area. -/
theorem insert_clear (h : Area source ancestors regions inner) {new : EditQueue}
    (htame : Tame source ancestors regions inner new) {e : Edit} (he : e ∈ new)
    (hkind : e.kind ≠ .replace) {region range : Span} (hrange : region.contains range = true)
    (hframe : ∀ m ∈ ancestors, isHost m = true → m.span.contains region = true)
    (hapart : ∀ r ∈ regions, Span.Apart region r) :
    ¬ range.strictlyContains e.offset = true := by
  rcases htame.inserts e he hkind with ⟨m, hm, hhost, hend⟩ | ⟨s, hs, -, hend⟩
  · exact not_strictlyContains_of_contains
      (Span.contains_trans (hframe m hm hhost) hrange) hend
  · obtain ⟨d, hd, hsd⟩ := mem_subtreesOf.mp hs
    obtain ⟨r, hr, hcover⟩ := h.covered d hd
    have hsettled := h.settled d hd
    have hin := Span.contains_trans hcover (span_contains_of_mem_subtrees hsettled hsd)
    exact not_strictlyContains_of_apart ((hapart r hr).mono hrange (Span.contains_refl _)) hin
      (hsettled.of_mem hsd).here.onText.start_le hend

end Area

theorem Tame.append {source : List Char} {ancestors : List CodeNode}
    {regions regions' : List Span} {inner inner' : List Code} {new new' : EditQueue}
    (harea : Area source ancestors regions inner) (harea' : Area source ancestors regions' inner')
    (hapart : RegionsApart regions regions')
    (h : Tame source ancestors regions inner new)
    (h' : Tame source ancestors regions' inner' new') :
    Tame source ancestors (regions ++ regions') (inner ++ inner') (new ++ new') := by
  have hleft : Tame source ancestors (regions ++ regions') (inner ++ inner') new :=
    h.mono (fun r hr => ⟨r, List.mem_append_left _ hr, Span.contains_refl r⟩)
      fun d hd => by rw [subtreesOf_append]; exact List.mem_append_left _ hd
  have hright : Tame source ancestors (regions ++ regions') (inner ++ inner') new' :=
    h'.mono (fun r hr => ⟨r, List.mem_append_right _ hr, Span.contains_refl r⟩)
      fun d hd => by rw [subtreesOf_append]; exact List.mem_append_right _ hd
  constructor
  · intro e he
    rcases List.mem_append.mp he with he | he
    · exact h.shaped e he
    · exact h'.shaped e he
  · intro e he
    rcases List.mem_append.mp he with he | he
    · exact h.start e he
    · exact h'.start e he
  · intro e he
    rcases List.mem_append.mp he with he | he
    · exact h.stop e he
    · exact h'.stop e he
  · intro e he
    rcases List.mem_append.mp he with he | he
    · exact hleft.replaces e he
    · exact hright.replaces e he
  · intro e he
    rcases List.mem_append.mp he with he | he
    · exact hleft.inserts e he
    · exact hright.inserts e he
  · refine List.pairwise_append.mpr ⟨h.compatible, h'.compatible, ?_⟩
    intro a ha b hb
    refine ⟨?_, ?_, ?_⟩
    · intro hka hkb
      obtain ⟨r, hr, hin⟩ := h.replaces a ha hka
      obtain ⟨r', hr', hin'⟩ := h'.replaces b hb hkb
      exact (hapart r hr r' hr').mono hin hin'
    · intro hka hkb
      obtain ⟨r, hr, hin⟩ := h.replaces a ha hka
      exact harea'.insert_clear h' hb hkb hin (fun m hm hhost => harea.framed m hm hhost r hr)
        (hapart r hr)
    · intro hka hkb
      obtain ⟨r', hr', hin'⟩ := h'.replaces b hb hkb
      exact harea.insert_clear h ha hka hin' (fun m hm hhost => harea'.framed m hm hhost r' hr')
        (hapart.symm r' hr')

/-- Every block that is still open was put around a host among the ancestors. -/
def Opened (ancestors : List CodeNode) (closings : List (Nat × String)) : Prop :=
  ∀ x ∈ closings, ∃ inner h outer, ancestors = inner ++ h :: outer ∧ outer.length = x.1 ∧
    isHost h = true

namespace Opened

variable {i : CodeNode} {ancestors : List CodeNode} {closings : List (Nat × String)}

theorem cons (h : Opened ancestors closings) : Opened (i :: ancestors) closings := by
  intro x hx
  obtain ⟨inner, m, outer, rfl, hlen, hhost⟩ := h x hx
  exact ⟨i :: inner, m, outer, rfl, hlen, hhost⟩

theorem of_cons (h : Opened (i :: ancestors) closings)
    (hi : isHost i = true → ∀ x ∈ closings, x.1 ≠ ancestors.length) :
    Opened ancestors closings := by
  intro x hx
  obtain ⟨inner, m, outer, heq, hlen, hhost⟩ := h x hx
  cases inner with
  | nil =>
    obtain ⟨rfl, rfl⟩ := List.cons.inj heq
    exact absurd hlen.symm (hi hhost x hx)
  | cons y inner =>
    obtain ⟨rfl, rfl⟩ := List.cons.inj heq
    exact ⟨inner, m, outer, rfl, hlen, hhost⟩

/-- The innermost block that is open was put around the innermost node. -/
theorem isHost_head (h : Opened (i :: ancestors) closings) {x : Nat × String}
    (hx : x ∈ closings) (hdepth : x.1 = ancestors.length) : isHost i = true := by
  obtain ⟨inner, m, outer, heq, hlen, hhost⟩ := h x hx
  cases inner with
  | nil =>
    obtain ⟨rfl, rfl⟩ := List.cons.inj heq
    exact hhost
  | cons y inner =>
    have hlens := congrArg List.length heq
    simp only [List.length_append, List.length_cons] at hlens
    omega

end Opened

def Combined (ds : List Diagnostic) : Prop :=
  ∀ d ∈ ds, d.message.toList.head? ≠ some 'n'

/-- What a part of a search does to its state, when it is entered with blocks open around
hosts among the ancestors only. -/
structure Turned (setting : Setting) (ancestors : List CodeNode) (regions : List Span)
    (inner : List Code) (s s' : Scan) : Prop where
  opened : Opened ancestors s'.closings
  queue : ∃ new, s'.queue = s.queue ++ new ∧
    Tame setting.file.source ancestors regions inner new
  combined : Combined s.diagnostics → Combined s'.diagnostics

theorem Turned.mono {setting : Setting} {ancestors : List CodeNode}
    {regions regions' : List Span} {inner inner' : List Code} {s s' : Scan}
    (h : Turned setting ancestors regions inner s s')
    (hregions : ∀ r ∈ regions, ∃ r' ∈ regions', r'.contains r = true)
    (hinner : ∀ d ∈ subtreesOf inner, d ∈ subtreesOf inner') :
    Turned setting ancestors regions' inner' s s' := by
  obtain ⟨new, hnew, htame⟩ := h.queue
  exact ⟨h.opened, ⟨new, hnew, htame.mono hregions hinner⟩, h.combined⟩

/-- One part of a search after another. -/
theorem Turned.trans {setting : Setting} {ancestors : List CodeNode}
    {regions regions' : List Span} {inner inner' : List Code} {s s' s'' : Scan}
    (h : Turned setting ancestors regions inner s s')
    (harea : Area setting.file.source ancestors regions inner)
    (harea' : Area setting.file.source ancestors regions' inner')
    (hapart : RegionsApart regions regions')
    (h' : Turned setting ancestors regions' inner' s' s'') :
    Turned setting ancestors (regions ++ regions') (inner ++ inner') s s'' := by
  obtain ⟨new, hnew, htame⟩ := h.queue
  obtain ⟨new', hnew', htame'⟩ := h'.queue
  refine ⟨h'.opened, ⟨new ++ new', ?_, htame.append harea harea' hapart htame'⟩,
    fun hcombined => h'.combined (h.combined hcombined)⟩
  rw [hnew', hnew, List.append_assoc]

def Turns (setting : Setting) (ancestors : List CodeNode) (regions : List Span)
    (inner : List Code) (f : Scan → Scan) : Prop :=
  ∀ s, Opened ancestors s.closings → Turned setting ancestors regions inner s (f s)

namespace Turns

variable {setting : Setting} {ancestors : List CodeNode} {regions regions' : List Span}
  {inner inner' : List Code} {f g : Scan → Scan}

theorem comp (harea : Area setting.file.source ancestors regions inner)
    (harea' : Area setting.file.source ancestors regions' inner')
    (hapart : RegionsApart regions regions') (hf : Turns setting ancestors regions inner f)
    (hg : Turns setting ancestors regions' inner' g) :
    Turns setting ancestors (regions ++ regions') (inner ++ inner') fun s => g (f s) :=
  fun s hs => (hf s hs).trans harea harea' hapart (hg (f s) (hf s hs).opened)

theorem mono (hf : Turns setting ancestors regions inner f)
    (hregions : ∀ r ∈ regions, ∃ r' ∈ regions', r'.contains r = true)
    (hinner : ∀ d ∈ subtreesOf inner, d ∈ subtreesOf inner') :
    Turns setting ancestors regions' inner' f :=
  fun s hs => (hf s hs).mono hregions hinner

/-- A node above that is no host does not matter. -/
theorem of_cons {i : CodeNode} (hf : Turns setting (i :: ancestors) regions inner f)
    (hi : isHost i = false) : Turns setting ancestors regions inner f := by
  intro s hs
  have hturn := hf s hs.cons
  obtain ⟨new, hnew, htame⟩ := hturn.queue
  exact ⟨hturn.opened.of_cons fun hhost => absurd (hi.symm.trans hhost) (by simp),
    ⟨new, hnew, htame.of_cons hi⟩, hturn.combined⟩

end Turns

def Still (f : Scan → Scan) : Prop :=
  ∀ s, (f s).closings = s.closings ∧ (f s).queue = s.queue ∧
    (Combined s.diagnostics → Combined (f s).diagnostics)

theorem Still.id : Still fun s => s :=
  fun _ => ⟨rfl, rfl, fun h => h⟩

theorem Still.turns {f : Scan → Scan} (hf : Still f) (setting : Setting)
    (ancestors : List CodeNode) : Turns setting ancestors [] [] f := by
  intro s hs
  obtain ⟨hclosings, hqueue, hcombined⟩ := hf s
  exact ⟨hclosings ▸ hs, ⟨[], by rw [hqueue, List.append_nil], Tame.nil⟩, hcombined⟩

/-- A first step that queues nothing. -/
theorem Turns.after_still {setting : Setting} {ancestors : List CodeNode} {regions : List Span}
    {inner : List Code} {f g : Scan → Scan} (hg : Turns setting ancestors regions inner g)
    (hf : Still f) : Turns setting ancestors regions inner fun s => g (f s) := by
  intro s hs
  obtain ⟨hclosings, hqueue, hcombined⟩ := hf s
  have hturn := hg (f s) (hclosings ▸ hs)
  obtain ⟨new, hnew, htame⟩ := hturn.queue
  exact ⟨hturn.opened, ⟨new, by rw [hnew, hqueue], htame⟩, fun h => hturn.combined (hcombined h)⟩

/-- A last step that queues nothing. -/
theorem Turns.before_still {setting : Setting} {ancestors : List CodeNode} {regions : List Span}
    {inner : List Code} {f g : Scan → Scan} (hf : Turns setting ancestors regions inner f)
    (hg : Still g) : Turns setting ancestors regions inner fun s => g (f s) := by
  intro s hs
  have hturn := hf s hs
  obtain ⟨hclosings, hqueue, hcombined⟩ := hg (f s)
  obtain ⟨new, hnew, htame⟩ := hturn.queue
  exact ⟨hclosings ▸ hturn.opened, ⟨new, by rw [hqueue, hnew], htame⟩,
    fun h => hcombined (hturn.combined h)⟩

namespace Scan

variable (setting : Setting)

/-- A report whose text does not start like that of a failed rendering. -/
theorem still_report (severity : Severity) (offset : Nat) (message : String)
    (h : message.toList.head? ≠ some 'n') :
    Still fun s => s.report setting severity offset message := by
  intro s
  refine ⟨rfl, rfl, ?_⟩
  intro hs d hd
  rcases List.mem_append.mp hd with hd | hd
  · exact hs d hd
  · rw [List.mem_singleton.mp hd]
    exact h

theorem still_noteDuplicate (offset : Nat) (u : Usage) (operation : Operation) :
    Still fun s => s.noteDuplicate setting offset u operation := by
  unfold noteDuplicate
  split
  · refine still_report setting _ _ _ ?_
    simp
  · exact Still.id

theorem still_reportRefusal (offset : Nat) (target : Target) (operation : Operation)
    (reason : Refusal) :
    Still fun s => s.reportRefusal setting offset target operation reason := by
  intro s
  refine still_report setting .warning offset ("cannot rewrite " ++ operation.describe ++ " of '"
    ++ target.qualifiedName ++ "': " ++ reason.message) ?_ s
  simp

theorem still_reportEscape (offset : Nat) (target : Target) (how : String) :
    Still fun s => s.reportEscape setting offset target how := by
  intro s
  refine still_report setting .warning offset ("'" ++ target.qualifiedName
    ++ "' escapes the accessors: " ++ how ++ "; left unchanged") ?_ s
  simp

theorem still_reportUnresolved (span : Span) (field : String) (objectClass : Option String) :
    Still fun s => s.reportUnresolved setting span field objectClass := by
  intro s
  simp only [reportUnresolved]
  split
  · rename_i target _
    refine still_report setting .warning span.start ("cannot resolve the object type in '"
      ++ setting.file.text span ++ "'; a usage of '" ++ target.qualifiedName
      ++ "' may be left unchanged") ?_ s
    simp
  · exact ⟨rfl, rfl, fun h => h⟩

theorem still_pushScope : Still pushScope :=
  fun _ => ⟨rfl, rfl, fun h => h⟩

theorem still_popScope : Still popScope :=
  fun _ => ⟨rfl, rfl, fun h => h⟩

theorem still_declare (v : Var) (initClass : Option String) :
    Still fun s => s.declare setting v initClass :=
  fun _ => ⟨rfl, rfl, fun h => h⟩

theorem still_declareAll (vs : List Var) : Still fun s => s.declareAll setting vs := by
  induction vs with
  | nil => exact Still.id
  | cons v vs ih => exact fun s => ih (s.declare setting v none)

theorem still_count (operation : Operation) : Still fun s => s.count operation := by
  intro s
  cases operation <;> exact ⟨rfl, rfl, fun h => h⟩

end Scan

/-- Insertions at the ends of hosts among the ancestors. -/
theorem Tame.ofInsertions {source : List Char} {ancestors : List CodeNode} {new : EditQueue}
    (h : ∀ e ∈ new, e.kind ≠ .replace ∧ ∃ m ∈ ancestors, isHost m = true ∧ OnText source m ∧
      (e.span = .point m.span.start ∨ e.span = .point m.span.stop)) :
    Tame source ancestors [] [] new := by
  have bounds : ∀ e ∈ new, Text.isBoundary source e.offset = true ∧ e.span.stop = e.offset := by
    intro e he
    obtain ⟨-, m, -, -, htext, hspan | hspan⟩ := h e he
    · exact ⟨by rw [Edit.offset, hspan]; exact htext.start, by rw [Edit.offset, hspan]; rfl⟩
    · exact ⟨by rw [Edit.offset, hspan]; exact htext.stop, by rw [Edit.offset, hspan]; rfl⟩
  constructor
  · intro e he
    have hkind := (h e he).1
    have hstop := (bounds e he).2
    unfold Edit.WellShaped
    cases hk : e.kind with
    | replace => exact absurd hk hkind
    | insertBefore => exact hstop
    | insertAfter => exact hstop
  · intro e he
    exact (bounds e he).1
  · intro e he
    rw [(bounds e he).2]
    exact (bounds e he).1
  · intro e he hkind
    exact absurd hkind (h e he).1
  · intro e he _
    obtain ⟨-, m, hm, hhost, -, hspan | hspan⟩ := h e he
    · exact Or.inl ⟨m, hm, hhost, Or.inl (by rw [Edit.offset, hspan]; rfl)⟩
    · exact Or.inl ⟨m, hm, hhost, Or.inr (by rw [Edit.offset, hspan]; rfl)⟩
  · refine List.Pairwise.imp_of_mem ?_ (List.pairwise_of_forall fun _ _ => trivial)
    intro a b ha hb _
    have hka := (h a ha).1
    have hkb := (h b hb).1
    exact ⟨fun hk => absurd hk hka, fun hk => absurd hk hka, fun _ hk => absurd hk hkb⟩

def IsHosted (ancestors : List CodeNode) (b : Boundary) : Prop :=
  ∃ inner h outer, ancestors = inner ++ h :: outer ∧ b.depth = outer.length ∧
    b.span = h.span ∧ isHost h = true

/-- Helper statements stand beside hosts. -/
theorem isHosted_of_choose {source : List Char} {site : CodeNode} {ancestors : List CodeNode}
    {b : Boundary} {operation : Operation} {side : Side}
    (hb : boundary source site ancestors = some b)
    (hchoose : Strategy.choose operation (some b.position) = .hoist side) :
    IsHosted ancestors b := by
  obtain ⟨passed, stmt, outer, hanc, hroute, hdepth, hspan, hopen⟩ := boundaryFrom_route hb
  obtain ⟨-, -, hblock⟩ := hopen (choose_hoist hchoose)
  refine ⟨passed, stmt, outer, hanc, hdepth, hspan, isHost_iff.mpr ⟨?_, hblock⟩⟩
  by_contra hsort
  have hstops := hroute.stops
  rw [stopsAt_eq_false hsort] at hstops
  exact absurd hstops (by simp)

/-- A helper statement is inserted at an end of its boundary statement, with the braces of
a block if it needs one. -/
theorem turns_hoist {setting : Setting} {ancestors : List CodeNode} {b : Boundary}
    (hb : IsHosted ancestors b) (htext : ∀ m ∈ ancestors, OnText setting.file.source m)
    (side : Side) (text : String) :
    Turns setting ancestors [] [] fun s => s.hoist b side text := by
  obtain ⟨passed, m, outer, hanc, hdepth, hspan, hhost⟩ := hb
  have hm : m ∈ ancestors := by simp [hanc]
  have hopen : ∀ s : Scan, Opened ancestors s.closings →
      Opened ancestors (s.openBlock b).closings ∧
      (s.openBlock b).diagnostics = s.diagnostics ∧
      ∃ new, (s.openBlock b).queue = s.queue ++ new ∧
        ∀ e ∈ new, e.kind = .insertBefore ∧ e.span = .point m.span.start := by
    intro s hs
    unfold Scan.openBlock
    split
    · refine ⟨?_, rfl, [_], rfl, ?_⟩
      · intro x hx
        rcases List.mem_cons.mp hx with rfl | hx
        · exact ⟨passed, m, outer, hanc, hdepth.symm, hhost⟩
        · exact hs x hx
      · intro e he
        rw [List.mem_singleton.mp he]
        exact ⟨rfl, by rw [← hspan]; rfl⟩
    · exact ⟨hs, rfl, [], by simp, by simp⟩
  intro s hs
  obtain ⟨hopened, hdiagnostics, new, hnew, hinsert⟩ := hopen s hs
  -- the braces and the helper statement alike are insertions at the ends of `m`
  have hall : ∀ last : Edit, last.kind ≠ .replace →
      (last.span = .point m.span.start ∨ last.span = .point m.span.stop) →
      Tame setting.file.source ancestors [] [] (new ++ [last]) := by
    intro last hkind hpoint
    refine Tame.ofInsertions ?_
    intro e he
    rcases List.mem_append.mp he with he | he
    · obtain ⟨hbefore, hstart⟩ := hinsert e he
      exact ⟨by simp [hbefore], m, hm, hhost, htext m hm, Or.inl hstart⟩
    · rw [List.mem_singleton.mp he]
      exact ⟨hkind, m, hm, hhost, htext m hm, hpoint⟩
  cases side with
  | before =>
    refine ⟨hopened, ⟨new ++ [.insertBefore b.span.start (text ++ ";\n" ++ b.indent)], ?_, ?_⟩, ?_⟩
    · simp only [Scan.hoist, Scan.push, hnew, List.append_assoc]
    · exact hall _ (by simp [Edit.insertBefore]) (Or.inl (by rw [← hspan]; rfl))
    · intro hcombined
      simpa only [Scan.hoist, Scan.push, hdiagnostics] using hcombined
  | after =>
    refine ⟨hopened, ⟨new ++ [.insertAfter b.span.stop ("\n" ++ b.indent ++ text ++ ";")], ?_, ?_⟩,
      ?_⟩
    · simp only [Scan.hoist, Scan.push, hnew, List.append_assoc]
    · exact hall _ (by simp [Edit.insertAfter]) (Or.inr (by rw [← hspan]; rfl))
    · intro hcombined
      simpa only [Scan.hoist, Scan.push, hdiagnostics] using hcombined

end Encapsulate.Accessors
