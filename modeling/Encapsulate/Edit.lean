import Encapsulate.Text.Offset

/-!
Queued edits of one text. Edits are recorded against byte offsets of the
unchanged text and applied together, in order of offset. At one offset the text
inserted after what ends there comes first, then the text inserted before what
starts there, then the replacement that starts there; ties keep the order in
which the edits were queued. Replacements may touch but not overlap, and nothing
may be inserted strictly inside a replaced range.
-/

namespace Encapsulate

inductive EditKind where
  | replace
  | insertBefore
  | insertAfter
deriving DecidableEq, Repr

def EditKind.rank : EditKind → Nat
  | .insertAfter => 0
  | .insertBefore => 1
  | .replace => 2

/-- One edit; an insertion has an empty span at its offset. -/
structure Edit where
  kind : EditKind
  span : Span
  text : String
deriving DecidableEq, Repr

namespace Edit

def replace (span : Span) (text : String) : Edit :=
  ⟨.replace, span, text⟩

/-- Text that belongs to what starts at the offset. -/
def insertBefore (offset : Nat) (text : String) : Edit :=
  ⟨.insertBefore, .point offset, text⟩

/-- Text that belongs to what ends at the offset. -/
def insertAfter (offset : Nat) (text : String) : Edit :=
  ⟨.insertAfter, .point offset, text⟩

def offset (e : Edit) : Nat :=
  e.span.start

def notAfter (a b : Edit) : Bool :=
  a.offset < b.offset || (a.offset == b.offset && a.kind.rank ≤ b.kind.rank)

/-- Whether the edit belongs to the inside of `outer`. A replacement may fill it,
while an insertion at either end attaches to the surrounding text. -/
def isInside (outer : Span) (e : Edit) : Bool :=
  match e.kind with
  | .replace => outer.contains e.span
  | .insertBefore | .insertAfter => outer.strictlyContains e.offset

end Edit

abbrev EditQueue := List Edit

/-- Why a queue cannot be applied. -/
inductive SpliceError where
  /-- `second` starts before the replaced range `first` has ended. -/
  | overlap (first second : Span)
  /-- `span` leaves the text that reaches from `base` to `stop`, or cuts a character. -/
  | outOfBounds (span : Span) (base stop : Nat)
deriving DecidableEq, Repr

def SpliceError.message : SpliceError → String
  | .overlap first second =>
    "edit at " ++ second.render ++ " overlaps replaced range " ++ first.render
  | .outOfBounds span base stop =>
    "edit at " ++ span.render ++ " is outside the buffer (" ++ (Span.mk base stop).render ++ ")"

namespace EditQueue

def partition (queue : EditQueue) (span : Span) : EditQueue × EditQueue :=
  List.partition (Edit.isInside span) queue

def ordered (queue : EditQueue) : EditQueue :=
  queue.mergeSort Edit.notAfter

def fits (source : List Char) (base : Nat) (e : Edit) : Bool :=
  base ≤ e.span.start && e.span.stop ≤ base + Text.width source
    && Text.isBoundary source (e.span.start - base)
    && Text.isBoundary source (e.span.stop - base)

/-- Whether the edit starts before the last replaced range has ended. -/
def collides (last : Option Span) (e : Edit) : Bool :=
  match last with
  | some previous => e.offset < previous.stop
  | none => false

def spliceFrom (source : List Char) (base cursor : Nat) (rest : List Char) (last : Option Span) :
    List Edit → Except SpliceError (List Char)
  | [] => .ok rest
  | e :: es =>
    if !fits source base e then
      .error (.outOfBounds e.span base (base + Text.width source))
    else if collides last e then
      .error (.overlap (last.getD e.span) e.span)
    else
      let kept := Text.takeBytes (e.span.start - cursor) rest ++ e.text.toList
      let rest := Text.sliceFrom rest (e.span.start - cursor)
      match e.kind with
      | .replace =>
        (spliceFrom source base e.span.stop
          (Text.sliceFrom rest (e.span.stop - e.span.start)) (some e.span) es).map (kept ++ ·)
      | .insertBefore | .insertAfter =>
        (spliceFrom source base e.span.start rest last es).map (kept ++ ·)

def apply (queue : EditQueue) (source : List Char) (base : Nat) :
    Except SpliceError (List Char) :=
  spliceFrom source base base source none queue.ordered

end EditQueue

end Encapsulate
