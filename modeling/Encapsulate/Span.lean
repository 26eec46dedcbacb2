/-!
Half-open byte ranges of a text. Every position in this library, from parsed
nodes to queued edits, is a span or one of its ends.
-/

namespace Encapsulate

/-- The bytes from `start` up to but not including `stop`. -/
structure Span where
  start : Nat
  stop : Nat
deriving DecidableEq, Inhabited, Repr

namespace Span

def point (offset : Nat) : Span :=
  ⟨offset, offset⟩

def contains (outer inner : Span) : Bool :=
  outer.start ≤ inner.start && inner.stop ≤ outer.stop

def strictlyContains (span : Span) (offset : Nat) : Bool :=
  span.start < offset && offset < span.stop

def render (span : Span) : String :=
  toString span.start ++ ".." ++ toString span.stop

end Span

end Encapsulate
