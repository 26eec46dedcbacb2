import Encapsulate.Span

/-!
Texts as lists of characters, addressed by byte offsets: a character is as wide
as its UTF-8 form. An offset is a boundary when it falls between two characters
or at either end, which is exactly when the bytes before it can be dropped.
-/

namespace Encapsulate.Text

def width : List Char → Nat
  | [] => 0
  | c :: cs => c.utf8Size + width cs

/-- What follows the first `n` bytes; nothing when `n` falls inside a character
or past the end. -/
def dropBytes : Nat → List Char → Option (List Char)
  | 0, cs => some cs
  | _ + 1, [] => none
  | n + 1, c :: cs =>
    if c.utf8Size ≤ n + 1 then dropBytes (n + 1 - c.utf8Size) cs else none

/-- The longest initial part of at most `n` bytes. -/
def takeBytes (n : Nat) : List Char → List Char
  | [] => []
  | c :: cs => if c.utf8Size ≤ n then c :: takeBytes (n - c.utf8Size) cs else []

def isBoundary (cs : List Char) (offset : Nat) : Bool :=
  (dropBytes offset cs).isSome

def sliceFrom (cs : List Char) (offset : Nat) : List Char :=
  (dropBytes offset cs).getD []

def slice (cs : List Char) (span : Span) : List Char :=
  takeBytes (span.stop - span.start) (sliceFrom cs span.start)

def sliceString (cs : List Char) (span : Span) : String :=
  String.ofList (slice cs span)

@[simp] theorem dropBytes_zero (cs : List Char) : dropBytes 0 cs = some cs := by
  cases cs <;> rfl

theorem width_append (as bs : List Char) : width (as ++ bs) = width as + width bs := by
  induction as with
  | nil => simp [width]
  | cons a as ih => simp only [List.cons_append, width, ih]; omega

end Encapsulate.Text
