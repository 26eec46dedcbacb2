import Encapsulate.Text.Offset

/-!
Lines of a text. A line starts at offset zero or just after a newline; offsets
past the end belong to the last line. The blanks at the front of a line are what
inserted lines are indented with.
-/

namespace Encapsulate.Text

/-- Start of the line that holds `offset` in a text that begins at offset `here`,
when the line reached so far starts at `line`. -/
def lineStartFrom (offset here line : Nat) : List Char → Nat
  | [] => line
  | c :: cs =>
    if offset ≤ here then line
    else if c = '\n' then lineStartFrom offset (here + 1) (here + 1) cs
    else lineStartFrom offset (here + c.utf8Size) line cs

def lineStart (cs : List Char) (offset : Nat) : Nat :=
  lineStartFrom offset 0 0 cs

def isIndent (c : Char) : Bool :=
  c == ' ' || c == '\t'

def lineIndent (cs : List Char) (offset : Nat) : List Char :=
  (sliceFrom cs (lineStart cs offset)).takeWhile isIndent

def indentBefore (cs : List Char) (offset : Nat) : List Char :=
  (slice cs ⟨lineStart cs offset, offset⟩).takeWhile isIndent

end Encapsulate.Text
