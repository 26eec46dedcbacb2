import Encapsulate.Text.Offset
import Encapsulate.Tree

/-!
Concrete syntax of a C++ file as a parser delivers it. A node has a kind, the
span of its text and perhaps the name of the field it fills in its parent.
Punctuation is unnamed and kept only where its place matters. Comments may stand
anywhere and are passed over.
-/

namespace Encapsulate.Cpp

structure ParseNode where
  kind : String
  isNamed : Bool
  span : Span
  field : Option String := none
deriving DecidableEq, Repr

abbrev ParseTree := Tree ParseNode

/-- A file's tree, and whether the parser met errors in it. -/
structure Parsed where
  tree : ParseTree
  hasErrors : Bool

abbrev Parser := String → Parsed

namespace ParseTree

def kind (t : ParseTree) : String :=
  t.info.kind

def span (t : ParseTree) : Span :=
  t.info.span

def text (source : List Char) (t : ParseTree) : String :=
  Text.sliceString source t.span

def fills (field : String) (t : ParseTree) : Bool :=
  t.info.field == some field

def isItem (t : ParseTree) : Bool :=
  t.info.isNamed && t.kind != "comment"

def items (ts : List ParseTree) : List ParseTree :=
  ts.filter isItem

def field? (field : String) (ts : List ParseTree) : Option ParseTree :=
  ts.find? (fills field)

def fieldAll (field : String) (ts : List ParseTree) : List ParseTree :=
  ts.filter (fills field)

def hasField (field : String) (ts : List ParseTree) : Bool :=
  ts.any (fills field)

end ParseTree

end Encapsulate.Cpp
