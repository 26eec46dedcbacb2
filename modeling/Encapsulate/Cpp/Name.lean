import Encapsulate.Text.Blank
import Encapsulate.Text.Upper

/-!
Qualified C++ names. A name is a text whose segments are separated by `::`; a
leading separator means the global namespace. Accessor names put the field name
behind `get` or `set` with its first character in upper case.
-/

namespace Encapsulate.Cpp.Name

def dropGlobal : List Char → List Char
  | ':' :: ':' :: cs => dropGlobal cs
  | cs => cs

def dropInline : List Char → List Char
  | 'i' :: 'n' :: 'l' :: 'i' :: 'n' :: 'e' :: cs => dropInline cs
  | cs => cs

def consFirst (c : Char) : List (List Char) → List (List Char)
  | [] => [[c]]
  | segment :: later => (c :: segment) :: later

/-- The parts of a text between separators, read from the left. -/
def segments : List Char → List (List Char)
  | [] => [[]]
  | ':' :: ':' :: cs => [] :: segments cs
  | c :: cs => consFirst c (segments cs)

def splitFirst : List Char → Option (List Char × List Char)
  | ':' :: ':' :: cs => some ([], cs)
  | c :: cs => (splitFirst cs).map fun (left, right) => (c :: left, right)
  | [] => none

def splitLast (cs : List Char) : Option (List Char × List Char) :=
  (splitFirst cs.reverse).map fun (last, owner) => (owner.reverse, last.reverse)

def isQualified (name : String) : Bool :=
  Text.occursIn [':', ':'] name.toList

def withoutGlobal (name : String) : String :=
  String.ofList (dropGlobal name.toList)

def join (path : List String) : String :=
  String.intercalate "::" path

def qualify (path : List String) (name : String) : String :=
  join (path ++ [name])

/-- `name` qualified by each enclosing scope of `path`, the innermost first and
the global one last. -/
def candidates (path : List String) (name : String) : List String :=
  (List.range (path.length + 1)).reverse.map fun depth => qualify (path.take depth) name

def getter (field : String) : String :=
  "get" ++ String.ofList (Text.capitalize field.toList)

def setter (field : String) : String :=
  "set" ++ String.ofList (Text.capitalize field.toList)

end Encapsulate.Cpp.Name
