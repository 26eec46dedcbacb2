import Encapsulate.Cpp.Name

/-!
Types as they are written in a declaration. The specifier is kept as text; the
declarator adds pointer levels, an array mark and a reference. A written type is
reduced to a lookup name before records are searched: template arguments,
qualifiers, elaborated keywords and leading separators are taken away.
-/

namespace Encapsulate.Cpp

inductive Reference where
  | lvalue
  | rvalue
deriving DecidableEq, Repr

structure TypeRef where
  /-- The specifier without declarator parts, as in `unsigned int`. -/
  base : String := ""
  isConst : Bool := false
  isVolatile : Bool := false
  /-- One entry for each `*`, outermost first; true for `* const`. -/
  pointers : List Bool := []
  isArray : Bool := false
  reference : Option Reference := none
deriving DecidableEq, Repr, Inhabited

/-- Removes everything between angle brackets, and the brackets; `depth` of them
are open. A closing bracket too many is dropped as well. -/
def withoutArgumentsFrom (depth : Nat) : List Char → List Char
  | [] => []
  | '<' :: cs => withoutArgumentsFrom (depth + 1) cs
  | '>' :: cs => withoutArgumentsFrom (depth - 1) cs
  | c :: cs =>
    if depth = 0 then c :: withoutArgumentsFrom depth cs else withoutArgumentsFrom depth cs

def qualifierWords : List (List Char) :=
  ["const", "volatile", "struct", "class", "union", "typename", "enum"].map String.toList

def joinWords : List (List Char) → List Char
  | [] => []
  | [w] => w
  | w :: ws => w ++ ' ' :: joinWords ws

def lookupChars (written : List Char) : List Char :=
  Name.dropGlobal
    (joinWords ((Text.words (withoutArgumentsFrom 0 written)).filter (!qualifierWords.contains ·)))

def lookupName (written : String) : String :=
  String.ofList (lookupChars written.toList)

/-- Standard templates whose `[]`, `*`, `->` or iteration gives their first argument. -/
def elementTemplates : List String :=
  ["std::vector", "std::array", "std::deque", "std::list", "std::forward_list", "std::span",
   "std::initializer_list", "std::unique_ptr", "std::shared_ptr", "std::optional"]

/-- The text up to the comma or bracket that ends a template argument, with
`depth` brackets open. Angle brackets and parentheses share one count. -/
def argumentFrom (depth : Nat) : List Char → Option (List Char)
  | [] => none
  | c :: cs =>
    if c = '<' ∨ c = '(' then (argumentFrom (depth + 1) cs).map (c :: ·)
    else if (c = '>' ∨ c = ')') ∧ 0 < depth then (argumentFrom (depth - 1) cs).map (c :: ·)
    else if (c = ',' ∨ c = '>') ∧ depth = 0 then some []
    else (argumentFrom depth cs).map (c :: ·)

def elementChars (written : List Char) : Option (List Char) := do
  guard (elementTemplates.contains (String.ofList (lookupChars written)))
  let argument ← argumentFrom 0 ((written.dropWhile (· != '<')).drop 1)
  let argument := Text.trim argument
  guard (!argument.isEmpty)
  return argument

/-- First argument of a standard container or smart pointer, such as `Foo` for
`std::vector<Foo>`. -/
def elementType (written : String) : Option String :=
  (elementChars written.toList).map String.ofList

/-- Spells a reference to a type: a space stands before `&` except after `*`. -/
def referenceTo (spelled : String) : String :=
  if Text.endsWith spelled.toList ['*'] then spelled ++ "&" else spelled ++ " &"

namespace TypeRef

def named (base : String) : TypeRef :=
  { base }

def lookupName (t : TypeRef) : String :=
  Cpp.lookupName t.base

def isAuto (t : TypeRef) : Bool :=
  t.lookupName == "auto" || "decltype".toList.isPrefixOf t.lookupName.toList

def isPointer (t : TypeRef) : Bool :=
  !t.pointers.isEmpty

def isMutableReference (t : TypeRef) : Bool :=
  t.reference == some .lvalue &&
    match t.pointers.getLast? with
    | some isConst => !isConst
    | none => !t.isConst

def spelled (t : TypeRef) : String :=
  let stars := t.pointers.map fun isConst => if isConst then "*const " else "*"
  let text := (if t.isConst then "const " else "") ++ (if t.isVolatile then "volatile " else "")
    ++ t.base ++ (if t.pointers.isEmpty then "" else " " ++ String.join stars)
  String.ofList (Text.trimEnd text.toList)

def constSpelled (t : TypeRef) : String :=
  match t.pointers.getLast? with
  | none => if t.isConst then t.spelled else "const " ++ t.spelled
  | some true => t.spelled
  | some false => t.spelled ++ "const"

end TypeRef

end Encapsulate.Cpp
