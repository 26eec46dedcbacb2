import Encapsulate.Json.Document

/-!
JSON values. A document has a value when its strings are well-formed text, its
numbers are in range and its containers are nested at most 127 deep. Of a
repeated key the last value counts, at the place of the first.
-/

namespace Encapsulate.Json

inductive Value where
  | null
  | bool (b : Bool)
  | number (n : Number)
  | string (s : String)
  | array (items : List Value)
  | object (members : List (String × Value))
deriving Inhabited

/-- Sets the value of a key, at the place it has or else at the end. -/
def setMember {α : Type} (key : String) (v : α) : List (String × α) → List (String × α)
  | [] => [(key, v)]
  | (k, w) :: ms => if k == key then (k, v) :: ms else (k, w) :: setMember key v ms

def decodeString? (units : List Unit16) : Option String :=
  (decodeUnits units).map String.ofList

def maxDepth : Nat := 127

namespace Document

mutual

/-- The value of a document in which containers may be nested `room` deep. -/
def value? (room : Nat) : Document → Option Value
  | .null => some .null
  | .bool b => some (.bool b)
  | .number text => text.value?.map .number
  | .string units => (decodeString? units).map .string
  | .array items => if room = 0 then none else (values? (room - 1) items).map .array
  | .object members => if room = 0 then none else (members? (room - 1) [] members).map .object

def values? (room : Nat) : List Document → Option (List Value)
  | [] => some []
  | d :: ds => (value? room d).bind fun v => (values? room ds).map (v :: ·)

def members? (room : Nat) (read : List (String × Value)) :
    List (List Unit16 × Document) → Option (List (String × Value))
  | [] => some read
  | (key, d) :: ms =>
    (decodeString? key).bind fun k => (value? room d).bind fun v =>
      members? room (setMember k v read) ms

end

end Document

namespace Value

def strings? : List Value → Option (List String)
  | [] => some []
  | .string s :: vs => (strings? vs).map (s :: ·)
  | _ :: _ => none

def stringList? : Value → Option (List String)
  | .array items => strings? items
  | _ => none

def escapeChar (c : Char) : List Char :=
  match c with
  | '"' => ['\\', '"']
  | '\\' => ['\\', '\\']
  | '\x08' => ['\\', 'b']
  | '\x0c' => ['\\', 'f']
  | '\n' => ['\\', 'n']
  | '\r' => ['\\', 'r']
  | '\t' => ['\\', 't']
  | c =>
    if c.toNat < 0x20 then
      ['\\', 'u', '0', '0', Nat.digitChar (c.toNat / 16), Nat.digitChar (c.toNat % 16)]
    else
      [c]

def quote (s : String) : String :=
  String.ofList ('"' :: s.toList.flatMap escapeChar ++ ['"'])

/-- The text of a value that is not a container; containers are only named by
their brackets. -/
def renderScalar : Value → String
  | .null => "null"
  | .bool true => "true"
  | .bool false => "false"
  | .number n => n.render
  | .string s => quote s
  | .array _ => "[]"
  | .object _ => "\x7b\x7d"

end Value

end Encapsulate.Json
