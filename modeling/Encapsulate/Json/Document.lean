import Encapsulate.Json.Token

/-!
Documents of a JSON text, as they are written: strings keep their escapes,
numbers their digits and objects their repeated keys. A text may hold several
documents. The containers that are open are kept as frames, so that reading is
recursion on the tokens alone. The first fault ends the list of documents.
-/

namespace Encapsulate.Json

inductive Document where
  | null
  | bool (b : Bool)
  | number (text : NumberText)
  | string (units : List Unit16)
  | array (items : List Document)
  | object (members : List (List Unit16 × Document))

namespace Document

/-- A container that is still open, its latest part first. -/
inductive Frame where
  | array (items : List Document)
  | object (members : List (List Unit16 × Document))
  /-- An object whose value for `key` is being read. -/
  | member (members : List (List Unit16 × Document)) (key : List Unit16)

/-- What may come next. -/
inductive Expect where
  | value
  /-- A value, or the end of the array just opened. -/
  | firstItem
  | key
  /-- A key, or the end of the object just opened. -/
  | firstKey
  | colon
  /-- A comma, or the end of the innermost container. -/
  | rest

def ofToken? : Token → Option Document
  | .string units => some (.string units)
  | .number text => some (.number text)
  | .bool b => some (.bool b)
  | .null => some .null
  | _ => none

/-- What a step of the reader comes to. -/
inductive Step where
  | next (frames : List Frame) (expect : Expect)
  | done (document : Document)
  | fault

def finish (frames : List Frame) (v : Document) : Step :=
  match frames with
  | [] => .done v
  | .array items :: frames => .next (.array (v :: items) :: frames) .rest
  | .member members key :: frames => .next (.object ((key, v) :: members) :: frames) .rest
  | .object _ :: _ => .fault

def start (frames : List Frame) (t : Token) : Step :=
  match t with
  | .openArray => .next (.array [] :: frames) .firstItem
  | .openObject => .next (.object [] :: frames) .firstKey
  | t =>
    match ofToken? t with
    | some v => finish frames v
    | none => .fault

def step (frames : List Frame) (expect : Expect) (t : Token) : Step :=
  match expect, t, frames with
  | .value, t, frames => start frames t
  | .firstItem, .closeArray, .array items :: frames => finish frames (.array items.reverse)
  | .firstItem, t, frames => start frames t
  | .firstKey, .closeObject, .object members :: frames => finish frames (.object members.reverse)
  | .firstKey, .string key, .object members :: frames =>
    .next (.member members key :: frames) .colon
  | .key, .string key, .object members :: frames => .next (.member members key :: frames) .colon
  | .colon, .colon, frames => .next frames .value
  | .rest, .comma, .array items :: frames => .next (.array items :: frames) .value
  | .rest, .comma, .object members :: frames => .next (.object members :: frames) .key
  | .rest, .closeArray, .array items :: frames => finish frames (.array items.reverse)
  | .rest, .closeObject, .object members :: frames => finish frames (.object members.reverse)
  | _, _, _ => .fault

/-- The documents of a list of tokens; nothing stands for a fault, which is last. -/
def readFrom (frames : List Frame) (expect : Expect) : List Token → List (Option Document)
  | [] =>
    match frames, expect with
    | [], .value => []
    | _, _ => [none]
  | t :: ts =>
    match step frames expect t with
    | .next frames expect => readFrom frames expect ts
    | .done d => some d :: readFrom [] .value ts
    | .fault => [none]

def stream (text : String) : List (Option Document) :=
  readFrom [] .value (Token.ofText text)

def ofText? (text : String) : Option Document :=
  match stream text with
  | [some d] => some d
  | _ => none

end Document

end Encapsulate.Json
