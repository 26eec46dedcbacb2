import Encapsulate.Json.Number

/-!
Tokens of a JSON text. The text is read one character at a time. Outside of
strings, everything between blanks, brackets, quotes, commas and colons is one
word, which must be a literal or a number. What cannot be read becomes a bad
token at its place, so that what comes before it is still understood.
-/

namespace Encapsulate.Json

/-- A piece of a string: a character, or a code unit given by its number. -/
inductive Unit16 where
  | char (c : Char)
  | escaped (n : Nat)
deriving DecidableEq, Repr

inductive Token where
  | openArray
  | closeArray
  | openObject
  | closeObject
  | comma
  | colon
  | string (units : List Unit16)
  | number (text : NumberText)
  | bool (b : Bool)
  | null
  | bad
deriving DecidableEq, Repr

namespace Token

def isSpace (c : Char) : Bool :=
  c == ' ' || c == '\n' || c == '\t' || c == '\r'

def ofPunctuation? : Char → Option Token
  | '[' => some .openArray
  | ']' => some .closeArray
  | '\x7b' => some .openObject
  | '\x7d' => some .closeObject
  | ',' => some .comma
  | ':' => some .colon
  | _ => none

def ofWord (word : List Char) : Token :=
  if word = "null".toList then .null
  else if word = "true".toList then .bool true
  else if word = "false".toList then .bool false
  else
    match NumberText.ofChars? word with
    | some text => .number text
    | none => .bad

def shortEscape? : Char → Option Char
  | '"' => some '"'
  | '\\' => some '\\'
  | '/' => some '/'
  | 'b' => some '\x08'
  | 'f' => some '\x0c'
  | 'n' => some '\n'
  | 'r' => some '\r'
  | 't' => some '\t'
  | _ => none

def hexDigit? (c : Char) : Option Nat :=
  if '0' ≤ c && c ≤ '9' then some (c.toNat - '0'.toNat)
  else if 'a' ≤ c && c ≤ 'f' then some (c.toNat - 'a'.toNat + 10)
  else if 'A' ≤ c && c ≤ 'F' then some (c.toNat - 'A'.toNat + 10)
  else none

/-- Where the reader stands. What has been read of a word or a string is kept with
the latest piece first. -/
inductive Place where
  | between
  | word (read : List Char)
  | string (units : List Unit16)
  | escape (units : List Unit16)
  /-- Inside a numbered escape of which `count` digits are still to come. -/
  | hex (units : List Unit16) (value count : Nat)

def atEnd : Place → List Token
  | .between => []
  | .word read => [ofWord read.reverse]
  | .string _ | .escape _ | .hex .. => [.bad]

def readFrom : Place → List Char → List Token
  | place, [] => atEnd place
  | .between, c :: cs =>
    if isSpace c then readFrom .between cs
    else if c = '"' then readFrom (.string []) cs
    else
      match ofPunctuation? c with
      | some t => t :: readFrom .between cs
      | none => readFrom (.word [c]) cs
  | .word read, c :: cs =>
    if isSpace c then ofWord read.reverse :: readFrom .between cs
    else if c = '"' then ofWord read.reverse :: readFrom (.string []) cs
    else
      match ofPunctuation? c with
      | some t => ofWord read.reverse :: t :: readFrom .between cs
      | none => readFrom (.word (c :: read)) cs
  | .string units, c :: cs =>
    if c = '"' then .string units.reverse :: readFrom .between cs
    else if c = '\\' then readFrom (.escape units) cs
    else if c.toNat < 0x20 then [.bad]
    else readFrom (.string (.char c :: units)) cs
  | .escape units, c :: cs =>
    if c = 'u' then readFrom (.hex units 0 4) cs
    else
      match shortEscape? c with
      | some d => readFrom (.string (.char d :: units)) cs
      | none => [.bad]
  | .hex units value count, c :: cs =>
    match hexDigit? c with
    | none => [.bad]
    | some d =>
      if count ≤ 1 then readFrom (.string (.escaped (value * 16 + d) :: units)) cs
      else readFrom (.hex units (value * 16 + d) (count - 1)) cs

def ofText (text : String) : List Token :=
  readFrom .between text.toList

end Token

/-- The text of a string's pieces. A high surrogate must be followed by a low one,
and a low one must not stand alone. -/
def decodeUnits : List Unit16 → Option (List Char)
  | [] => some []
  | .char c :: us => (decodeUnits us).map (c :: ·)
  | .escaped high :: us =>
    if high < 0xd800 || 0xe000 ≤ high then (decodeUnits us).map (Char.ofNat high :: ·)
    else if 0xdc00 ≤ high then none
    else
      match us with
      | .escaped low :: us =>
        if 0xdc00 ≤ low && low < 0xe000 then
          let c := Char.ofNat (0x10000 + (high - 0xd800) * 0x400 + (low - 0xdc00))
          (decodeUnits us).map (c :: ·)
        else none
      | _ => none

end Encapsulate.Json
