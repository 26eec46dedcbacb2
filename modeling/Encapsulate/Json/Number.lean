import Encapsulate.Decimal.Shortest

/-!
Numbers of a JSON text. A number without fraction and exponent that fits into 64
bits stays whole; every other number becomes a double. The significand is read
into 64 bits as far as it goes; later whole digits only count towards the
exponent and later decimals are dropped. The double is then scaled by one power
of ten, and a number beyond the range of doubles is refused.
-/

namespace Encapsulate.Json

/-- The parts of a written number. -/
structure NumberText where
  isNegative : Bool
  whole : List Nat
  /-- Decimals; none when there is no point. -/
  decimals : Option (List Nat)
  /-- Whether the exponent is negative, and its digits. -/
  exponent : Option (Bool × List Nat)
deriving DecidableEq, Repr

inductive Number where
  | whole (n : Int)
  | double (x : Float)

def digit? (c : Char) : Option Nat :=
  if c.isDigit then some (c.toNat - '0'.toNat) else none

def takeDigits : List Char → List Nat × List Char
  | [] => ([], [])
  | c :: cs =>
    match digit? c with
    | some d => let (ds, rest) := takeDigits cs; (d :: ds, rest)
    | none => ([], c :: cs)

namespace NumberText

def exponent? : List Char → Option (Option (Bool × List Nat))
  | [] => some none
  | c :: cs =>
    if c != 'e' && c != 'E' then none
    else
      let (isNegative, cs) := match cs with
        | '-' :: cs => (true, cs)
        | '+' :: cs => (false, cs)
        | cs => (false, cs)
      match takeDigits cs with
      | (d :: ds, []) => some (some (isNegative, d :: ds))
      | _ => none

def ofChars? (cs : List Char) : Option NumberText :=
  let (isNegative, cs) := match cs with
    | '-' :: cs => (true, cs)
    | cs => (false, cs)
  match takeDigits cs with
  | ([], _) => none
  | (0 :: _ :: _, _) => none
  | (whole, '.' :: cs) =>
    match takeDigits cs with
    | ([], _) => none
    | (decimals, rest) => (exponent? rest).map (⟨isNegative, whole, some decimals, ·⟩)
  | (whole, rest) => (exponent? rest).map (⟨isNegative, whole, none, ·⟩)

end NumberText

def maxSignificand : Nat := Nat.pow 2 64 - 1

/-- Appends digits to a significand while it fits, and counts those left over. -/
def accumulate (significand : Nat) : List Nat → Nat × Nat
  | [] => (significand, 0)
  | d :: ds =>
    if maxSignificand < significand * 10 + d then (significand, ds.length + 1)
    else accumulate (significand * 10 + d) ds

def powerOfTen (n : Nat) : Float :=
  Float.ofScientific 1 false n

/-- Divides by `10 ^ n`, in steps that doubles can hold. -/
def scaleDown (x : Float) (n : Nat) : Float :=
  if n ≤ 308 then x / powerOfTen n
  else if x == 0 then x
  else scaleDown (x / powerOfTen 308) (n - 308)
termination_by n

def scale? (significand : Nat) (exponent : Int) : Option Float :=
  let x := significand.toUInt64.toFloat
  if exponent < 0 then some (scaleDown x (-exponent).toNat)
  else if exponent ≤ 308 then
    let y := x * powerOfTen exponent.toNat
    if y.isInf then none else some y
  else if x == 0 then some x
  else none

def maxExponent : Nat := Nat.pow 2 31 - 1

namespace NumberText

def magnitude? (t : NumberText) : Option Float :=
  let (significand, dropped) := accumulate 0 t.whole
  let decimals := t.decimals.getD []
  let (significand, left) := accumulate significand decimals
  let exponent : Int := (dropped : Int) - ((decimals.length - left : Nat) : Int)
  match t.exponent with
  | none => scale? significand exponent
  | some (isNegative, ds) =>
    let written := ds.foldl (fun n d => n * 10 + d) 0
    if written ≤ maxExponent then
      scale? significand (if isNegative then exponent - written else exponent + written)
    else if isNegative || significand == 0 then
      some 0
    else
      none

def value? (t : NumberText) : Option Number :=
  let n := t.whole.foldl (fun n d => n * 10 + d) 0
  let isPlain := t.decimals.isNone && t.exponent.isNone
  if isPlain && !t.isNegative && n ≤ maxSignificand then some (.whole n)
  else if isPlain && t.isNegative && 0 < n && n ≤ Nat.pow 2 63 then some (.whole (-(n : Int)))
  else t.magnitude?.map fun x => .double (if t.isNegative then -x else x)

end NumberText

/-- Writes digits with a point or an exponent. Numbers from `10 ^ -5` up to below
`10 ^ 16` are positional, and every positional number has a decimal. An exponent
always has a sign. -/
def renderScaled (s : Decimal.Scaled) : String :=
  let digits := toString s.digits
  let zeros (n : Int) : String := String.ofList (List.replicate n.toNat '0')
  let point : Int := digits.length + s.exponent
  if 0 ≤ s.exponent && point ≤ 16 then digits ++ zeros s.exponent ++ ".0"
  else if 0 < point && point ≤ 16 then
    String.ofList (digits.toList.take point.toNat) ++ "."
      ++ String.ofList (digits.toList.drop point.toNat)
  else if -5 < point && point ≤ 0 then "0." ++ zeros (-point) ++ digits
  else
    let mantissa := match digits.toList with
      | first :: second :: rest => String.ofList (first :: '.' :: second :: rest)
      | _ => digits
    mantissa ++ (if 0 < point then "e+" else "e-") ++ toString (point - 1).natAbs

def renderDouble (x : Float) : String :=
  let bits := x.toBits
  let sign := if bits.toNat < Nat.pow 2 63 then "" else "-"
  let unsigned := bits.toNat % Nat.pow 2 63
  if unsigned = 0 then sign ++ "0.0"
  else sign ++ renderScaled (Decimal.Interval.ofBits unsigned.toUInt64).shortest.normalize

def Number.render : Number → String
  | .whole n => toString n
  | .double x => renderDouble x

end Encapsulate.Json
