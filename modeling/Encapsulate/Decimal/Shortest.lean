/-!
The shortest decimal that reads back as a given double. A finite double is
`m * 2 ^ q`; the reals that round to it form an interval around it, whose ends
belong to it exactly when `m` is even. On the grid of decimals with one digit, two
digits and so on, the two neighbours of the value are tested in exact arithmetic,
and the first grid with a hit decides. Of two hits the nearer one is taken, and
the even one if both are equally near.
-/

namespace Encapsulate.Decimal

/-- The number `digits * 10 ^ exponent`. -/
structure Scaled where
  digits : Nat
  exponent : Int
deriving DecidableEq, Repr

/-- A positive real with the interval of what rounds to it, as multiples of one
common fraction: the value is `value / denominator`, and so on. -/
structure Interval where
  low : Nat
  value : Nat
  high : Nat
  denominator : Nat
  isClosed : Bool

def Interval.ofBits (bits : UInt64) : Interval :=
  let fraction : Nat := bits.toNat % Nat.pow 2 52
  let exponent : Nat := bits.toNat / Nat.pow 2 52 % Nat.pow 2 11
  let m := if exponent = 0 then fraction else fraction + Nat.pow 2 52
  -- the unit is a quarter of the value of the last bit
  let shift : Int := (if exponent = 0 then 1 else (exponent : Int)) - 1077
  let below := if fraction = 0 ∧ 1 < exponent then 1 else 2
  let scale := Nat.pow 2 shift.toNat
  { low := (4 * m - below) * scale
    value := 4 * m * scale
    high := (4 * m + 2) * scale
    denominator := Nat.pow 2 (-shift).toNat
    isClosed := m % 2 == 0 }

namespace Interval

def holds (i : Interval) (d : Nat) : Bool :=
  if i.isClosed then i.low ≤ d && d ≤ i.high else i.low < d && d < i.high

def magnitude (i : Interval) : Int :=
  if i.denominator ≤ i.value then ((toString (i.value / i.denominator)).length : Int) - 1
  else -((toString (i.denominator / i.value)).length : Int)

/-- The neighbour of the value with `count` digits that lies in the interval. -/
def neighbour? (i : Interval) (count : Nat) : Option Scaled :=
  let exponent := i.magnitude - count + 1
  -- everything is multiplied by the same power of ten, so that the grid is whole
  let up := Nat.pow 10 (-exponent).toNat
  let grid := Nat.pow 10 exponent.toNat * i.denominator
  let scaled : Interval := { i with low := i.low * up, value := i.value * up, high := i.high * up }
  let d := scaled.value / grid
  let lower := scaled.holds (d * grid)
  let upper := scaled.holds ((d + 1) * grid)
  let toLower := scaled.value - d * grid
  let toUpper := (d + 1) * grid - scaled.value
  if lower && (!upper || toLower < toUpper || (toLower == toUpper && d % 2 == 0)) then
    some ⟨d, exponent⟩
  else if upper then
    some ⟨d + 1, exponent⟩
  else
    none

def shortest (i : Interval) : Scaled :=
  ((List.range 17).findSome? fun n => i.neighbour? (n + 1)).getD ⟨0, 0⟩

end Interval

def Scaled.normalize (s : Scaled) : Scaled :=
  let text := (toString s.digits).toList
  let zeros := (text.reverse.takeWhile (· == '0')).length
  ⟨s.digits / Nat.pow 10 zeros, s.exponent + zeros⟩

end Encapsulate.Decimal
