/-! # Shortest decimals

The fewest digits that read back as a given binary number. The reals that round to the number form
an interval; of the powers of ten with a multiple in it the largest is taken, and of its multiples
the nearest to the number.
-/
namespace DancingLinks.Decimal

structure Digits where
  digits : Nat
  up : Nat
  down : Nat
deriving DecidableEq

/-- A positive number `center * scale / 4 / base` with the bounds of the interval of reals that
round to it, all three over the same scale. -/
structure Interval where
  low : Nat
  center : Nat
  high : Nat
  scale : Nat
  base : Nat
  /-- Whether the bounds themselves round to the number. -/
  closed : Bool

/-- The interval of the double `mantissa * 2 ^ (exponent - 1075)`. Below a power of two the
neighbouring doubles are half as far apart. -/
def Interval.ofDouble (mantissa exponent : Nat) : Interval where
  low := if mantissa = Nat.pow 2 52 ∧ 1 < exponent then 4 * mantissa - 1 else 4 * mantissa - 2
  center := 4 * mantissa
  high := 4 * mantissa + 2
  scale := Nat.pow 2 (exponent - 1075)
  base := 4 * Nat.pow 2 (1075 - exponent)
  closed := mantissa % 2 = 0

def Interval.contains (i : Interval) (digits up down : Nat) : Bool :=
  let x := digits * up * i.base
  let low := i.low * i.scale * down
  let high := i.high * i.scale * down
  if i.closed then low ≤ x && x ≤ high else low < x && x < high

/-- The multiple of `up / down` in the interval that is nearest to its number, the upper of two
equally near. -/
def Interval.nearest? (i : Interval) (up down : Nat) : Option Nat :=
  let x := i.center * i.scale * down
  let unit := up * i.base
  let floor := x / unit
  match i.contains floor up down && floor ≠ 0, i.contains (floor + 1) up down with
  | true, true => some (if 2 * (x % unit) < unit then floor else floor + 1)
  | true, false => some floor
  | false, true => some (floor + 1)
  | false, false => none

/-- Tries the powers of ten `10 ^ (power - 400)` downwards. -/
def Interval.shortest (i : Interval) : Nat → Digits
  | 0 => ⟨0, 0, 0⟩
  | power + 1 =>
    match i.nearest? (Nat.pow 10 (power - 400)) (Nat.pow 10 (400 - power)) with
    | some digits => ⟨digits, power - 400, 400 - power⟩
    | none => i.shortest power

/-- The shortest decimal of the magnitude with the given bits, which are not those of an infinity
or a NaN. No double reaches `10 ^ 309`. -/
def shortest (bits : Nat) : Digits :=
  let exponent := bits / Nat.pow 2 52 % Nat.pow 2 11
  let fraction := bits % Nat.pow 2 52
  if exponent = 0 ∧ fraction = 0 then ⟨0, 0, 0⟩
  else if exponent = 0 then (Interval.ofDouble fraction 1).shortest 710
  else (Interval.ofDouble (fraction + Nat.pow 2 52) exponent).shortest 710

end DancingLinks.Decimal
