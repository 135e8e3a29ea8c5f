import DancingLinks.Decimal.Shortest

/-! # Numbers as text

How a floating-point number is written, and which texts are read as one.
-/
namespace DancingLinks.Decimal

/-- Where a number with the given digits is written with an exponent. -/
structure Style where
  /-- The least power of ten that is written out. -/
  leastPower : Int
  /-- The least power of ten that is not written out any more. -/
  powerLimit : Int
  nan : String
  infinity : String

/-- Numbers from `0.0001` to below `10 ^ 16` are written out, always with a digit after the
point. -/
def plainStyle : Style := ⟨-4, 16, "NaN", "inf"⟩

def zeros (n : Nat) : String := String.ofList (List.replicate n '0')

def withPoint (digits : List Char) (whole : Int) : String :=
  if whole ≤ 0 then "0." ++ zeros (-whole).toNat ++ String.ofList digits
  else
    let n := whole.toNat
    let fraction := if digits.length ≤ n then ['0'] else digits.drop n
    String.ofList (digits.take n) ++ zeros (n - digits.length) ++ "." ++ String.ofList fraction

def withExponent (digits : List Char) (power : Int) : String :=
  let fraction := if digits.length ≤ 1 then "" else "." ++ String.ofList (digits.drop 1)
  String.ofList (digits.take 1) ++ fraction ++ "e" ++ toString power

def renderMagnitude (style : Style) (d : Digits) : String :=
  let digits := Nat.toDigits 10 d.digits
  let power : Int := digits.length - 1 + d.up - d.down
  if d.digits = 0 then "0.0"
  else if style.leastPower ≤ power ∧ power < style.powerLimit then withPoint digits (power + 1)
  else withExponent digits power

def render (style : Style) (x : Float) : String :=
  let bits := x.toBits.toNat
  let sign := if bits < Nat.pow 2 63 then "" else "-"
  if x.isNaN then style.nan
  else if x.isInf then sign ++ style.infinity
  else sign ++ renderMagnitude style (shortest (bits % Nat.pow 2 63))

def digitValue (c : Char) : Nat := c.toNat - '0'.toNat

def numberOf (digits : List Char) : Nat := digits.foldl (fun n c => 10 * n + digitValue c) 0

/-- Takes the decimal digits off the front of a text. -/
def spanDigits (cs : List Char) : List Char × List Char := cs.span Char.isDigit

def readSign : List Char → Bool × List Char
  | '-' :: cs => (true, cs)
  | '+' :: cs => (false, cs)
  | cs => (false, cs)

def readExponent? : List Char → Option Int
  | [] => some 0
  | c :: cs =>
    if c = 'e' ∨ c = 'E' then
      let (negative, cs) := readSign cs
      let (digits, rest) := spanDigits cs
      if digits.isEmpty ∨ ¬ rest.isEmpty then none
      else
        let n : Int := numberOf digits
        some (if negative then -n else n)
    else none

/-- The number `mantissa * 10 ^ power`. Far outside the range of doubles the exact power no longer
matters, so it is cut off there. -/
def ofPower (mantissa : Nat) (power : Int) : Float :=
  let size : Int := (Nat.toDigits 10 mantissa).length
  if mantissa = 0 then 0.0
  else if 400 < size + power then 1.0 / 0.0
  else if size + power < -400 then 0.0
  else if power < 0 then Float.ofScientific mantissa true (-power).toNat
  else Float.ofScientific mantissa false power.toNat

/-- Reads digits, a point and digits, of which one side of the point may be missing, and an
exponent. -/
def readMagnitude? (cs : List Char) : Option Float :=
  let (whole, rest) := spanDigits cs
  let (fraction, rest) :=
    match rest with
    | '.' :: rest => spanDigits rest
    | rest => ([], rest)
  if whole.isEmpty && fraction.isEmpty then none
  else do
    let exponent ← readExponent? rest
    return ofPower (numberOf (whole ++ fraction)) (exponent - fraction.length)

/-- The number that a text stands for: an optional sign, then a decimal or, in any case, one of
the words `inf`, `infinity` and `nan`. -/
def read? (text : String) : Option Float :=
  let (negative, cs) := readSign text.toList
  let word := String.ofList (cs.map Char.toLower)
  let magnitude? :=
    if word = "inf" ∨ word = "infinity" then some (1.0 / 0.0)
    else if word = "nan" then some (0.0 / 0.0)
    else readMagnitude? cs
  magnitude?.map fun x => if negative then -x else x

/-- The word that a text stands for: decimal digits, after an optional plus. -/
def readWord? (bound : Nat) (text : String) : Option Nat :=
  let digits :=
    match text.toList with
    | '+' :: cs => cs
    | cs => cs
  if digits.isEmpty || !digits.all Char.isDigit then none
  else
    let n := numberOf digits
    if n < bound then some n else none

end DancingLinks.Decimal
