import InlineTemplates.Number.Double
import InlineTemplates.Text

/-!
# The shortest decimal of a double

A double is written with the fewest digits that read back as it, and among those with the nearest.
The decimals of `n` digits around a value form a grid, and if any point of the grid reads back,
one of the two neighbours of the value does. So the first grid with a hit, for `n` from 1 to 17,
gives the digits.
-/

namespace InlineTemplates

namespace Double

/-- A decimal `digits * 10 ^ exponent`. -/
structure Decimal where
  digits : Nat
  exponent : Int
deriving DecidableEq

/-- `n * 10 ^ e` and `n * 2 ^ q` as fractions. -/
def scaleTen (n : Nat) (e : Int) : Nat × Nat :=
  match e with
  | .ofNat k => (n * powerOfTen k, 1)
  | .negSucc k => (n, powerOfTen (k + 1))

def scaleTwo (n : Nat) (q : Int) : Nat × Nat :=
  match q with
  | .ofNat k => (n * powerOfTwo k, 1)
  | .negSucc k => (n, powerOfTwo (k + 1))

/-- Whether one fraction is at most another. -/
def ratioLe (a b : Nat × Nat) : Bool := a.1 * b.2 ≤ b.1 * a.2

def ratioLt (a b : Nat × Nat) : Bool := a.1 * b.2 < b.1 * a.2

/-- The distance of two fractions. -/
def ratioDist (a b : Nat × Nat) : Nat × Nat :=
  let x := a.1 * b.2
  let y := b.1 * a.2
  (if x ≤ y then y - x else x - y, a.2 * b.2)

/-- The ends of the interval of reals that round to `m * 2 ^ q`. Below a power of two the
neighbour is half as far as above it. -/
def roundingEnds (m : Nat) (q : Int) : (Nat × Nat) × (Nat × Nat) :=
  let below := if m = powerOfTwo (precision - 1) ∧ leastExponent < q then 1 else 2
  (scaleTwo (4 * m - below) (q - 2), scaleTwo (4 * m + 2) (q - 2))

/-- Whether a decimal reads back as `m * 2 ^ q`. The ends of the interval belong to it when the
mantissa is even. -/
def readsBack (m : Nat) (q : Int) (d : Decimal) : Bool :=
  let (low, high) := roundingEnds m q
  let x := scaleTen d.digits d.exponent
  if m % 2 = 0 then ratioLe low x && ratioLe x high else ratioLt low x && ratioLt x high

/-- The greatest `e` with `10 ^ e ≤ v`, for a fraction `v` that is not zero. -/
def decimalExponent (v : Nat × Nat) : Int :=
  if v.2 ≤ v.1 then ((Nat.toDigits 10 (v.1 / v.2)).length : Int) - 1
  else -(((List.range 400).find? fun k => v.2 ≤ v.1 * powerOfTen k).getD 400 : Nat)

/-- The neighbours of `m * 2 ^ q` among the decimals of `n` digits. -/
def gridNeighbours (m : Nat) (q : Int) (n : Nat) : Decimal × Decimal :=
  let v := scaleTwo m q
  let e := decimalExponent v - n + 1
  let below := match e with
    | .ofNat k => v.1 / (v.2 * powerOfTen k)
    | .negSucc k => v.1 * powerOfTen (k + 1) / v.2
  (⟨below, e⟩, ⟨below + 1, e⟩)

/-- The decimal of `n` digits that reads back and is nearest, if one reads back. A tie goes to
even digits. -/
def gridHit? (m : Nat) (q : Int) (n : Nat) : Option Decimal :=
  let v := scaleTwo m q
  let (a, b) := gridNeighbours m q n
  let da := ratioDist v (scaleTen a.digits a.exponent)
  let db := ratioDist v (scaleTen b.digits b.exponent)
  match readsBack m q a, readsBack m q b with
  | true, true =>
    some (if ratioLt da db then a else if ratioLt db da then b
      else if a.digits % 2 = 0 then a else b)
  | true, false => some a
  | false, true => some b
  | false, false => none

/-- The same decimal without zeros at the end of its digits. -/
def Decimal.strip (fuel : Nat) (d : Decimal) : Decimal :=
  match fuel with
  | 0 => d
  | fuel + 1 => if d.digits % 10 = 0 then strip fuel ⟨d.digits / 10, d.exponent + 1⟩ else d

/-- The shortest decimal of `m * 2 ^ q`, for `m` not zero. -/
def shortestDecimal (m : Nat) (q : Int) : Decimal :=
  ((((List.range 17).findSome? fun n => gridHit? m q (n + 1)).getD ⟨m, 0⟩).strip 20)

/-- How a decimal is laid out. -/
structure DecimalFormat where
  /-- The least exponent of the first digit that is written in positions. -/
  leastPositional : Int
  /-- The exponent of the first digit from which on an exponent is written. -/
  firstScientific : Int
  /-- The least number of digits of a written exponent. -/
  exponentWidth : Nat

/-- Positions serve exponents from -4 to 15; a written exponent has a sign and two digits or more;
in positions there is always a point with a digit behind it. -/
def format : DecimalFormat := ⟨-4, 16, 2⟩

/-- The text of a decimal that is not zero. -/
def Decimal.text (f : DecimalFormat) (d : Decimal) : Text :=
  let digits := Text.ofNat d.digits
  let e : Int := digits.length + d.exponent - 1
  if f.leastPositional ≤ e ∧ e < f.firstScientific then
    if e < 0 then "0." ++ Text.filled (-e - 1).toNat '0' ++ digits
    else
      let whole := digits.take (e.toNat + 1)
      let fraction := digits.drop (e.toNat + 1)
      whole ++ Text.filled (e.toNat + 1 - digits.length) '0' ++ "." ++
        Text.when fraction.isEmpty "0" ++ fraction
  else
    let size := Text.ofNat e.natAbs
    digits.take 1 ++ Text.when (1 < digits.length) ("." ++ digits.drop 1) ++
      "e" ++ Text.when (e < 0) "-" ++ Text.when (0 ≤ e) "+" ++
      Text.filled (f.exponentWidth - size.length) '0' ++ size

/-- The text of a double. -/
def text : Double → Text
  | nan => "nan"
  | infinite negative => Text.when negative "-" ++ "inf"
  | finite negative 0 _ => Text.when negative "-" ++ "0.0"
  | finite negative m q => Text.when negative "-" ++ (shortestDecimal m q).text format

end Double

end InlineTemplates
