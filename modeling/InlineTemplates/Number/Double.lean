/-!
# Double-precision numbers

A number literal with a point or an exponent has the double nearest to what it writes. A double is
kept as its exact value, so that reading, comparing and printing are arithmetic on natural numbers.
-/

namespace InlineTemplates

/-- A double: a value `mantissa * 2 ^ exponent` with a sign, an infinity, or not a number. -/
inductive Double where
  | finite (negative : Bool) (mantissa : Nat) (exponent : Int)
  | infinite (negative : Bool)
  | nan
deriving DecidableEq, Inhabited

namespace Double

/-- The weight of the `n`th binary place. -/
def powerOfTwo (n : Nat) : Nat := Nat.pow 2 n

/-- The weight of the `n`th decimal place. -/
def powerOfTen (n : Nat) : Nat := Nat.pow 10 n

/-- The bits of a mantissa. -/
def precision : Nat := 53

/-- The exponent of the smallest doubles. -/
def leastExponent : Int := -1074

/-- The exponent of the greatest doubles. -/
def greatestExponent : Int := 971

/-- `num / den` rounded to the nearest integer, a half to the even neighbour. -/
def roundDiv (num den : Nat) : Nat :=
  let q := num / den
  let r := num % den
  if 2 * r < den then q
  else if den < 2 * r then q + 1
  else if q % 2 = 0 then q else q + 1

/-- `num / den` as a fraction of `2 ^ e`. -/
def scaled (num den : Nat) (e : Int) : Nat × Nat :=
  match e with
  | .ofNat n => (num, den * powerOfTwo n)
  | .negSucc n => (num * powerOfTwo (n + 1), den)

/-- The exponent that gives `num / den` a mantissa of full precision, if the format has it. -/
def exponentOf (num den : Nat) : Int :=
  let low : Int := max leastExponent ((Nat.log2 num : Int) - (Nat.log2 den : Int) - precision)
  let (n, d) := scaled num den low
  if n / d < powerOfTwo precision then low else low + 1

/-- The double nearest to `num / den`, a half going to the even mantissa. -/
def ofRatio (negative : Bool) (num den : Nat) : Double :=
  if num = 0 then finite negative 0 leastExponent
  else
    let e := exponentOf num den
    let (n, d) := scaled num den e
    let m := roundDiv n d
    let (m, e) := if m = powerOfTwo precision then (m / 2, e + 1) else (m, e)
    if greatestExponent < e then infinite negative else finite negative m e

/-- The double nearest to `digits * 10 ^ exponent`. Beyond the range of doubles, which
`exponent` decides together with the number of digits, it is infinite or zero. -/
def ofDecimal (negative : Bool) (digits : Nat) (exponent : Int) : Double :=
  let magnitude : Int := (Nat.toDigits 10 digits).length + exponent
  if digits = 0 ∨ magnitude ≤ -324 then finite negative 0 leastExponent
  else if 310 ≤ magnitude then infinite negative
  else match exponent with
    | .ofNat n => ofRatio negative (digits * powerOfTen n) 1
    | .negSucc n => ofRatio negative digits (powerOfTen (n + 1))

/-- The absolute value of a double that is an integer. -/
def integer? : Double → Option Nat
  | finite _ m (.ofNat e) => some (m * powerOfTwo e)
  | finite _ m (.negSucc e) =>
    if m % powerOfTwo (e + 1) = 0 then some (m / powerOfTwo (e + 1)) else none
  | _ => none

/-- Whether the double is zero, of either sign. -/
def isZero : Double → Bool
  | finite _ m _ => m == 0
  | _ => false

end Double

end InlineTemplates
