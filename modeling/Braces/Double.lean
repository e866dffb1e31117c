/-!
# Binary64 literals

A floating-point literal is kept as the exact value that the target machine will hold, so that
reading a decimal and writing it back are functions on natural numbers. Nothing here computes
with such numbers: there is no arithmetic, only rounding from a decimal and the shortest decimal
that rounds back.
-/

namespace Braces

/-- A binary64 number. A finite one is `mantissa * 2 ^ exponent` with its sign kept apart, so that
the two zeros differ; `ofRatio` yields it with the mantissa below `2 ^ 53` and the exponent
least. -/
inductive Double where
  | finite (negative : Bool) (mantissa : Nat) (exponent : Int)
  | infinite (negative : Bool)
  | nan
  deriving DecidableEq, Repr, Inhabited

namespace Double

/-- The exponent of the smallest positive number. -/
def leastExponent : Int := -1074

/-- The exponent of the largest finite numbers. -/
def greatestExponent : Int := 971

/-- The mantissas of all numbers but the smallest have this value at least: two to the 52nd. -/
def fullMantissa : Nat := 4503599627370496

/-- The power of a base to `e`, as a numerator and a denominator. -/
def power (base : Nat) (e : Int) : Nat × Nat :=
  (Nat.pow base e.toNat, Nat.pow base (-e).toNat)

/-! ## From a decimal -/

/-- A quotient to the nearest natural number, a half going to the even neighbour. -/
def roundEven (num den : Nat) : Nat :=
  let q := num / den
  let r := num % den
  if 2 * r < den ∨ (2 * r = den ∧ q % 2 = 0) then q else q + 1

/-- The exponent at which `num / den` has a mantissa of 53 bits, or the least exponent. -/
def exponentOf (num den : Nat) : Int :=
  let e : Int := (num.log2 : Int) - den.log2 - 52
  let (up, down) := power 2 e
  max leastExponent (if num * down < fullMantissa * (den * up) then e - 1 else e)

/-- The number nearest to `num / den`, a tie going to the even mantissa. -/
def ofRatio (negative : Bool) (num den : Nat) : Double :=
  if num = 0 then .finite negative 0 leastExponent else
  let e := exponentOf num den
  let (up, down) := power 2 e
  let m := roundEven (num * down) (den * up)
  let (m, e) := if m = 2 * fullMantissa then (fullMantissa, e + 1) else (m, e)
  if greatestExponent < e then .infinite negative else .finite negative m e

/-- The number nearest to `digits * 10 ^ exponent`. -/
def ofDecimal (negative : Bool) (digits : Nat) (exponent : Int) : Double :=
  let (up, down) := power 10 exponent
  ofRatio negative (digits * up) down

/-! ## To the shortest decimal -/

/-- How many decimal digits a natural number has. -/
def decimalLength (n : Nat) : Nat := (Nat.toDigits 10 n).length

/-- The exponent of the power of ten at or below `num / den`. -/
def decimalExponent (num den : Nat) : Int :=
  if den ≤ num then decimalLength (num / den) - 1 else -decimalLength ((den - 1) / num)

/-- The multiple of `10 ^ unit` next to `m * 2 ^ e` that rounds back to it, the nearer one if both
neighbours do. A tie goes up, and the ends of the rounding interval belong to it when `m` is
even. -/
def neighbour? (m : Nat) (e unit : Int) : Option Nat :=
  let (up2, down2) := power 2 e
  let (up10, down10) := power 10 unit
  let scale := up2 * down10
  let step := 4 * (down2 * up10)
  let value := 4 * m * scale
  let lowest := (if m = fullMantissa ∧ leastExponent < e then 4 * m - 1 else 4 * m - 2) * scale
  let highest := (4 * m + 2) * scale
  let margin := m % 2
  let d := value / step
  let downward := lowest + margin ≤ d * step
  let upward := (d + 1) * step + margin ≤ highest
  if downward ∧ upward then some (if 2 * (value - d * step) < step then d else d + 1)
  else if downward then some d
  else if upward then some (d + 1)
  else none

/-- The decimal `digits * 10 ^ exponent` with the fewest digits that rounds back to `m * 2 ^ e`.
Seventeen digits always suffice. -/
def shortest (m : Nat) (e : Int) : Nat × Int :=
  let (up, down) := power 2 e
  let top := decimalExponent (m * up) down
  let attempt? (count : Nat) : Option (Nat × Int) :=
    let unit := top - count
    (neighbour? m e unit).map (·, unit)
  ((List.range 17).findSome? attempt?).getD (m * up, 0)

/-! ## Text -/

def zeros (n : Nat) : List Char := List.replicate n '0'

/-- Digits with the point after the first `point` of them, and at least one digit on each side. -/
def positional (digits : List Char) (point : Int) : List Char :=
  let whole := digits.take point.toNat ++ zeros (point.toNat - digits.length)
  let fraction := zeros (-point).toNat ++ digits.drop point.toNat
  (if whole.isEmpty then ['0'] else whole) ++ '.' :: (if fraction.isEmpty then ['0'] else fraction)

/-- One digit, a point before the others if there are any, and the exponent of the first digit. -/
def scientific (digits : List Char) (point : Int) : List Char :=
  let fraction := digits.drop 1
  digits.take 1 ++ (if fraction.isEmpty then [] else '.' :: fraction) ++
    'e' :: (toString (point - 1)).toList

/-- Numbers from `0.0001` up to, but not including, ten to the sixteenth are written
positionally. -/
def magnitudeText (m : Nat) (e : Int) : List Char :=
  if m = 0 then ['0', '.', '0'] else
  let (d, unit) := shortest m e
  let all := Nat.toDigits 10 d
  let point := all.length + unit
  let digits := (all.reverse.dropWhile (· = '0')).reverse
  if -4 < point ∧ point ≤ 16 then positional digits point else scientific digits point

/-- The written form of a number, in the emitted program and in messages. -/
def text : Double → String
  | .finite negative m e => (if negative then "-" else "") ++ String.ofList (magnitudeText m e)
  | .infinite negative => if negative then "-inf" else "inf"
  | .nan => "NaN"

/-- The number that decimal digits denote. -/
def digitsValue (cs : List Char) : Nat :=
  cs.foldl (fun n c => 10 * n + (c.toNat - '0'.toNat)) 0

/-- The number nearest to a plain decimal, given by its digits before and after the point. -/
def ofDigits (negative : Bool) (whole fraction : List Char) (exponent : Int) : Double :=
  ofDecimal negative (digitsValue (whole ++ fraction)) (exponent - fraction.length)

/-- Reads a written form back. -/
def ofText? (s : String) : Option Double :=
  let cs := s.toList
  let negative := cs.head? = some '-'
  let body := if negative then cs.drop 1 else cs
  if body = ['i', 'n', 'f'] then some (.infinite negative)
  else if body = ['N', 'a', 'N'] then some .nan
  else
    let whole := body.takeWhile Char.isDigit
    let afterWhole := body.dropWhile Char.isDigit
    let (fraction, afterFraction) :=
      match afterWhole with
      | '.' :: r => (r.takeWhile Char.isDigit, r.dropWhile Char.isDigit)
      | r => ([], r)
    match afterFraction with
    | [] => some (ofDigits negative whole fraction 0)
    | 'e' :: r => (String.ofList r).toInt?.map (ofDigits negative whole fraction ·)
    | _ => none

end Double

end Braces
