import JsonShape.Number.Double

namespace JsonShape

-- The decimal digits of a number, most significant first.
def decimalDigits (n : Nat) : List Char := Nat.toDigits 10 n

def ofDecimalDigits (digits : List Char) : Nat := Nat.ofDigitChars 10 digits 0

theorem ofDecimalDigits_decimalDigits (n : Nat) : ofDecimalDigits (decimalDigits n) = n :=
  Nat.ofDigitChars_ten_toDigits

-- The value `significand * 10 ^ exponent`.
structure Decimal where
  significand : Nat
  exponent : Int
deriving DecidableEq

namespace Decimal

-- The value is at least `10 ^ (d.order - 1)` and less than `10 ^ d.order`, unless it is zero.
def order (d : Decimal) : Int :=
  d.exponent + (decimalDigits d.significand).length

-- The magnitude nearest to the value, in quanta and without an upper limit.
def quanta (d : Decimal) : Nat :=
  -- Values below half a quantum and values beyond all doubles need no long arithmetic.
  if d.significand = 0 ∨ d.order < -330 then 0
  else if 330 < d.order then Nat.pow 2 2098
  else if 0 ≤ d.exponent then nearestQuanta (d.significand * Nat.pow 10 d.exponent.toNat) 1
  else nearestQuanta d.significand (Nat.pow 10 (-d.exponent).toNat)

-- The decimals with the given step on either side of a magnitude, the nearer one first.
def neighbours (quanta : Nat) (exponent : Int) : List Decimal :=
  let num := quanta * Nat.pow 10 (-exponent).toNat
  let den := quantaPerOne * Nat.pow 10 exponent.toNat
  let below := num / den
  let nearest := divNearest num den
  [⟨nearest, exponent⟩, ⟨if nearest = below then below + 1 else below, exponent⟩]

-- The power of ten of the leading digit of a nonzero magnitude.
def leadingExponent (quanta : Nat) : Int :=
  (decimalDigits (quanta * Nat.pow 10 400 / quantaPerOne)).length - 401

def exact (quanta : Nat) : Decimal :=
  ⟨quanta * Nat.pow 5 1074, -1074⟩

-- The decimal with the fewest digits that reads back to a nonzero magnitude.
def shortest (quanta : Nat) : Decimal :=
  let found := (List.range 17).findSome? fun further =>
    (neighbours quanta (leadingExponent quanta - (further : Nat))).find? fun d => d.quanta = quanta
  found.getD (exact quanta)

-- Significant digits with the power of ten of the first one, written out.
def layout (digits : List Char) (leading : Int) : List Char :=
  if 0 ≤ leading ∧ leading < 16 then
    let whole := leading.toNat + 1
    let padded := digits ++ List.replicate (whole - digits.length) '0'
    let fraction := padded.drop whole
    padded.take whole ++ '.' :: (if fraction.isEmpty then ['0'] else fraction)
  else if -5 ≤ leading ∧ leading < 0 then
    '0' :: '.' :: List.replicate (-leading - 1).toNat '0' ++ digits
  else
    digits.take 1 ++ (if digits.length ≤ 1 then [] else '.' :: digits.drop 1) ++
      'e' :: (if leading < 0 then '-' else '+') :: decimalDigits leading.natAbs

-- The text of a nonzero decimal, without the zeros that end its significand.
def text (d : Decimal) : List Char :=
  let digits := decimalDigits d.significand
  let trimmed := (digits.reverse.dropWhile (· = '0')).reverse
  layout trimmed (d.order - 1)

end Decimal

-- The text of a double: the fewest digits that read back, with `.0` if nothing follows the point.
def Binary64.text (x : Binary64) : List Char :=
  (if x.negative then ['-'] else []) ++
    if x.quanta = 0 then ['0', '.', '0'] else (Decimal.shortest x.quanta).text

end JsonShape
