import AlterCatalog.Json

/-!
# Numerals

A numeral has a sign, digits before and after a point, and an exponent. It is an integer when it
has neither fraction nor exponent, is not a negative zero and fits 64 bits; a negative one fits
signed, any other unsigned.

Any other numeral is sized as a significand times a power of ten. The significand takes in the
digits before the point and then the digits after it, each time as long as it fits 64 unsigned
bits. A digit before the point that it leaves out counts as a factor of ten, and a digit after the
point that it takes in as a divisor. The numeral has a value unless the power of ten is beyond
10 ^ 308 or the product of the two doubles overflows.
-/

namespace AlterCatalog.Double

/-! ## Rounding to doubles

The whole numbers that a double holds have 53 significant bits. A number between two of them goes
to the nearer one, and from the middle to the one whose last bit is zero. From `limit` on, which
is the middle between the largest double and the next power of two, there is none left.
-/

/-- The quotient rounded to the nearest whole number, from the middle to the even one. -/
def roundQuotient (n d : Nat) : Nat :=
  if 2 * (n % d) < d ∨ 2 * (n % d) = d ∧ n / d % 2 = 0 then n / d else n / d + 1

/-- The weight of the last of the 53 significant bits, which is one for small numbers. -/
def unit (n : Nat) : Nat := Nat.pow 2 (n.log2 - 52)

/-- The double next to a whole number, as if doubles had no largest one. -/
def nearest (n : Nat) : Nat := roundQuotient n (unit n) * unit n

def limit : Nat := Nat.pow 2 1024 - Nat.pow 2 970

/-- Whether the product of the doubles next to two numbers rounds to no finite double. -/
def productOverflows (m n : Nat) : Bool := limit ≤ nearest m * nearest n

end AlterCatalog.Double

namespace AlterCatalog.Json

/-! ## The value of a numeral -/

structure Numeral where
  negative : Bool
  whole : List Char
  fraction : List Char
  exponent : Option Int

namespace Numeral

/-- Takes digits into a significand as long as it fits; the digits left out are given back. -/
def takeIn (significand : Nat) : List Char → Nat × List Char
  | [] => (significand, [])
  | c :: r =>
    let next := significand * 10 + (c.toNat - '0'.toNat)
    if next < UInt64.size then takeIn next r else (significand, c :: r)

/-- The significand, and the exponent of ten that goes with it. -/
def scaled (n : Numeral) : Nat × Int :=
  let (significand, skipped) := takeIn 0 n.whole
  let (significand, unread) := takeIn significand n.fraction
  (significand, (n.exponent.getD 0 + skipped.length) - (n.fraction.length - unread.length))

def overflows (n : Numeral) : Bool :=
  let (significand, exponent) := n.scaled
  if significand = 0 ∨ exponent < 0 then false
  else 308 < exponent || Double.productOverflows significand (Nat.pow 10 exponent.toNat)

/-- The integer that a numeral without fraction and exponent spells. -/
def integer (n : Numeral) : Int :=
  let size : Nat := Nat.ofDigitChars 10 n.whole 0
  if n.negative then -size else size

/-- The value of a numeral that was written as `text`. -/
def value (n : Numeral) (text : List Char) : Json :=
  if n.fraction = [] ∧ n.exponent = none ∧ ¬(n.negative ∧ n.integer = 0) ∧
      Int64.minValue.toInt ≤ n.integer ∧ n.integer < UInt64.size then .int n.integer
  else if n.overflows then .unrepresentable
  else .real (String.ofList text)

end Numeral

end AlterCatalog.Json
