/-! # Binary64 numbers

A double is its 64 bits: a sign, eleven bits of exponent and 52 bits of
fraction. Apart from the sign, every finite double is a whole number of *units*
of `2 ^ (-1074)`, the least positive double, so its magnitude is a natural
number (`Double.units`) and all arithmetic below is exact.

`Double.nearest` rounds a quotient of two naturals to the nearest double, ties
to the even significand, overflow to infinity. It relies on one property of the
format: read as numbers, the bits grow with the magnitude, and a significand
that rounds up to `2 ^ 53` carries into the exponent by plain addition. -/
namespace Parlance

/-- A binary64 number, held as its bits. -/
structure Double where
  bits : UInt64
deriving DecidableEq, Inhabited

def pow2 (n : Nat) : Nat := Nat.pow 2 n

namespace Double

/-! ## Parts of a double -/

def code (d : Double) : Nat := d.bits.toNat

def isNegative (d : Double) : Bool := pow2 63 ≤ d.code

/-- The bits without the sign. -/
def magnitudeCode (d : Double) : Nat := d.code % pow2 63

/-- The eleven bits of exponent. -/
def exponentField (d : Double) : Nat := d.magnitudeCode / pow2 52

/-- The 52 bits of fraction. -/
def fraction (d : Double) : Nat := d.magnitudeCode % pow2 52

/-- The magnitude bits of infinity: the largest exponent, no fraction. -/
def infinityCode : Nat := 2047 * pow2 52

def isFinite (d : Double) : Bool := d.magnitudeCode < infinityCode

def isInfinite (d : Double) : Bool := d.magnitudeCode = infinityCode

def isNaN (d : Double) : Bool := infinityCode < d.magnitudeCode

/-- The significand: the fraction, with its hidden leading bit unless the
exponent field is zero. -/
def significand (d : Double) : Nat :=
  if d.exponentField = 0 then d.fraction else pow2 52 + d.fraction

/-- The magnitude of a finite double, in units of `2 ^ (-1074)`. -/
def units (d : Double) : Nat := d.significand * pow2 (d.exponentField - 1)

def unitsPerOne : Nat := pow2 1074

def isIntegral (d : Double) : Bool := d.isFinite && d.units % unitsPerOne = 0

/-- The magnitude, rounded toward zero to a whole number. -/
def wholePart (d : Double) : Nat := d.units / unitsPerOne

/-! ## Building doubles -/

/-- The double with these magnitude bits and this sign. -/
def ofCode (magnitude : Nat) (negative : Bool) : Double :=
  ⟨UInt64.ofNat (if negative then pow2 63 + magnitude else magnitude)⟩

def negate (d : Double) : Double := ofCode d.magnitudeCode !d.isNegative

def infinity : Double := ofCode infinityCode false

/-- The quiet NaN with no further bits set. -/
def quietNaN : Double := ofCode (infinityCode + pow2 51) false

/-- The quotient `num / den` rounded to the nearest natural, ties to even. -/
def roundQuotient (num den : Nat) : Nat :=
  let quotient := num / den
  let remainder := num % den
  if 2 * remainder < den then quotient
  else if den < 2 * remainder then quotient + 1
  else quotient + quotient % 2

/-- How many low bits of a magnitude of `u` units do not fit a significand. -/
def excessBits (u : Nat) : Nat := Nat.log2 u - 52

/-- The magnitude bits of the double nearest to `num / den`. With `s` excess
bits the significand `m` counts steps of `2 ^ s` units, and the bits are
`s * 2 ^ 52 + m`, also when rounding has carried `m` up to `2 ^ 53`. -/
def nearestCode (num den : Nat) : Nat :=
  let scaled := num * unitsPerOne
  let s := excessBits (scaled / den)
  min (s * pow2 52 + roundQuotient scaled (den * pow2 s)) infinityCode

/-- The non-negative double nearest to `num / den`, ties to even; infinity from
halfway past the largest finite double on. -/
def nearest (num den : Nat) : Double := ofCode (nearestCode num den) false

def ofNat (n : Nat) : Double := nearest n 1

def ofDigits (digits : List Char) : Double := ofNat (Nat.ofDigitChars 10 digits 0)

/-! ## Comparing doubles -/

/-- Equal as numbers: a NaN equals nothing and the two zeros are equal. -/
def numEq (a b : Double) : Bool :=
  !a.isNaN && !b.isNaN && (a = b || (a.magnitudeCode = 0 && b.magnitudeCode = 0))

end Double
end Parlance
