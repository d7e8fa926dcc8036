import Parlance.Double.Basic

/-! # Shortest decimals

The text of a double uses the fewest digits that read back to it; of the
decimals with that many digits, the one nearest to the double, and of two
equally near the one whose last digit is even. `Double.shortest` searches for
it digit count by digit count, in exact arithmetic, and tests each candidate by
reading it back. `Layout` says how such a decimal is written down. -/
namespace Parlance

def pow10 (n : Nat) : Nat := Nat.pow 10 n

/-- The decimal `digits * 10 ^ exponent`. -/
structure Decimal where
  digits : Nat
  exponent : Int
deriving DecidableEq, Inhabited

namespace Decimal

/-- Numerator of the value, over `den`. -/
def num (d : Decimal) : Nat := d.digits * pow10 d.exponent.toNat

def den (d : Decimal) : Nat := pow10 (-d.exponent).toNat

def toDouble (d : Decimal) : Double := Double.nearest d.num d.den

/-- Drops trailing zeros of the digits, at most `fuel` of them. -/
def trim : Nat → Decimal → Decimal
  | 0, d => d
  | fuel + 1, d =>
    if d.digits % 10 = 0 ∧ d.digits ≠ 0 then trim fuel ⟨d.digits / 10, d.exponent + 1⟩
    else d

end Decimal

namespace Double

/-- The decimal exponent of the leading digit of `u` units, `u` positive. The
factor `10 ^ 400` makes every positive double a number above one. -/
def leadingExponent (u : Nat) : Int :=
  ((Nat.toDigits 10 (u * pow10 400 / unitsPerOne)).length : Int) - 401

/-- `u` units over `10 ^ exponent`, as a numerator and a denominator. -/
def onGrid (u : Nat) (exponent : Int) : Nat × Nat :=
  (u * pow10 (-exponent).toNat, unitsPerOne * pow10 exponent.toNat)

/-- The multiples of `10 ^ exponent` next below and above `u` units that read
back to the magnitude `code`, the nearer first; of two equally near the even one. -/
def readable (code u : Nat) (exponent : Int) : List Decimal :=
  let (num, den) := onGrid u exponent
  let below := num / den
  let close := roundQuotient num den
  let far := if close = below then below + 1 else below
  ([⟨close, exponent⟩, ⟨far, exponent⟩] : List Decimal).filter
    fun d => d.toDouble.magnitudeCode = code

def exactDecimal (u : Nat) : Decimal := ⟨u * Nat.pow 5 1074, -1074⟩

/-- The first decimal that reads back, trying one more digit each time; the
exact one after `counts` of them. -/
def searchShortest (code u counts : Nat) (exponent : Int) : Decimal :=
  let found := (List.range counts).findSome? fun k : Nat => (readable code u (exponent - k)).head?
  found.getD (exactDecimal u)

/-- The shortest decimal of a double's magnitude. Seventeen digits always do. -/
def shortest (d : Double) : Decimal :=
  if d.units = 0 then ⟨0, 0⟩
  else (searchShortest d.magnitudeCode d.units 17 (leadingExponent d.units)).trim 400

end Double

/-! ## Writing a decimal -/

/-- How a number is written: positionally while the exponent of its leading
digit is at least `least` and less than `beyond`, else with an exponent mark and
an exponent of at least `width` digits. -/
structure Layout where
  least : Int
  beyond : Int
  width : Nat

namespace Layout

/-- Whole numbers keep a `.0`, exponents run from -4 to 15 positionally and have
two digits otherwise. -/
def standard : Layout := ⟨-4, 16, 2⟩

def zeros (n : Nat) : List Char := List.replicate n '0'

/-- Digits with the point after the first `point` of them, padded with zeros so
that a digit stands on either side. -/
def positional (digits : List Char) (point : Int) : List Char :=
  if point ≤ 0 then '0' :: '.' :: (zeros (-point).toNat ++ digits)
  else
    let whole := digits.take point.toNat ++ zeros (point.toNat - digits.length)
    match digits.drop point.toNat with
    | [] => whole ++ ['.', '0']
    | rest => whole ++ '.' :: rest

/-- An exponent with its sign, padded to `width` digits. -/
def exponentText (width : Nat) (exponent : Int) : List Char :=
  let digits := Nat.toDigits 10 exponent.natAbs
  (if exponent < 0 then '-' else '+') :: (zeros (width - digits.length) ++ digits)

/-- One digit before the point, the rest after it, then the exponent. -/
def scientific (width : Nat) (digits : List Char) (exponent : Int) : List Char :=
  let mark := 'e' :: exponentText width exponent
  match digits with
  | first :: second :: rest => first :: '.' :: second :: (rest ++ mark)
  | _ => digits ++ mark

def write (layout : Layout) (d : Decimal) : List Char :=
  let digits := Nat.toDigits 10 d.digits
  let exponent := d.exponent + digits.length - 1
  if layout.least ≤ exponent ∧ exponent < layout.beyond then positional digits (exponent + 1)
  else scientific layout.width digits exponent

end Layout

namespace Double

/-- The text of a double: its shortest decimal with a sign, or `nan`, `inf`. -/
def toText (d : Double) : String :=
  if d.isNaN then "nan"
  else
    let sign := if d.isNegative then "-" else ""
    if d.isInfinite then sign ++ "inf"
    else sign ++ String.ofList (Layout.standard.write d.shortest)

end Double
end Parlance
