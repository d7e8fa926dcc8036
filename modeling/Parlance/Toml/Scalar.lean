import Parlance.Toml.Lexeme

/-! # Numbers and moments of TOML

Integers in four bases, doubles, and dates and times. Digits may be separated by
single underscores. A moment is read before a number, since both start with
digits. -/
namespace Parlance.Toml

/-! ## Moments -/

/-- A number of two digits between two bounds. -/
def readTwo (least greatest : Nat) : List Char → Option (Nat × List Char)
  | a :: b :: cs =>
    let n := 10 * (a.toNat - 48) + (b.toNat - 48)
    if a.isDigit && b.isDigit && least ≤ n && n ≤ greatest then some (n, cs) else none
  | _ => none

def skipChar (c : Char) : List Char → Option (List Char)
  | d :: cs => if c = d then some cs else none
  | [] => none

def skipFraction : List Char → List Char
  | '.' :: c :: cs => if c.isDigit then cs.dropWhile Char.isDigit else '.' :: c :: cs
  | cs => cs

def skipTime (cs : List Char) : Option (List Char) := do
  let (_, cs) ← readTwo 0 23 cs
  let (_, cs) ← readTwo 0 59 (← skipChar ':' cs)
  let (_, cs) ← readTwo 0 59 (← skipChar ':' cs)
  return skipFraction cs

def skipOffset (cs : List Char) : List Char :=
  match cs with
  | c :: rest =>
    if c = 'Z' || c = 'z' then rest
    else if c = '+' || c = '-' then
      (do
        let (_, rest) ← readTwo 0 23 rest
        let (_, rest) ← readTwo 0 59 (← skipChar ':' rest)
        return rest : Option (List Char)).getD cs
    else cs
  | [] => cs

def daysIn (year month : Nat) : Nat :=
  if month = 2 then
    if year % 4 = 0 ∧ (year % 100 ≠ 0 ∨ year % 400 = 0) then 29 else 28
  else if month = 4 ∨ month = 6 ∨ month = 9 ∨ month = 11 then 30
  else 31

/-- A date: is it in the calendar, and what follows it. -/
def readDate (cs : List Char) : Option (Bool × List Char) := do
  let (century, cs) ← readTwo 0 99 cs
  let (rest, cs) ← readTwo 0 99 cs
  let (month, cs) ← readTwo 1 12 (← skipChar '-' cs)
  let (day, cs) ← readTwo 1 31 (← skipChar '-' cs)
  let year := 100 * century + rest
  return (1 ≤ year && day ≤ daysIn year month, cs)

/-- The time of day and the offset behind a date, if they are there. -/
def skipTimeAfterDate : List Char → Option (List Char)
  | c :: cs => if c = 'T' || c = 't' || c = ' ' then (skipTime cs).map skipOffset else none
  | [] => none

/-- The characters of `cs` in front of its end `rest`. -/
def written (cs rest : List Char) : String := String.ofList (cs.take (cs.length - rest.length))

def readMoment? (cs : List Char) : Option (Except Error (Toml × List Char)) :=
  match readDate cs with
  | some (valid, afterDate) =>
    let (kind, rest) := match skipTimeAfterDate afterDate with
      | some rest => (Moment.dateTime, rest)
      | none => (Moment.date, afterDate)
    some (if valid then .ok (.moment kind (written cs rest), rest) else .error .malformed)
  | none => (skipTime cs).map fun rest => .ok (.moment .time (written cs rest), rest)

/-! ## Numbers -/

/-- Digits with single underscores between them, and what follows; none if the
text does not start with a digit. -/
def takeDigits (isDigit : Char → Bool) : List Char → List Char × List Char
  | '_' :: c :: cs =>
    if isDigit c then
      let (digits, rest) := takeDigits isDigit cs
      (c :: digits, rest)
    else ([], '_' :: c :: cs)
  | c :: cs =>
    if isDigit c then
      let (digits, rest) := takeDigits isDigit cs
      (c :: digits, rest)
    else ([], c :: cs)
  | [] => ([], [])

/-- Digits that start with a digit, not an underscore. -/
def readDigits? (isDigit : Char → Bool) (cs : List Char) : Option (List Char × List Char) :=
  if (cs.head?).any isDigit then some (takeDigits isDigit cs) else none

def isDigitOf (base : Nat) (c : Char) : Bool := (hexValue? c).any (· < base)

def valueIn (base : Nat) (digits : List Char) : Nat :=
  digits.foldl (fun n c => base * n + (hexValue? c).getD 0) 0

/-- The base that a letter behind a zero announces. -/
def baseOf? (c : Char) : Option Nat :=
  if c = 'x' then some 16 else if c = 'b' then some 2 else if c = 'o' then some 8 else none

def readBased? : List Char → Option (Toml × List Char)
  | '0' :: c :: cs => do
    let base ← baseOf? c
    let (digits, rest) ← readDigits? (isDigitOf base) cs
    return (.int (valueIn base digits), rest)
  | _ => none

/-- A sign: is it a minus, and what follows. -/
def readSign : List Char → Bool × List Char
  | '-' :: cs => (true, cs)
  | '+' :: cs => (false, cs)
  | cs => (false, cs)

/-- The whole part of a number: a single zero, or digits without a leading zero. -/
def readWhole? (cs : List Char) : Option (List Char × List Char) :=
  match cs with
  | '0' :: rest => some (['0'], rest)
  | _ => readDigits? Char.isDigit cs

def readFraction? : List Char → Option (List Char × List Char)
  | '.' :: cs => readDigits? Char.isDigit cs
  | _ => none

def readExponent? : List Char → Option (Int × List Char)
  | c :: cs =>
    if c = 'e' || c = 'E' then do
      let (negative, cs) := readSign cs
      let (digits, rest) ← readDigits? Char.isDigit cs
      let n : Int := valueIn 10 digits
      return (if negative then -n else n, rest)
    else none
  | [] => none

/-- The non-negative double nearest to a decimal, whatever its exponent: far out
of the range of doubles the exact quotient is not formed. -/
def nearestDouble (d : Decimal) : Double :=
  let leading : Int := (Nat.toDigits 10 d.digits).length + d.exponent
  if d.digits = 0 ∨ leading < -400 then Double.ofNat 0
  else if 400 < leading then Double.infinity
  else d.toDouble

def signed (negative : Bool) (d : Double) : Double := if negative then d.negate else d

def maxDecimalDigits : Nat := 4300

def readDecimal? (cs : List Char) : Option (Except Error (Toml × List Char)) := do
  let (negative, unsigned) := readSign cs
  let (whole, rest) ← readWhole? unsigned
  let (fraction, hasFraction, rest) := match readFraction? rest with
    | some (digits, rest) => (digits, true, rest)
    | none => ([], false, rest)
  let (exponent, hasExponent, rest) := match readExponent? rest with
    | some (exponent, rest) => (exponent, true, rest)
    | none => (0, false, rest)
  if hasFraction || hasExponent then
    let d : Decimal := ⟨valueIn 10 (whole ++ fraction), exponent - fraction.length⟩
    return .ok (.float (signed negative (nearestDouble d)), rest)
  else if maxDecimalDigits < whole.length then return .error .integerTooLong
  else
    let n : Int := valueIn 10 whole
    return .ok (.int (if negative then -n else n), rest)

def readSpecial (cs : List Char) : Except Error (Toml × List Char) :=
  let (negative, unsigned) := readSign cs
  match unsigned with
  | 'i' :: 'n' :: 'f' :: rest => .ok (.float (signed negative Double.infinity), rest)
  | 'n' :: 'a' :: 'n' :: rest => .ok (.float (signed negative Double.quietNaN), rest)
  | _ => .error .malformed

def readScalar (cs : List Char) : Except Error (Toml × List Char) :=
  match readMoment? cs with
  | some result => result
  | none =>
    match readBased? cs with
    | some result => .ok result
    | none => (readDecimal? cs).getD (readSpecial cs)

end Parlance.Toml
