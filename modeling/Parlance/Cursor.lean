import Parlance.Fault

/-! # Cursors

A cursor is a place in a text together with a level of indentation. The place is
counted in characters and may be any integer. Past the end of the text it behaves
as the end does. A negative place counts from the end, so that the place after
`-1`, which is that of the last character, is `0`, that of the first; a run may go
on from the one to the other. Before the start of the text there is nothing to
look at. A mark remembers place and level, so that an attempt can be undone.

Characters are tested by code point and by their index within the run being
scanned. `Cursor.scanEnd` finds the end of the longest run in which every test
holds; it looks at the characters ahead once and never past the end. A test may
end in a fault, and the scan then leaves the cursor where it was. -/
namespace Parlance

/-! ## Places -/

/-- The element at a place, where a negative place counts from the end. -/
def elementAt? {α : Type} (xs : Array α) : Int → Option α
  | .ofNat n => xs[n]?
  | .negSucc n => if n < xs.size then xs[xs.size - 1 - n]? else none

/-- The distance of a place from the start, where a negative place counts from the
end; what lies before the start counts as the start. -/
def offsetOf (size : Nat) : Int → Nat
  | .ofNat n => n
  | .negSucc n => size - 1 - n

@[simp]
theorem elementAt?_natCast {α : Type} (xs : Array α) (n : Nat) :
    elementAt? xs (n : Int) = xs[n]? := rfl

@[simp]
theorem offsetOf_natCast (size n : Nat) : offsetOf size (n : Int) = n := rfl

/-! ## Tests of characters -/

/-- A test of a code point at an index, counted from the start of a run. -/
abbrev CharTest := Nat → Nat → Bool

/-- A test that may end in a fault. -/
abbrev CharCheck := Nat → Nat → Except Fault Bool

def CharTest.toCheck (test : CharTest) : CharCheck := fun code index => .ok (test code index)

namespace CodePoint

def tab : Nat := 0x09
def lineFeed : Nat := 0x0a
def carriageReturn : Nat := 0x0d
def space : Nat := 0x20

def isWhitespace (code : Nat) : Bool :=
  code = tab || code = lineFeed || code = carriageReturn || code = space

def isTab (code : Nat) : Bool := code = tab

def isDigit (code : Nat) : Bool := 0x30 ≤ code && code ≤ 0x39

def isLetter (code : Nat) : Bool :=
  (0x41 ≤ code && code ≤ 0x5a) || (0x61 ≤ code && code ≤ 0x7a)

/-- A class of code points at an integer; a negative one lies in no class. -/
def holdsAt (cls : Nat → Bool) : Int → Bool
  | .ofNat code => cls code
  | .negSucc _ => false

end CodePoint

/-! ## Cursors and marks -/

/-- A text, a place in it, and the current level of indentation. -/
structure Cursor where
  text : Array Char
  position : Int
  indent : Int
deriving DecidableEq

structure Mark where
  position : Int
  indent : Int
deriving DecidableEq

namespace Cursor

def ofText (text : String) : Cursor := ⟨text.toList.toArray, 0, 0⟩

def mark (c : Cursor) : Mark := ⟨c.position, c.indent⟩

def rewind (c : Cursor) (m : Mark) : Cursor := { c with position := m.position, indent := m.indent }

@[simp]
theorem text_rewind (c : Cursor) (m : Mark) : (c.rewind m).text = c.text := rfl

@[simp]
theorem position_rewind (c : Cursor) (m : Mark) : (c.rewind m).position = m.position := rfl

@[simp]
theorem indent_rewind (c : Cursor) (m : Mark) : (c.rewind m).indent = m.indent := rfl

@[simp]
theorem mark_rewind (c : Cursor) (m : Mark) : (c.rewind m).mark = m := rfl

@[simp]
theorem rewind_rewind (c : Cursor) (m m' : Mark) : (c.rewind m).rewind m' = c.rewind m' := rfl

@[simp]
theorem rewind_mark (c : Cursor) : c.rewind c.mark = c := rfl

def forward (c : Cursor) (n : Nat) : Cursor := { c with position := c.position + n }

def atEnd (c : Cursor) : Bool := c.text.size ≤ c.position

def isBeforeStart (c : Cursor) : Bool := c.position < -(c.text.size : Int)

def next? (c : Cursor) : Option Char := elementAt? c.text c.position

def remaining (c : Cursor) : Nat := ((c.text.size : Int) - c.position).toNat

def offset (c : Cursor) : Nat := offsetOf c.text.size c.position

/-- The characters left, in the order of the text. -/
def rest (c : Cursor) : List Char := c.text.toList.drop c.offset

/-- The characters of the text from the cursor up to a place; none if the place is
not behind the cursor in the text. -/
def upTo (c : Cursor) (stop : Int) : List Char :=
  (c.text.extract c.offset (offsetOf c.text.size stop)).toList

/-! ## Indentation -/

def increaseIndent (c : Cursor) : Cursor := { c with indent := c.indent + 1 }

/-- One level up, unless the level is below one. -/
def decreaseIndent? (c : Cursor) : Option Cursor :=
  if c.indent < 1 then none else some { c with indent := c.indent - 1 }

/-! ## Scanning -/

/-- The end of the longest run from `position` on whose characters pass the
check, the first of them at `index`; at most `limit` characters are looked at. -/
def scanFrom (text : Array Char) (check : CharCheck) : Nat → Int → Nat → Except Fault Int
  | 0, position, _ => .ok position
  | limit + 1, position, index =>
    match elementAt? text position with
    | some c =>
      match check c.toNat index with
      | .ok true => scanFrom text check limit (position + 1) (index + 1)
      | .ok false => .ok position
      | .error fault => .error fault
    | none => .ok position

def scanEnd (c : Cursor) (check : CharCheck) : Except Fault Int :=
  scanFrom c.text check c.remaining c.position 0

/-- Passes over the longest run whose characters pass the check, and yields it. -/
def takeRun (c : Cursor) (check : CharCheck) : Except Fault (List Char × Cursor) :=
  (c.scanEnd check).map fun stop => (c.upTo stop, { c with position := stop })

def skipRun (c : Cursor) (check : CharCheck) : Except Fault (Nat × Cursor) :=
  (c.scanEnd check).map fun stop => ((stop - c.position).toNat, { c with position := stop })

end Cursor
end Parlance
