import Parlance.Action.Basic

/-! # Primitive parsers

The parsers that look at characters and at the level of indentation. Each checks
before it consumes, or scans and returns to its start, so one that fails leaves
the cursor where it was. -/
namespace Parlance

/-- A parser without parts. -/
inductive Primitive where
  /-- Succeeds with a value and consumes nothing. -/
  | success (v : Value)
  /-- Always fails. -/
  | failure
  /-- Any one character; yields its code point. -/
  | anyChar
  /-- One of the characters; yields what `table` holds for its first index. -/
  | oneOf (chars : List Char) (table : Nat → Except Fault Value)
  /-- One of the characters; yields the entry at its first index, and fails
  where there is none. -/
  | oneOfMapped (chars : List Char) (entries : List Value)
  /-- One character that passes the test at index zero; yields its code point. -/
  | satisfy (check : CharCheck)
  /-- The longest run that passes the test; yields its text. -/
  | takeWhile (check : CharCheck)
  /-- The longest run that passes the test; yields its length. -/
  | skipWhile (check : CharCheck)
  /-- Exactly these characters. -/
  | literal (chars : List Char)
  /-- The end of the text. -/
  | endOfText
  /-- A line end, or the end of the text. -/
  | endOfLine
  /-- One level deeper. -/
  | indent
  /-- One level up; fails below level one. -/
  | dedent
  /-- As many tabs as the level of indentation; yields their number. -/
  | leadingTabs

namespace Matcher

def consume (v : Value) : Matcher := do
  Action.move (·.forward 1)
  succeed v

def anyChar : Matcher := do
  match ← Action.peek with
  | none => fail
  | some c => consume (.int c.toNat)

def oneOf (chars : List Char) (table : Nat → Except Fault Value) : Matcher := do
  match (← Action.peek).bind (chars.idxOf? ·) with
  | none => fail
  | some index => do
    Action.move (·.forward 1)
    let v ← Action.lift (table index)
    succeed v

def oneOfMapped (chars : List Char) (entries : List Value) : Matcher := do
  match ((← Action.peek).bind (chars.idxOf? ·)).bind (entries[·]?) with
  | none => fail
  | some v => consume v

def satisfy (check : CharCheck) : Matcher := do
  match ← Action.peek with
  | none => fail
  | some c => do
    let passes ← Action.lift (check c.toNat 0)
    if passes then consume (.int c.toNat) else fail

/-- Scans ahead and moves behind what was scanned; a fault leaves the cursor. -/
def scan {α : Type} (pass : Cursor → Except Fault (α × Cursor)) : Action α :=
  Action.inText ⟨fun c =>
    match pass c with
    | .ok (a, c') => ⟨.ok a, c', []⟩
    | .error fault => ⟨.error fault, c, []⟩⟩

def takeRun (check : CharCheck) : Action (List Char) := scan (·.takeRun check)

def skipRun (check : CharCheck) : Action Nat := scan (·.skipRun check)

def takeWhile (check : CharCheck) : Matcher := do
  let chars ← takeRun check
  succeed (.ofChars chars)

def skipWhile (check : CharCheck) : Matcher := do
  let count ← skipRun check
  succeed (.int count)

/-- The test of a run that spells out `chars`. -/
def spells (chars : List Char) : CharTest := fun code index =>
  match chars[index]? with
  | some c => c.toNat = code
  | none => false

def literal (chars : List Char) : Matcher := do
  let start ← Action.look Cursor.mark
  let count ← skipRun (spells chars).toCheck
  if count = chars.length then succeed .null else failAt start

def endOfText : Matcher := do
  if ← Action.look Cursor.atEnd then succeed .null else fail

def endOfLine : Matcher := do
  match ← Action.peek with
  | none => succeed .null
  | some c =>
    if c.toNat = CodePoint.lineFeed then consume .null
    else if c.toNat = CodePoint.carriageReturn then do
      Action.move (·.forward 1)
      match ← Action.peek with
      | some d => if d.toNat = CodePoint.lineFeed then consume .null else succeed .null
      | none => succeed .null
    else fail

def indent : Matcher := do
  Action.move Cursor.increaseIndent
  succeed .null

def dedent : Matcher := do
  match ← Action.look Cursor.decreaseIndent? with
  | none => fail
  | some c => do
    Action.move fun _ => c
    succeed .null

/-- The test of a run of at most `level` tabs. -/
def tabs (level : Int) : CharTest := fun code index => index < level && code = CodePoint.tab

def leadingTabs : Matcher := do
  let start ← Action.look Cursor.mark
  if start.indent = 0 then succeed (.int 0)
  else do
    let count ← skipRun (tabs start.indent).toCheck
    if (count : Int) = start.indent then succeed (.int count) else failAt start

end Matcher

def Primitive.matcher : Primitive → Matcher
  | success v => Matcher.succeed v
  | failure => Matcher.fail
  | anyChar => Matcher.anyChar
  | oneOf chars table => Matcher.oneOf chars table
  | oneOfMapped chars entries => Matcher.oneOfMapped chars entries
  | satisfy check => Matcher.satisfy check
  | takeWhile check => Matcher.takeWhile check
  | skipWhile check => Matcher.skipWhile check
  | literal chars => Matcher.literal chars
  | endOfText => Matcher.endOfText
  | endOfLine => Matcher.endOfLine
  | indent => Matcher.indent
  | dedent => Matcher.dedent
  | leadingTabs => Matcher.leadingTabs

end Parlance
