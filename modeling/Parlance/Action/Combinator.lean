import Parlance.Action.Basic

/-! # Combinators

Larger matchers out of smaller ones. Nothing is assumed of the parts: a part may
move the cursor and fail. Each combinator says where it returns to a mark, and
where it relies on its part to have left the cursor alone.

Two combinators repeat, and nothing in a part bounds their rounds, so they take
a number of rounds after which they give up with the fault `endless`. -/
namespace Parlance.Matcher

/-! ## Shaping the value -/

def replace (p : Matcher) (v : Value) : Matcher := do
  let r ← p
  if r.success then succeed v else fail

def map (p : Matcher) (f : Value → Except Fault Value) : Matcher := do
  let r ← p
  if r.success then do
    let v ← Action.lift (f r.value)
    succeed v
  else fail

def withDefault (p : Matcher) (default : Value) : Matcher := do
  let r ← p
  if r.success then succeed r.value else succeed default

/-! ## Conditions -/

/-- Succeeds only with a value that the callback accepts. -/
def filter (p : Matcher) (accepts : Value → Except Fault Bool) : Matcher := do
  let start ← Action.look Cursor.mark
  let r ← p
  if r.success then do
    let accepted ← Action.lift (accepts r.value)
    if accepted then succeed r.value else failAt start
  else fail

/-- Succeeds only if the cursor has moved by at least `n` characters. -/
def atLeast (p : Matcher) (n : Int) : Matcher := do
  let start ← Action.look Cursor.mark
  let r ← p
  if r.success then do
    let stop ← Action.look Cursor.position
    if stop < start.position + n then failAt start else succeed r.value
  else fail

/-- Runs `p` only where `excluded` does not match. -/
def butNot (p excluded : Matcher) : Matcher := do
  let start ← Action.look Cursor.mark
  let e ← excluded
  if e.success then failAt start
  else do
    let r ← p
    if r.success then succeed r.value else fail

/-! ## Sequences -/

/-- `p` then `q`; yields the value of `p`. -/
def seqLeft (p q : Matcher) : Matcher := do
  let start ← Action.look Cursor.mark
  let r ← p
  if r.success then do
    let s ← q
    if s.success then succeed r.value else failAt start
  else fail

def seqRight (p q : Matcher) : Matcher := do
  let start ← Action.look Cursor.mark
  let r ← p
  if r.success then do
    let s ← q
    if s.success then succeed s.value else failAt start
  else fail

def enclosed (p opening closing : Matcher) : Matcher := do
  let start ← Action.look Cursor.mark
  let o ← opening
  if o.success then do
    let r ← p
    if r.success then do
      let e ← closing
      if e.success then succeed r.value else failAt start
    else failAt start
  else fail

def pair (p q : Matcher) : Matcher := do
  let start ← Action.look Cursor.mark
  let r ← p
  if r.success then do
    let s ← q
    if s.success then succeed (.tuple [r.value, s.value]) else failAt start
  else fail

def triple (p q t : Matcher) : Matcher := do
  let start ← Action.look Cursor.mark
  let r ← p
  if r.success then do
    let s ← q
    if s.success then do
      let u ← t
      if u.success then succeed (.tuple [r.value, s.value, u.value]) else failAt start
    else failAt start
  else fail

/-! ## Alternatives -/

/-- `p`, or `q` from where `p` has failed. -/
def orElse (p q : Matcher) : Matcher := do
  let r ← p
  if r.success then succeed r.value
  else do
    let s ← q
    if s.success then succeed s.value else fail

/-- `p` if the next character is one of `chars`, else `q`; the reply is passed
on as it is. -/
def branch (chars : List Char) (p q : Matcher) : Matcher := do
  match ← Action.peek with
  | some c => if c ∈ chars then p else q
  | none => q

/-! ## Repetition -/

/-- The values of `p`, again and again until it fails. A success that leaves the
position as it was is a fault of the grammar, whatever happens to the level. -/
def collect (repetition : Repetition) (p : Matcher) : Nat → Action (List Value)
  | 0 => Action.raise .endless
  | rounds + 1 => do
    let before ← Action.look Cursor.position
    let r ← p
    if r.success then do
      let after ← Action.look Cursor.position
      if after = before then Action.raise (.grammar (.notConsuming repetition))
      else do
        let values ← collect repetition p rounds
        pure (r.value :: values)
    else pure []

def many (p : Matcher) (rounds : Nat) : Matcher := do
  let values ← collect .many p rounds
  succeed (.list values)

def codeOf (i : Int) : Except Fault CodePoint :=
  if h : 0 ≤ i ∧ i < 0x110000 then .ok ⟨i.toNat, by omega⟩
  else if -0x80000000 ≤ i ∧ i ≤ 0x7fffffff then .error .codeRange
  else .error .codeWidth

/-- The code points with the numbers that values count as. -/
def joinCodes : List Value → Except Fault (List CodePoint)
  | [] => .ok []
  | v :: rest =>
    match v.toInt? with
    | none => .error .notCode
    | some i => do
      let p ← codeOf i
      let ps ← joinCodes rest
      pure (p :: ps)

/-- All values of `p`, numbers of code points, joined to a text. -/
def manyChars (p : Matcher) (rounds : Nat) : Matcher := do
  let values ← collect .manyChars p rounds
  let codes ← Action.lift (joinCodes values)
  succeed (.text codes)

/-! ## Chains of operators -/

/-- Goes on with separator and operand as long as both match, and returns to the
end of the last complete pair. -/
def chainFrom (p separator : Matcher) (f : Value → Value → Value → Except Fault Value) :
    Nat → Value → Mark → Matcher
  | 0, _, _ => Action.raise .endless
  | rounds + 1, value, last => do
    let s ← separator
    if s.success then do
      let r ← p
      if r.success then do
        let value' ← Action.lift (f value s.value r.value)
        let here ← Action.look Cursor.mark
        chainFrom p separator f rounds value' here
      else succeedAt last value
    else succeedAt last value

/-- Operands with separators between them, combined from the left. -/
def chainl (p separator : Matcher) (f : Value → Value → Value → Except Fault Value)
    (rounds : Nat) : Matcher := do
  let r ← p
  if r.success then do
    let here ← Action.look Cursor.mark
    chainFrom p separator f rounds r.value here
  else fail

/-! ## Tracing -/

def traced (p : Matcher) (name : String) : Matcher := do
  Action.record name .entered
  let r ← p
  Action.record name (if r.success then .succeeded else .failed)
  pure r

end Parlance.Matcher
