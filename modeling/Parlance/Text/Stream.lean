/-! # Texts read from and written to a stream

A text read from standard input has every line end as a single line feed. A text that
is written to a stream that is no terminal loses its control sequences, colours among
them. A control sequence is an escape character and a bracket, then parameter
characters, then intermediate characters, then one final character; the three classes
are disjoint ranges of ASCII, so a sequence can be read in one way only. -/
namespace Parlance.Text

/-- Each line end (carriage return, line feed, or both in this order) as a line feed. -/
def normalizeLineEnds : List Char → List Char
  | [] => []
  | '\r' :: '\n' :: rest => '\n' :: normalizeLineEnds rest
  | '\r' :: rest => '\n' :: normalizeLineEnds rest
  | c :: rest => c :: normalizeLineEnds rest

/-! ## Control sequences -/

def escapeMark : Char := '\x1b'

/-- Digits, and the punctuation from the colon to the question mark. -/
def isParameter (c : Char) : Bool := 0x30 ≤ c.toNat && c.toNat ≤ 0x3f

/-- The space, and the punctuation up to the slash. -/
def isIntermediate (c : Char) : Bool := 0x20 ≤ c.toNat && c.toNat ≤ 0x2f

/-- The letters, and the punctuation around them. -/
def isFinal (c : Char) : Bool := 0x40 ≤ c.toNat && c.toNat ≤ 0x7e

/-- What follows a control sequence whose escape character has been read; nothing
if the text does not go on with the rest of one. -/
def afterSequence? : List Char → Option (List Char)
  | '[' :: cs =>
    match (cs.dropWhile isParameter).dropWhile isIntermediate with
    | c :: rest => if isFinal c then some rest else none
    | [] => none
  | _ => none

/-- A control sequence has at least a bracket and a final character behind its
escape character. -/
theorem length_afterSequence?_lt {cs rest : List Char} (h : afterSequence? cs = some rest) :
    rest.length < cs.length := by
  unfold afterSequence? at h
  split at h
  next cs =>
    have hparameter := (List.dropWhile_sublist (l := cs) isParameter).length_le
    have hintermediate :=
      (List.dropWhile_sublist (l := cs.dropWhile isParameter) isIntermediate).length_le
    split at h
    next c tail heq =>
      split at h
      · cases h
        rw [heq] at hintermediate
        simp only [List.length_cons] at hintermediate ⊢
        omega
      · cases h
    next => cases h
  next => cases h

def plainChars : List Char → List Char
  | [] => []
  | c :: cs =>
    if c = escapeMark then
      match _hrest : afterSequence? cs with
      | some rest => plainChars rest
      | none => c :: plainChars cs
    else c :: plainChars cs
termination_by cs => cs.length
decreasing_by
  · have hlt := length_afterSequence?_lt ‹_›
    simp only [List.length_cons]
    omega
  · simp only [List.length_cons]
    omega
  · simp only [List.length_cons]
    omega

/-- A text without its control sequences. One that holds no escape character has
none, and stays as it is. -/
def plain (text : String) : String :=
  if text.toList.contains escapeMark then String.ofList (plainChars text.toList) else text

/-- A text as it is written to a stream. -/
def written (terminal : Bool) (text : String) : String := if terminal then text else plain text

end Parlance.Text
