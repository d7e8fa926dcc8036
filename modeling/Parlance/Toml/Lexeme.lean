import Parlance.Toml.Basic

/-! # Lexemes of TOML

Blanks, comments, texts in quotes, and keys. Each function takes the characters
that are left and gives what it has read with those left after it. -/
namespace Parlance.Toml

/-! ## Characters -/

def isGap (c : Char) : Bool := c = ' ' || c = '\t'

def isGapOrLineEnd (c : Char) : Bool := isGap c || c = '\n'

/-- A control character other than the tab: it may stand in no comment and in no
text on one line. -/
def isControl (c : Char) : Bool := (c.toNat < 32 && c ≠ '\t') || c.toNat = 127

def isIllegal (multiline : Bool) (c : Char) : Bool := isControl c && !(multiline && c = '\n')

def isBare (c : Char) : Bool := c.isAlphanum || c = '-' || c = '_'

def hexValue? (c : Char) : Option Nat :=
  if '0' ≤ c ∧ c ≤ '9' then some (c.toNat - 48)
  else if 'a' ≤ c ∧ c ≤ 'f' then some (c.toNat - 87)
  else if 'A' ≤ c ∧ c ≤ 'F' then some (c.toNat - 55)
  else none

/-! ## Gaps and comments -/

def skipGap (cs : List Char) : List Char := cs.dropWhile isGap

/-- Skips a comment up to the end of its line, if there is one. -/
def skipComment : List Char → Except Error (List Char)
  | '#' :: cs =>
    if (cs.takeWhile (· ≠ '\n')).any isControl then .error .malformed
    else .ok (cs.dropWhile (· ≠ '\n'))
  | cs => .ok cs

/-- Skips blanks, line ends and comments, at most `fuel` comments. -/
def skipGapsAndComments : Nat → List Char → Except Error (List Char)
  | 0, cs => .ok cs
  | fuel + 1, cs =>
    match cs.dropWhile isGapOrLineEnd with
    | '#' :: rest => do skipGapsAndComments fuel (← skipComment ('#' :: rest))
    | rest => .ok rest

/-! ## Texts -/

/-- The character whose code point the next `count` hexadecimal digits write. -/
def readHexChar (count : Nat) (cs : List Char) : Except Error (List Char × List Char) :=
  match (cs.take count).mapM hexValue? with
  | none => .error .malformed
  | some digits =>
    let code := digits.foldl (fun n d => 16 * n + d) 0
    if digits.length = count ∧ (code < 0xd800 ∨ (0xdfff < code ∧ code ≤ 0x10ffff)) then
      .ok ([Char.ofNat code], cs.drop count)
    else .error .malformed

/-- What stands behind a backslash. In a text of several lines a backslash at the
end of a line takes the line end and all blanks after it away. -/
def readEscape (multiline : Bool) : List Char → Except Error (List Char × List Char)
  | 'b' :: cs => .ok (['\x08'], cs)
  | 't' :: cs => .ok (['\t'], cs)
  | 'n' :: cs => .ok (['\n'], cs)
  | 'f' :: cs => .ok (['\x0c'], cs)
  | 'r' :: cs => .ok (['\r'], cs)
  | '"' :: cs => .ok (['"'], cs)
  | '\\' :: cs => .ok (['\\'], cs)
  | 'u' :: cs => readHexChar 4 cs
  | 'U' :: cs => readHexChar 8 cs
  | cs =>
    if multiline && (cs.head?).any isGapOrLineEnd then
      match skipGap cs with
      | '\n' :: rest => .ok ([], rest.dropWhile isGapOrLineEnd)
      | [] => .ok ([], [])
      | _ => .error .malformed
    else .error .malformed

/-- A text up to its closing quote, or its three closing quotes; at most `fuel`
characters and escapes. -/
def readBasic (multiline : Bool) :
    Nat → List Char → List Char → Except Error (List Char × List Char)
  | 0, _, _ => .error .malformed
  | _ + 1, _, [] => .error .malformed
  | fuel + 1, done, '"' :: cs =>
    if multiline then
      match cs with
      | '"' :: '"' :: rest => .ok (done.reverse, rest)
      | _ => readBasic multiline fuel ('"' :: done) cs
    else .ok (done.reverse, cs)
  | fuel + 1, done, '\\' :: cs =>
    match readEscape multiline cs with
    | .ok (chars, rest) => readBasic multiline fuel (chars.reverse ++ done) rest
    | .error e => .error e
  | fuel + 1, done, c :: cs =>
    if isIllegal multiline c then .error .malformed else readBasic multiline fuel (c :: done) cs

/-- A text without escapes, up to its closing quote. -/
def readLiteral : List Char → List Char → Except Error (List Char × List Char)
  | _, [] => .error .malformed
  | done, '\'' :: cs => .ok (done.reverse, cs)
  | done, c :: cs => if isControl c then .error .malformed else readLiteral (c :: done) cs

def readLongLiteral : List Char → List Char → Except Error (List Char × List Char)
  | _, [] => .error .malformed
  | done, '\'' :: '\'' :: '\'' :: cs => .ok (done.reverse, cs)
  | done, c :: cs => if isIllegal true c then .error .malformed else readLongLiteral (c :: done) cs

/-- Up to two quotes right behind the closing ones belong to the text. -/
def takeExtraQuotes (quote : Char) (chars : List Char) : List Char → List Char × List Char
  | c :: d :: cs =>
    if c = quote then
      if d = quote then (chars ++ [quote, quote], cs) else (chars ++ [quote], d :: cs)
    else (chars, c :: d :: cs)
  | [c] => if c = quote then (chars ++ [quote], []) else (chars, [c])
  | [] => (chars, [])

def dropLineEnd : List Char → List Char
  | '\n' :: cs => cs
  | cs => cs

/-- A text in quotes of either kind, on one line or several. -/
def readText : List Char → Except Error (List Char × List Char)
  | '"' :: '"' :: '"' :: cs => do
    let (chars, rest) ← readBasic true (cs.length + 1) [] (dropLineEnd cs)
    return takeExtraQuotes '"' chars rest
  | '"' :: cs => readBasic false (cs.length + 1) [] cs
  | '\'' :: '\'' :: '\'' :: cs => do
    let (chars, rest) ← readLongLiteral [] (dropLineEnd cs)
    return takeExtraQuotes '\'' chars rest
  | '\'' :: cs => readLiteral [] cs
  | _ => .error .malformed

/-! ## Keys -/

/-- One part of a key: bare, or a text on one line. -/
def readKeyPart : List Char → Except Error (String × List Char)
  | '"' :: cs => do
    let (chars, rest) ← readBasic false (cs.length + 1) [] cs
    return (String.ofList chars, rest)
  | '\'' :: cs => do
    let (chars, rest) ← readLiteral [] cs
    return (String.ofList chars, rest)
  | cs =>
    if (cs.head?).any isBare then
      .ok (String.ofList (cs.takeWhile isBare), cs.dropWhile isBare)
    else .error .malformed

/-- A key of parts with points between them, and the blanks behind it; at most
`fuel` parts. -/
def readKey : Nat → List Char → Except Error (List String × List Char)
  | 0, _ => .error .malformed
  | fuel + 1, cs => do
    let (part, rest) ← readKeyPart cs
    match skipGap rest with
    | '.' :: rest => do
      let (parts, rest) ← readKey fuel (skipGap rest)
      return (part :: parts, rest)
    | rest => return ([part], rest)

end Parlance.Toml
