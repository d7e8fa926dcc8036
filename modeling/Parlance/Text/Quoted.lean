import Parlance.Text.CodePoint
import Parlance.Text.Printable

/-! # Quoted text

A text is shown between quotes, with what would not print escaped. The quotes
are single unless the text holds a single quote and no double one. A backslash
is always escaped, so the quoted form determines the text. -/
namespace Parlance.Text

def quoteMark (text : List Char) : Char :=
  if '\'' ∈ text ∧ '"' ∉ text then '"' else '\''

/-- A number in lower-case hexadecimal, padded with zeros to `width` digits. -/
def hexPadded (width n : Nat) : List Char :=
  let digits := Nat.toDigits 16 n
  List.replicate (width - digits.length) '0' ++ digits

/-- One character as it stands between quotes `mark`. -/
def escapeChar (mark c : Char) : List Char :=
  if c = mark ∨ c = '\\' then ['\\', c]
  else if c = '\n' then ['\\', 'n']
  else if c = '\r' then ['\\', 'r']
  else if c = '\t' then ['\\', 't']
  else if isPrintable c then [c]
  else if c.toNat < 0x100 then '\\' :: 'x' :: hexPadded 2 c.toNat
  else if c.toNat < 0x10000 then '\\' :: 'u' :: hexPadded 4 c.toNat
  else '\\' :: 'U' :: hexPadded 8 c.toNat

def quoteChars (text : List Char) : List Char :=
  let mark := quoteMark text
  mark :: (text.flatMap (escapeChar mark) ++ [mark])

def quoted (text : String) : String := String.ofList (quoteChars text.toList)

/-! ## Surrogates

A surrogate is no character and always escaped. -/

def escapeCode (mark : Char) (p : CodePoint) : List Char :=
  match p.char? with
  | some c => escapeChar mark c
  | none => '\\' :: 'u' :: hexPadded 4 p.val

def quotedCodes (codes : List CodePoint) : String :=
  let mark := quoteMark (codes.filterMap CodePoint.char?)
  String.ofList (mark :: (codes.flatMap (escapeCode mark) ++ [mark]))

/-- Without surrogates code points are quoted as the text they are. -/
theorem quotedCodes_ofChar (text : List Char) :
    quotedCodes (text.map CodePoint.ofChar) = quoted (String.ofList text) := by
  have hchars : (text.map CodePoint.ofChar).filterMap CodePoint.char? = text := by
    rw [List.filterMap_map]
    show text.filterMap (fun c => (CodePoint.ofChar c).char?) = text
    simp only [CodePoint.char?_ofChar, List.filterMap_some]
  have hescape (mark : Char) :
      (text.map CodePoint.ofChar).flatMap (escapeCode mark) = text.flatMap (escapeChar mark) := by
    simp [List.flatMap_map, escapeCode]
  rw [quoted, String.toList_ofList, quoteChars]
  simp only [quotedCodes, hchars, hescape]

end Parlance.Text
