/-! # Blanks around a text

The characters removed from both ends of a source text: every white space
character, line and paragraph separators included. -/
namespace Parlance.Text

def isBlank (c : Char) : Bool :=
  let n := c.toNat
  (0x9 ≤ n && n ≤ 0xd) || (0x1c ≤ n && n ≤ 0x20) || n = 0x85 || n = 0xa0 || n = 0x1680 ||
    (0x2000 ≤ n && n ≤ 0x200a) || n = 0x2028 || n = 0x2029 || n = 0x202f || n = 0x205f ||
    n = 0x3000

def dropBlankEnd (text : List Char) : List Char := (text.reverse.dropWhile isBlank).reverse

def strip (text : List Char) : List Char := dropBlankEnd (text.dropWhile isBlank)

end Parlance.Text
