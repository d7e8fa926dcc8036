/-! # Code points

A text that is put together at run time is a list of code points. There are more
of these than there are characters: a surrogate, which only stands for one half of
a character elsewhere, has a number but is no character. Every character has its
code point, and no two have the same. -/
namespace Parlance

/-- The number of a character or of a surrogate. -/
@[ext]
structure CodePoint where
  val : Nat
  isLt : val < 0x110000
deriving DecidableEq

namespace CodePoint

theorem toNat_lt_bound (c : Char) : c.toNat < 0x110000 := by
  have hvalid : c.toNat.isValidChar := c.valid
  unfold Nat.isValidChar at hvalid
  omega

def ofChar (c : Char) : CodePoint := ⟨c.toNat, toNat_lt_bound c⟩

/-- The character of a code point; a surrogate has none. -/
def char? (p : CodePoint) : Option Char :=
  if p.val.isValidChar then some (Char.ofNat p.val) else none

@[simp]
theorem char?_ofChar (c : Char) : (ofChar c).char? = some c := by
  have hvalid : c.toNat.isValidChar := c.valid
  unfold char? ofChar
  rw [if_pos hvalid, Char.ofNat_toNat]

theorem mapM_char?_ofChar (cs : List Char) : (cs.map ofChar).mapM char? = some cs := by
  induction cs with
  | nil => rfl
  | cons c cs ih =>
    rw [List.map_cons, List.mapM_cons, char?_ofChar, ih]
    rfl

end CodePoint
end Parlance
