import Parlance.Expression.Printer
import Parlance.Text.Quoted

/-! # Values

What a parser yields. A grammar is put together at run time, so its values carry
their kind with them: nothing, truth values, integers, texts, lists, tuples,
operators and expressions. -/
namespace Parlance

inductive Value where
  | null
  | bool (b : Bool)
  | int (i : Int)
  | text (codes : List CodePoint)
  | list (items : List Value)
  | tuple (items : List Value)
  | operator (op : Operator)
  | expression (e : Expression)
deriving Inhabited

namespace Value

/-- The integer a value counts as: truth values are zero and one. -/
def toInt? : Value → Option Int
  | bool b => some (if b then 1 else 0)
  | int i => some i
  | _ => none

mutual

/-- Equality of values. Truth values equal the integers they count as, a list is
never a tuple, and expressions compare their numbers by value. -/
def same : Value → Value → Bool
  | null, null => true
  | bool a, bool b => a = b
  | bool a, int i => i = if a then 1 else 0
  | int i, bool b => i = if b then 1 else 0
  | int i, int j => i = j
  | text a, text b => a = b
  | list a, list b => sameAll a b
  | tuple a, tuple b => sameAll a b
  | operator a, operator b => a = b
  | expression a, expression b => a.same b
  | _, _ => false

def sameAll : List Value → List Value → Bool
  | [], [] => true
  | a :: as, b :: bs => same a b && sameAll as bs
  | _, _ => false

end

/-- An expression applied to an operator; other values are kept as a triple. -/
def combine : Value → Value → Value → Value
  | expression left, operator op, expression right => expression (.binary op left right)
  | left, middle, right => tuple [left, middle, right]

/-! ## Texts of characters -/

def ofChars (chars : List Char) : Value := text (chars.map CodePoint.ofChar)

/-- The string a value is; a text with a surrogate in it is none. -/
def string? : Value → Option String
  | text codes => (codes.mapM CodePoint.char?).map String.ofList
  | _ => none

@[simp]
theorem string?_ofChars (chars : List Char) :
    (ofChars chars).string? = some (String.ofList chars) := by
  show ((chars.map CodePoint.ofChar).mapM CodePoint.char?).map String.ofList = _
  rw [CodePoint.mapM_char?_ofChar]
  rfl

def mapString (f : String → Value) (v : Value) : Value :=
  match v.string? with
  | some s => f s
  | none => v

@[simp]
theorem mapString_ofChars (f : String → Value) (chars : List Char) :
    (ofChars chars).mapString f = f (String.ofList chars) := by
  unfold mapString
  rw [string?_ofChars]

end Value
end Parlance
