import Parlance.Expression.Basic
import Parlance.Double.Shortest

/-! # Printed expressions

An expression is printed with every binary operation in parentheses, so its text
parses to the same tree whatever the precedence of its operators. Whole numbers
are printed as exact integers, infinity as a literal that overflows back to
infinity, other numbers by their shortest decimal. -/
namespace Parlance

namespace Double

/-- A literal too large for a finite double: a one and 309 zeros. -/
def infinityLiteral : String := String.ofList ('1' :: List.replicate 309 '0')

/-- An integer of this magnitude; zero has no sign. -/
def integerLiteral (negative : Bool) (magnitude : Nat) : String :=
  if negative ∧ magnitude ≠ 0 then "-" ++ Nat.repr magnitude else Nat.repr magnitude

def literal (d : Double) : String :=
  if d.isInfinite then (if d.isNegative then "-" else "") ++ infinityLiteral
  else if d.isIntegral then integerLiteral d.isNegative d.wholePart
  else d.toText

end Double

namespace Expression

/-- The parts of a printed expression, in front of those in `after`. -/
def partsThen : Expression → List String → List String
  | number value, after => value.literal :: after
  | identifier name, after => name :: after
  | binary op left right, after =>
    "(" :: left.partsThen ((" " ++ op.symbol ++ " ") :: right.partsThen (")" :: after))

def parts (e : Expression) : List String := e.partsThen []

def toText (e : Expression) : String := String.join e.parts

end Expression

structure Transcript where
  parts : List String := []

namespace Transcript

def add (s : Transcript) (e : Expression) : Transcript := ⟨s.parts ++ e.parts⟩

def text (s : Transcript) : String := String.join s.parts

/-- The transcripts after each of the expressions in turn. -/
def addAll (s : Transcript) : List Expression → List Transcript
  | [] => []
  | e :: rest => s.add e :: (s.add e).addAll rest

end Transcript
end Parlance
