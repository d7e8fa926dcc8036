import Parlance.Double.Basic

/-! # Expressions

The trees of the arithmetic language: number literals, identifiers and binary
operations. Two notions of sameness live side by side. `=` compares the bits of
numbers; `Expression.same` compares numbers by value, so the two zeros agree and
a NaN agrees with nothing. -/
namespace Parlance

/-- The binary operators. No parsed tree holds `unknown`. -/
inductive Operator where
  | unknown
  | add
  | subtract
  | multiply
  | divide
  | equalTo
  | notEqualTo
deriving DecidableEq, Inhabited

namespace Operator

def symbol : Operator → String
  | unknown => "<UNK>"
  | add => "+"
  | subtract => "-"
  | multiply => "*"
  | divide => "/"
  | equalTo => "="
  | notEqualTo => "<>"

def label : Operator → String
  | unknown => "UNKNOWN"
  | add => "ADD"
  | subtract => "SUBTRACT"
  | multiply => "MULTIPLY"
  | divide => "DIVIDE"
  | equalTo => "EQUAL_TO"
  | notEqualTo => "NOT_EQUAL_TO"

/-- Every operator, in the order of its number. -/
def all : List Operator :=
  [unknown, add, subtract, multiply, divide, equalTo, notEqualTo]

/-- The number of an operator, counted from one. -/
def number (op : Operator) : Nat := all.idxOf op + 1

def ofLabel? (word : String) : Option Operator := all.find? fun op => op.label = word

def isComparison : Operator → Bool
  | equalTo | notEqualTo => true
  | _ => false

end Operator

inductive Expression where
  | number (value : Double)
  | identifier (name : String)
  | binary (op : Operator) (left right : Expression)
deriving DecidableEq, Inhabited

namespace Expression

/-- The same shape, operators and names, and equal numbers. -/
def same : Expression → Expression → Bool
  | number a, number b => a.numEq b
  | identifier a, identifier b => a = b
  | binary op l r, binary op' l' r' => op = op' && l.same l' && r.same r'
  | _, _ => false

/-- The largest number of binary nodes on a path from the root to a leaf. -/
def height : Expression → Nat
  | number _ => 0
  | identifier _ => 0
  | binary _ l r => max l.height r.height + 1

end Expression
end Parlance
