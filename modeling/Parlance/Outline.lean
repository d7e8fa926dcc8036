import Parlance.Value

/-! # Outlines

An outline lists a tree one field to a line, deeper nodes further to the right.
A value that is no tree is one line with its kind and its notation, the form in
which the value could be written down. -/
namespace Parlance

/-! ## Notation of values -/

def Operator.shown (op : Operator) : String :=
  "<BinaryOperator." ++ op.label ++ ": " ++ Nat.repr op.number ++ ">"

/-- A tree on one line, each node with its fields by name. -/
def Expression.shown : Expression → String
  | .number value => "NumberLiteralExpression(value=" ++ value.toText ++ ")"
  | .identifier name => "IdentifierExpression(name=" ++ Text.quoted name ++ ")"
  | .binary op left right =>
    "BinaryExpression(op=" ++ op.shown ++ ", left=" ++ left.shown ++ ", right=" ++
      right.shown ++ ")"

def boolWord (b : Bool) : String := if b then "True" else "False"

def intText : Int → String
  | .ofNat n => Nat.repr n
  | .negSucc n => "-" ++ Nat.repr (n + 1)

mutual

def Value.shown : Value → String
  | .null => "None"
  | .bool b => boolWord b
  | .int i => intText i
  | .text codes => Text.quotedCodes codes
  | .list items => "[" ++ ", ".intercalate (Value.shownAll items) ++ "]"
  | .tuple [item] => "(" ++ Value.shown item ++ ",)"
  | .tuple items => "(" ++ ", ".intercalate (Value.shownAll items) ++ ")"
  | .operator op => op.shown
  | .expression e => e.shown

def Value.shownAll : List Value → List String
  | [] => []
  | v :: rest => Value.shown v :: Value.shownAll rest

end

def Value.kind : Value → String
  | .null => "NoneType"
  | .bool _ => "bool"
  | .int _ => "int"
  | .text _ => "str"
  | .list _ => "list"
  | .tuple _ => "tuple"
  | .operator _ => "BinaryOperator"
  | .expression (.number _) => "NumberLiteralExpression"
  | .expression (.identifier _) => "IdentifierExpression"
  | .expression (.binary ..) => "BinaryExpression"

/-! ## Lines of an outline -/

/-- Two blanks for each level; none at a negative depth. -/
def indentation (depth : Int) : String := String.ofList (List.replicate (2 * depth.toNat) ' ')

/-- The lines of a tree at a depth, in front of those in `after`. -/
def Expression.outlineThen : Expression → Int → List String → List String
  | .number value, depth, after =>
    (indentation depth ++ "NumberLiteralExpression") ::
      (indentation depth ++ "  value: " ++ value.toText) :: after
  | .identifier name, depth, after =>
    (indentation depth ++ "IdentifierExpression") ::
      (indentation depth ++ "  name: " ++ Text.quoted name) :: after
  | .binary op left right, depth, after =>
    (indentation depth ++ "BinaryExpression") ::
      (indentation depth ++ "  op: " ++ op.label) ::
      (indentation depth ++ "  left:") ::
      left.outlineThen (depth + 2)
        ((indentation depth ++ "  right:") :: right.outlineThen (depth + 2) after)

def Value.outline : Value → Int → List String
  | .expression e, depth => e.outlineThen depth []
  | v, depth => [indentation depth ++ v.kind ++ ": " ++ v.shown]

/-- Lines as a text, each with its line end. -/
def linesText (lines : List String) : String := String.join (lines.map (· ++ "\n"))

def Value.outlineText (v : Value) (depth : Int) : String := linesText (v.outline depth)

end Parlance
