import Parlance.Parser.Forward
import Parlance.Diagnostic

/-! # The grammar of expressions

There is no separate lexer: each token takes the white space that follows it, so
a text has to start on a token. Operators are layered by chaining, the tightest
first:

    term     := number | identifier | "(" expression ")"
    products := term     (("*" | "/")  term)*
    sums     := products (("+" | "-")  products)*
    top      := sums     (("=" | "<>") sums)*        with comparisons only

The expression between parentheses is a forward, so the number of forwards open
at once is the number of parentheses open at once, and the depth of the budget
is a limit on nesting. -/
namespace Parlance.Grammar

open Parlance.Parser

/-! ## Tokens -/

/-- A parser and the white space that follows. -/
def token (p : Parser) : Parser := p.seqLeft whitespace

def sumOperator : Parser :=
  token (oneOfMapped "+-" [.operator .add, .operator .subtract])

def productOperator : Parser :=
  token (oneOfMapped "*/" [.operator .multiply, .operator .divide])

def comparisonOperator : Parser :=
  token (firstOf
    [(literal "=").replace (.operator .equalTo), (literal "<>").replace (.operator .notEqualTo)])

/-- The number literal of a text of digits. No digits are no number; a run that
goes on from the last character to the first can be empty as a text. -/
def numberOf (digits : String) : Except Fault Value :=
  if digits = "" then .error .noDigits
  else .ok (.expression (.number (Double.ofDigits digits.toList)))

def identifierOf (name : String) : Value := .expression (.identifier name)

def number : Parser :=
  (token ((stringOf "0123456789").atLeast 1)).map fun v =>
    match v.string? with
    | some digits => numberOf digits
    | none => .ok v

def identifier : Parser :=
  (token ((takeWhile fun code _ => CodePoint.isLetter code).atLeast 1)).map
    fun v => .ok (v.mapString identifierOf)

/-! ## Layers -/

def parenthesized (p : Parser) : Parser :=
  token ((whitespace.seqRight p).enclosed (literal "(") (literal ")"))

def term (nested : Parser) : Parser := firstOf [number, identifier, parenthesized nested]

def layer (operand operator : Parser) : Parser :=
  operand.chainl operator fun left op right => .ok (Value.combine left op right)

def products (nested : Parser) : Parser := layer (term nested) productOperator

def sums (nested : Parser) : Parser := layer (products nested) sumOperator

/-- An expression whose parentheses hold `nested`. -/
def top (comparisons : Bool) (nested : Parser) : Parser :=
  if comparisons then layer (sums nested) comparisonOperator else sums nested

/-- Creates a forward, defines it as an expression whose parentheses hold that
forward, and yields the expression. -/
def build (fs : Forwards) (comparisons : Bool) : Parser × Forwards :=
  let (id, fs') := fs.create
  let p := top comparisons (forward id)
  (p, match fs'.define id p with
    | .ok fs'' => fs''
    | .error _ => fs')

/-- The table with the two grammars: forward 0 with comparisons, 1 without. -/
def builtin : Forwards := (build (build .empty true).2 false).2

def builtinId (comparisons : Bool) : Nat := if comparisons then 0 else 1

def expression (comparisons : Bool) : Parser := top comparisons (forward (builtinId comparisons))

/-! ## Parsing a text -/

structure Options where
  /-- Are `=` and `<>` operators? -/
  comparisons : Bool := true
  /-- Must the whole text be an expression? -/
  requireEnd : Bool := true

def selected (opts : Options) : Parser :=
  if opts.requireEnd then (expression opts.comparisons).seqLeft endOfText
  else expression opts.comparisons

/-! ### The limit on nesting

A run has a stack of frames. A parser that is open has two on it, a forward one. What
is open for each pair of parentheses is a chain for each layer of operators, the choice
of a term, a token, its enclosing parentheses and the white space behind the first of
them, and the forward. -/

def stackFrames : Nat := 10000

/-- The frames that no parentheses account for: the caller's, and those of the
outermost parsers and of the innermost token. -/
def outerFrames : Nat := 36

def layerCount (comparisons : Bool) : Nat := if comparisons then 3 else 2

/-- The frames of one pair of parentheses. -/
def levelFrames (comparisons : Bool) : Nat := 2 * (layerCount comparisons + 4) + 1

/-- How many parentheses may be open at once. -/
def nestingLimit (comparisons : Bool) : Nat :=
  (stackFrames - outerFrames) / levelFrames comparisons

/-- The run of the selected parser on a text with a limit on nesting. A loop takes
at most one round for each character, and one to find that it is over. -/
def attempt (depth : Nat) (text : String) (opts : Options) : Outcome Reply :=
  (selected opts).run builtin ⟨depth, text.length + 1⟩ (Cursor.ofText text)

/-- The reply to a text that nests too deep: failure at its start. -/
def rejected : Reply := ⟨false, .null, 0⟩

/-- The reply of the run under the limit. That a text nests too deep is the one fault
that is answered with a reply; any other escapes. -/
def replyOrFault (text : String) (opts : Options := {}) : Except Fault Reply :=
  match (attempt (nestingLimit opts.comparisons) text opts).exit with
  | .error .tooDeep => .ok rejected
  | exit => exit

/-- Parses a text as an expression. No fault escapes from the two grammars
(`replyOrFault_eq_ok`), so the default is never taken. -/
def parse (text : String) (opts : Options := {}) : Reply :=
  (replyOrFault text opts).toOption.getD rejected

def tree? (reply : Reply) : Option Expression :=
  if reply.success then
    match reply.value with
    | .expression e => some e
    | _ => none
  else none

def treeOrInvalid (reply : Reply) : Except InvalidExpression Expression :=
  match tree? reply with
  | some e => .ok e
  | none => .error ⟨[.invalidExpression]⟩

end Parlance.Grammar
