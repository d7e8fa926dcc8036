import Parlance.Action.Primitive
import Parlance.Action.Combinator

/-! # Parsers

A parser is a description: primitives put together by combinators. Recursion goes
through *forwards*, numbered holes whose definitions are kept in a table beside
the parser, so a parser is a finite tree and can be examined, taken apart and
changed. `Parser.matcher` gives the description its meaning when the meaning of
the forwards is known.

Alternatives and dispatch on the next character are binary here; `firstOf` and
`dispatch` build them from lists. -/
namespace Parlance

inductive Parser where
  /-- A parser without parts. -/
  | primitive (leaf : Primitive)
  /-- A hand-written matcher, of which nothing is known. -/
  | native (run : Matcher)
  /-- The parser that a forward will be, or has been, defined as. -/
  | forward (id : Nat)
  | replace (p : Parser) (v : Value)
  | map (p : Parser) (f : Value → Except Fault Value)
  | withDefault (p : Parser) (default : Value)
  | filter (p : Parser) (accepts : Value → Except Fault Bool)
  | atLeast (p : Parser) (n : Int)
  | butNot (p excluded : Parser)
  | seqLeft (p q : Parser)
  | seqRight (p q : Parser)
  | enclosed (p opening closing : Parser)
  | pair (p q : Parser)
  | triple (p q t : Parser)
  | orElse (p q : Parser)
  | branch (chars : List Char) (p q : Parser)
  | many (p : Parser)
  | manyChars (p : Parser)
  | chainl (p separator : Parser) (f : Value → Value → Value → Except Fault Value)
  | traced (p : Parser) (name : String)

namespace Parser

/-! ## Primitive parsers -/

def success (v : Value) : Parser := primitive (.success v)
def failure : Parser := primitive .failure
def anyChar : Parser := primitive .anyChar
def endOfText : Parser := primitive .endOfText
def endOfLine : Parser := primitive .endOfLine
def indent : Parser := primitive .indent
def dedent : Parser := primitive .dedent
def leadingTabs : Parser := primitive .leadingTabs

/-- One of the characters; yields its first index, or what `table` makes of it. -/
def oneOf (chars : String)
    (table : Nat → Except Fault Value := fun index => .ok (.int index)) : Parser :=
  primitive (.oneOf chars.toList table)

def oneOfMapped (chars : String) (entries : List Value) : Parser :=
  primitive (.oneOfMapped chars.toList entries)

def satisfy (test : CharTest) : Parser := primitive (.satisfy test.toCheck)
def takeWhile (test : CharTest) : Parser := primitive (.takeWhile test.toCheck)
def skipWhile (test : CharTest) : Parser := primitive (.skipWhile test.toCheck)
def literal (chars : String) : Parser := primitive (.literal chars.toList)

/-- The longest run of the characters; yields its text. -/
def stringOf (chars : String) : Parser :=
  takeWhile fun code _ => chars.toList.any fun c => c.toNat = code

/-- Any amount of white space; yields its length. -/
def whitespace : Parser := skipWhile fun code _ => CodePoint.isWhitespace code

/-! ## Composed parsers -/

def discard (p : Parser) : Parser := p.replace .null

def firstOf (alternatives : List Parser) : Parser := alternatives.foldr orElse failure

/-- Looks at the next character and goes on with `p`, whatever it is. -/
def peeked (p : Parser) : Parser := branch [] failure p

/-- The last of the cases that claims the next character; `default` where none
does. The next character is looked at even if there are no cases. -/
def dispatch (default : Option Parser) (cases : List (String × Parser)) : Parser :=
  cases.foldl (fun rest case => branch case.1.toList case.2 rest)
    (peeked (default.getD failure))

/-! ## Meaning -/

/-- What a parser does, given what its forwards do and how many rounds a loop
may take. -/
def matcher (rounds : Nat) (call : Nat → Matcher) : Parser → Matcher
  | primitive leaf => leaf.matcher
  | native run => run
  | forward id => call id
  | replace p v => (p.matcher rounds call).replace v
  | map p f => (p.matcher rounds call).map f
  | withDefault p default => (p.matcher rounds call).withDefault default
  | filter p accepts => (p.matcher rounds call).filter accepts
  | atLeast p n => (p.matcher rounds call).atLeast n
  | butNot p excluded => (p.matcher rounds call).butNot (excluded.matcher rounds call)
  | seqLeft p q => (p.matcher rounds call).seqLeft (q.matcher rounds call)
  | seqRight p q => (p.matcher rounds call).seqRight (q.matcher rounds call)
  | enclosed p opening closing =>
    (p.matcher rounds call).enclosed (opening.matcher rounds call) (closing.matcher rounds call)
  | pair p q => (p.matcher rounds call).pair (q.matcher rounds call)
  | triple p q t =>
    (p.matcher rounds call).triple (q.matcher rounds call) (t.matcher rounds call)
  | orElse p q => (p.matcher rounds call).orElse (q.matcher rounds call)
  | branch chars p q => Matcher.branch chars (p.matcher rounds call) (q.matcher rounds call)
  | many p => (p.matcher rounds call).many rounds
  | manyChars p => (p.matcher rounds call).manyChars rounds
  | chainl p separator f =>
    (p.matcher rounds call).chainl (separator.matcher rounds call) f rounds
  | traced p name => (p.matcher rounds call).traced name

end Parser
end Parlance
