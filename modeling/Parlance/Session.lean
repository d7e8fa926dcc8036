import Parlance.Grammar
import Parlance.Outline

/-! # Sessions

A session is one history of operations: creating and defining forwards, naming
parsers, running them on a current cursor, and moving that cursor by hand. A step
that ends in a fault is reported and the session goes on, with the cursor where
the fault left it.

A name may be bound anew; parsers that were built with the earlier meaning keep
it, because a parser holds the parsers it was built from. -/
namespace Parlance

/-- The state between two steps. -/
structure Session where
  cursor : Cursor
  names : List (String × Parser)
  forwards : Forwards
  marks : Array Mark

inductive Step where
  /-- Starts anew on a text. -/
  | restart (text : String)
  /-- Names a parser. -/
  | assign (name : String) (p : Parser)
  /-- Names a fresh forward. -/
  | create (name : String)
  /-- Defines the forward of this name. -/
  | define (name : String) (p : Parser)
  /-- Is the forward of this name defined? -/
  | isDefined (name : String)
  /-- Names a fresh grammar of expressions. -/
  | buildGrammar (name : String) (comparisons : Bool)
  /-- Runs a parser on the current cursor. -/
  | parse (p : Parser)
  /-- Runs a parser on a text of its own. -/
  | parseText (p : Parser) (text : String)
  /-- Marks the cursor. -/
  | mark
  /-- Returns to one of the marks; a negative index counts from the last. -/
  | rewind (index : Int)
  /-- Moves to a position, whether there is a character or not. -/
  | moveTo (position : Int)
  | increaseIndent
  | decreaseIndent
  | atEnd
  /-- The next code point. -/
  | nextCode
  /-- The text that is left. -/
  | remainder
  /-- Describes the cursor. -/
  | describe
  | takeRun (test : CharTest)
  | skipRun (test : CharTest)
  | succeed (v : Value)
  | fail

inductive Answer where
  | done
  | reply (r : Reply)
  | flag (b : Bool)
  | count (n : Nat)
  | code (c : Option Nat)
  | text (s : String)
  | mark (m : Mark)

/-- A step's answer or fault, the state after it, and the lines it logged. -/
structure Report where
  answer : Except Fault Answer
  session : Session
  log : List String := []

/-! ## Lines of the log -/

def Phase.label : Phase → String
  | entered => "begin"
  | succeeded => "success"
  | failed => "failed"

def Record.line (r : Record) : String :=
  "DEBUG mpc.core: " ++ r.name ++ ": " ++ r.phase.label ++ " at " ++ intText r.position

def builtLine (comparisons : Bool) : String :=
  "DEBUG mpc.grammar: built expression grammar (comparisons=" ++
    (if comparisons then "True" else "False") ++ ")"

namespace Session

/-- A session on a text, with the two grammars of expressions. -/
def start (text : String) : Session := ⟨.ofText text, [], Grammar.builtin, .empty⟩

def named? (s : Session) (name : String) : Option Parser := s.names.lookup name

def bindName (s : Session) (name : String) (p : Parser) : Session :=
  { s with names := (name, p) :: s.names }

/-- The forward that a name stands for; nothing else can be asked this. -/
def forward (s : Session) (request : ForwardRequest) (name : String) : Except Fault Nat :=
  match s.named? name with
  | some (.forward id) => .ok id
  | some _ => .error (.notForward request)
  | none => .error .unnamed

/-- The budget of a run on a text: four hundred open forwards, and far more rounds
than a loop that consumes input can take. -/
def budget (c : Cursor) : Budget := ⟨400, 2 * c.text.size + 100000⟩

def runOn (s : Session) (p : Parser) (c : Cursor) : Outcome Reply :=
  p.run s.forwards (budget c) c

def describe (c : Cursor) : String :=
  "ParserState(position=" ++ intText c.position ++ ", indent=" ++ intText c.indent ++ ")"

def answering (s : Session) (a : Answer) : Report := { answer := .ok a, session := s }

def moving (s : Session) (c : Cursor) (a : Answer := .done) : Report :=
  { answer := .ok a, session := { s with cursor := c } }

def refusing (s : Session) (fault : Fault) : Report := { answer := .error fault, session := s }

def reporting {α : Type} (s : Session) (o : Outcome α) (answer : α → Answer) : Report :=
  { answer := o.exit.map answer
    session := { s with cursor := o.cursor }
    log := o.trace.map Record.line }

def defining (s : Session) (name : String) (p : Parser) : Report :=
  match s.forward .define name with
  | .error fault => s.refusing fault
  | .ok id =>
    match s.forwards.define id p with
    | .ok fs => { answer := .ok .done, session := { s with forwards := fs } }
    | .error fault => s.refusing (.grammar fault)

def perform (s : Session) : Step → Report
  | .restart text => s.moving (.ofText text)
  | .assign name p => (s.bindName name p).answering .done
  | .create name =>
    let (id, fs) := s.forwards.create
    ({ s with forwards := fs }.bindName name (.forward id)).answering .done
  | .define name p => s.defining name p
  | .isDefined name =>
    match s.forward .isDefined name with
    | .ok id => s.answering (.flag (s.forwards.isDefined id))
    | .error fault => s.refusing fault
  | .buildGrammar name comparisons =>
    let (p, fs) := Grammar.build s.forwards comparisons
    { answer := .ok .done
      session := { s with forwards := fs }.bindName name p
      log := [builtLine comparisons] }
  | .parse p => s.reporting (s.runOn p s.cursor) .reply
  | .parseText p text =>
    let r := s.reporting (s.runOn p (.ofText text)) .reply
    { r with session := s }
  | .mark =>
    let m := s.cursor.mark
    { s with marks := s.marks.push m }.answering (.mark m)
  | .rewind index =>
    match elementAt? s.marks index with
    | some m => s.moving (s.cursor.rewind m)
    | none => s.refusing .noMark
  | .moveTo position => s.moving { s.cursor with position := position }
  | .increaseIndent => s.moving s.cursor.increaseIndent
  | .decreaseIndent =>
    match s.cursor.decreaseIndent? with
    | some c => s.moving c (.flag true)
    | none => s.answering (.flag false)
  | .atEnd => s.answering (.flag s.cursor.atEnd)
  | .nextCode => s.reporting (Action.peek.run s.cursor) fun c => .code (c.map Char.toNat)
  | .remainder => s.answering (.text (String.ofList s.cursor.rest))
  | .describe => s.answering (.text (describe s.cursor))
  | .takeRun test =>
    s.reporting ((Matcher.takeRun test.toCheck).run s.cursor) fun chars => .text (String.ofList chars)
  | .skipRun test => s.reporting ((Matcher.skipRun test.toCheck).run s.cursor) .count
  | .succeed v => s.reporting ((Matcher.succeed v).run s.cursor) .reply
  | .fail => s.reporting (Matcher.fail.run s.cursor) .reply

end Session
end Parlance
