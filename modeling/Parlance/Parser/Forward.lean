import Parlance.Parser.Basic

/-! # Forwards and runs

The definitions of the forwards are kept in a table. A forward is defined once;
after that nothing changes it, and every parser that holds it sees the
definition. A run has a budget: how many forwards may be open at once, and how
many rounds a loop may take. The budget is what makes a run end on grammars that
would recurse for ever. -/
namespace Parlance

/-- The forwards that have been created, each with its definition, if it has one. -/
structure Forwards where
  slots : Array (Option Parser)

namespace Forwards

def empty : Forwards := ⟨.empty⟩

def target? (fs : Forwards) (id : Nat) : Option Parser := (fs.slots[id]?).join

def isDefined (fs : Forwards) (id : Nat) : Bool := (fs.target? id).isSome

def create (fs : Forwards) : Nat × Forwards := (fs.slots.size, ⟨fs.slots.push none⟩)

def isForward (id : Nat) : Parser → Bool
  | .forward id' => id = id'
  | _ => false

/-- Defines a forward, once and not as itself. -/
def define (fs : Forwards) (id : Nat) (target : Parser) : Except GrammarFault Forwards :=
  if fs.isDefined id then .error .redefined
  else if isForward id target then .error .selfDefinition
  else .ok ⟨fs.slots.setIfInBounds id (some target)⟩

end Forwards

structure Budget where
  /-- How many forwards may be open at once. -/
  depth : Nat
  /-- How many rounds a loop may take. -/
  rounds : Nat

/-- Runs a forward with `depth` more forwards allowed below it, itself included. -/
def Forwards.call (fs : Forwards) (rounds : Nat) : Nat → Nat → Matcher
  | 0, id =>
    match fs.target? id with
    | none => Action.raise (.grammar .undefined)
    | some _ => Action.raise .tooDeep
  | depth + 1, id =>
    match fs.target? id with
    | none => Action.raise (.grammar .undefined)
    | some p => p.matcher rounds (fs.call rounds depth)

def Parser.run (p : Parser) (fs : Forwards) (budget : Budget) (c : Cursor) : Outcome Reply :=
  (p.matcher budget.rounds (fs.call budget.rounds budget.depth)).run c

end Parlance
