import Parlance.Cursor
import Parlance.Fault
import Parlance.Value

/-! # Actions

An action runs on a cursor. It ends with a result or with a fault, and in either
case leaves a cursor and a trace behind: a fault undoes nothing. Actions form a
monad; the trace of a sequence is the concatenation of the traces.

A *matcher* is an action whose result is a reply, success or failure with a value
and a position. Failure is a result like any other, and whether a failed matcher
has moved the cursor is up to the matcher. -/
namespace Parlance

/-- What a trace says about the run of a named parser. -/
inductive Phase where
  | entered
  | succeeded
  | failed
deriving DecidableEq

structure Record where
  name : String
  phase : Phase
  position : Int
deriving DecidableEq

/-- How a run ended: its exit, the cursor it left, and its trace. -/
@[ext]
structure Outcome (α : Type) where
  exit : Except Fault α
  cursor : Cursor
  trace : List Record

@[ext]
structure Action (α : Type) where
  run : Cursor → Outcome α

namespace Outcome

variable {α β : Type}

/-- The outcome with a trace in front of its own. -/
@[inline]
def after (o : Outcome α) (trace : List Record) : Outcome α :=
  ⟨o.exit, o.cursor, trace ++ o.trace⟩

/-- Goes on from an outcome with its result; a fault stays. -/
@[always_inline, inline]
def andThen (o : Outcome α) (f : α → Action β) : Outcome β :=
  match o with
  | ⟨.error fault, c, trace⟩ => ⟨.error fault, c, trace⟩
  | ⟨.ok a, c, trace⟩ => ((f a).run c).after trace

@[simp]
theorem after_mk (exit : Except Fault α) (c : Cursor) (trace trace' : List Record) :
    (⟨exit, c, trace'⟩ : Outcome α).after trace = ⟨exit, c, trace ++ trace'⟩ := rfl

@[simp]
theorem after_nil (o : Outcome α) : o.after [] = o := rfl

@[simp]
theorem after_after (o : Outcome α) (trace trace' : List Record) :
    (o.after trace).after trace' = o.after (trace' ++ trace) := by
  simp [after]

@[simp]
theorem andThen_ok (a : α) (c : Cursor) (trace : List Record) (f : α → Action β) :
    (⟨.ok a, c, trace⟩ : Outcome α).andThen f = ((f a).run c).after trace := rfl

@[simp]
theorem andThen_error (fault : Fault) (c : Cursor) (trace : List Record) (f : α → Action β) :
    (⟨.error fault, c, trace⟩ : Outcome α).andThen f = ⟨.error fault, c, trace⟩ := rfl

@[simp]
theorem andThen_after (o : Outcome α) (trace : List Record) (f : α → Action β) :
    (o.after trace).andThen f = (o.andThen f).after trace := by
  rcases o with ⟨_ | _, _, _⟩ <;> simp

@[simp]
theorem after_ite (b : Prop) [Decidable b] (o o' : Outcome α) (trace : List Record) :
    (if b then o else o').after trace = if b then o.after trace else o'.after trace := by
  split <;> rfl

@[simp]
theorem andThen_ite (b : Prop) [Decidable b] (o o' : Outcome α) (f : α → Action β) :
    (if b then o else o').andThen f = if b then o.andThen f else o'.andThen f := by
  split <;> rfl

end Outcome

namespace Action

variable {α β : Type}

@[always_inline]
instance : Monad Action where
  pure a := ⟨fun c => ⟨.ok a, c, []⟩⟩
  bind m f := ⟨fun c => (m.run c).andThen f⟩

def raise (fault : Fault) : Action α := ⟨fun c => ⟨.error fault, c, []⟩⟩

/-- The result of a callback, or its fault. -/
def lift (result : Except Fault α) : Action α := ⟨fun c => ⟨result, c, []⟩⟩

@[inline]
def look (view : Cursor → α) : Action α := ⟨fun c => ⟨.ok (view c), c, []⟩⟩

@[inline]
def move (change : Cursor → Cursor) : Action Unit := ⟨fun c => ⟨.ok (), change c, []⟩⟩

/-- Runs an action that looks at the text. Before the start of the text there is
nothing to look at, and that is a fault. -/
@[inline]
def inText (m : Action α) : Action α :=
  ⟨fun c => if c.isBeforeStart then ⟨.error .beforeStart, c, []⟩ else m.run c⟩

def peek : Action (Option Char) := inText (look Cursor.next?)

def record (name : String) (phase : Phase) : Action Unit :=
  ⟨fun c => ⟨.ok (), c, [⟨name, phase, c.position⟩]⟩⟩

/-! ## Runs of composed actions -/

@[simp]
theorem run_pure (a : α) (c : Cursor) : (pure a : Action α).run c = ⟨.ok a, c, []⟩ := rfl

@[simp]
theorem run_bind (m : Action α) (f : α → Action β) (c : Cursor) :
    (m >>= f).run c = (m.run c).andThen f := rfl

@[simp]
theorem run_raise (fault : Fault) (c : Cursor) :
    (raise fault : Action α).run c = ⟨.error fault, c, []⟩ := rfl

@[simp]
theorem run_lift (result : Except Fault α) (c : Cursor) :
    (lift result).run c = ⟨result, c, []⟩ := rfl

@[simp]
theorem run_look (view : Cursor → α) (c : Cursor) :
    (look view).run c = ⟨.ok (view c), c, []⟩ := rfl

@[simp]
theorem run_move (change : Cursor → Cursor) (c : Cursor) :
    (move change).run c = ⟨.ok (), change c, []⟩ := rfl

@[simp]
theorem run_inText (m : Action α) (c : Cursor) :
    (inText m).run c = if c.isBeforeStart then ⟨.error .beforeStart, c, []⟩ else m.run c := rfl

@[simp]
theorem run_peek (c : Cursor) :
    peek.run c = if c.isBeforeStart then ⟨.error .beforeStart, c, []⟩ else ⟨.ok c.next?, c, []⟩ :=
  rfl

@[simp]
theorem run_record (name : String) (phase : Phase) (c : Cursor) :
    (record name phase).run c = ⟨.ok (), c, [⟨name, phase, c.position⟩]⟩ := rfl

@[simp]
theorem run_ite (b : Prop) [Decidable b] (m n : Action α) (c : Cursor) :
    (if b then m else n).run c = if b then m.run c else n.run c := by
  split <;> rfl

instance : LawfulMonad Action := by
  refine LawfulMonad.mk' _ (fun x => ?_) (fun a f => ?_) (fun x f g => ?_)
  · ext1
    funext c
    change (x.run c).andThen (fun a => pure (id a)) = x.run c
    rcases x.run c with ⟨_ | _, _, _⟩ <;> simp
  · ext1
    funext c
    simp
  · ext1
    funext c
    rcases h : x.run c with ⟨_ | _, _, _⟩ <;> simp [h]

end Action

/-- What a parser answers: whether it matched, a value, and a position. -/
structure Reply where
  success : Bool
  value : Value
  position : Int

abbrev Matcher := Action Reply

namespace Matcher

def succeed (v : Value) : Matcher := Action.look fun c => ⟨true, v, c.position⟩

def fail : Matcher := Action.look fun c => ⟨false, .null, c.position⟩

/-- Returns to a mark and fails there. -/
def failAt (m : Mark) : Matcher := do
  Action.move (·.rewind m)
  fail

def succeedAt (m : Mark) (v : Value) : Matcher := do
  Action.move (·.rewind m)
  succeed v

@[simp]
theorem run_succeed (v : Value) (c : Cursor) :
    (succeed v).run c = ⟨.ok ⟨true, v, c.position⟩, c, []⟩ := rfl

@[simp]
theorem run_fail (c : Cursor) : fail.run c = ⟨.ok ⟨false, .null, c.position⟩, c, []⟩ := rfl

@[simp]
theorem run_failAt (m : Mark) (c : Cursor) :
    (failAt m).run c = ⟨.ok ⟨false, .null, m.position⟩, c.rewind m, []⟩ := rfl

@[simp]
theorem run_succeedAt (m : Mark) (v : Value) (c : Cursor) :
    (succeedAt m v).run c = ⟨.ok ⟨true, v, m.position⟩, c.rewind m, []⟩ := rfl

end Matcher
end Parlance
