/-! # Faults

A parser that does not match its input fails in the ordinary way; that is no
fault. A fault ends a run at once: the grammar was put together wrongly, a
callback raised, a value is no character or no number, the cursor stands before
the start of its text, or the run was cut short because it nested too deep or
would not end. -/
namespace Parlance

/-- The repetitions that need their body to consume input. -/
inductive Repetition where
  | many
  | manyChars
deriving DecidableEq

inductive GrammarFault where
  /-- The body of a repetition succeeded without consuming input. -/
  | notConsuming (repetition : Repetition)
  /-- A forward was run before it was defined. -/
  | undefined
  /-- A forward was defined a second time. -/
  | redefined
  /-- A forward was defined as itself. -/
  | selfDefinition
deriving DecidableEq

def Repetition.label : Repetition → String
  | many => "many"
  | manyChars => "many_string"

def GrammarFault.message : GrammarFault → String
  | notConsuming repetition =>
    repetition.label ++ "() applied to a parser that succeeded without consuming input"
  | undefined => "forward parser used before it was defined"
  | redefined => "forward parser is already defined"
  | selfDefinition => "forward parser cannot be defined as itself"

/-- What only forwards can be asked. -/
inductive ForwardRequest where
  | define
  | isDefined
deriving DecidableEq

def ForwardRequest.label : ForwardRequest → String
  | define => "define"
  | isDefined => "defined"

inductive Fault where
  /-- The grammar is wrong. -/
  | grammar (fault : GrammarFault)
  /-- A callback raised a fault of its own. -/
  | callback (label : String)
  /-- A value to be joined to a text is no integer. -/
  | notCode
  /-- An integer to be joined to a text is no code point. -/
  | codeRange
  /-- An integer to be joined to a text is no code point, and so far from being one
  that it does not fit a signed word of 32 bits. -/
  | codeWidth
  /-- A text without digits was to be read as a number. -/
  | noDigits
  /-- A character was looked for before the start of the text. -/
  | beforeStart
  /-- There is no mark of this number. -/
  | noMark
  /-- There is no parser of this name. -/
  | unnamed
  /-- A parser that is no forward was asked what only forwards can be asked. -/
  | notForward (request : ForwardRequest)
  /-- More forwards were open at once than the budget allows. -/
  | tooDeep
  /-- A loop took more rounds than the budget allows. -/
  | endless
deriving DecidableEq

/-- The text of a fault, where it has one of its own. -/
def Fault.message? : Fault → Option String
  | grammar fault => some fault.message
  | notForward request =>
    some ("'Parser' object has no attribute '" ++ request.label ++ "'")
  | _ => none

end Parlance
