import Parlance.Text.Quoted
import Parlance.Text.Similar

/-! # Command lines

A command line is options and arguments. An option is a word behind two hyphens
or a letter behind one, and letters may share a hyphen. `--` ends the options;
a hyphen alone is an argument. In front of the name of a command the first
argument ends the options as well; behind it they may stand in any order. A word
or a command that does not exist is answered with the closest that do. -/
namespace Parlance.Command

inductive UsageError where
  | noSuchOption (name : String) (suggestions : List String)
  | takesNoValue (name : String)
  | extraArguments (args : List String)
  | missingExpression
  | noSuchCommand (name : String) (suggestions : List String)
  | missingCommand
deriving DecidableEq

def suggestions (word : String) (known : List String) : List String := Text.closest 3 word known

def didYouMean : List String → String
  | [] => ""
  | [word] => " Did you mean " ++ Text.quoted word ++ "?"
  | words => " (Did you mean one of: " ++ ", ".intercalate (words.map Text.quoted) ++ "?)"

def UsageError.message : UsageError → String
  | noSuchOption name near => "No such option " ++ Text.quoted name ++ "." ++ didYouMean near
  | takesNoValue name => "Option " ++ Text.quoted name ++ " does not take a value."
  | extraArguments args =>
    "Got unexpected extra argument" ++ (if args.length = 1 then "" else "s") ++
      " (" ++ " ".intercalate args ++ ")"
  | missingExpression => "missing EXPRESSION (or pass --stdin)"
  | noSuchCommand name near => "No such command " ++ Text.quoted name ++ "." ++ didYouMean near
  | missingCommand => "Missing command."

/-- Is the error shown below the usage? A value for an option that takes none is
not: the option itself is known, so the usage would tell nothing new. -/
def UsageError.showsUsage : UsageError → Bool
  | takesNoValue _ => false
  | _ => true

structure OptionTable (α : Type) where
  words : List (String × α)
  letters : List (Char × α)

def looksLikeOption (arg : String) : Bool := arg.startsWith "-" && arg ≠ "-"

/-- The options that letters behind one hyphen stand for. Nothing is suggested for
a letter. -/
def readLetters {α : Type} (table : OptionTable α) : List Char → Except UsageError (List α)
  | [] => .ok []
  | c :: cs =>
    match table.letters.lookup c with
    | none => .error (.noSuchOption (String.ofList ['-', c]) [])
    | some option => do return option :: (← readLetters table cs)

def readOption {α : Type} (table : OptionTable α) (arg : String) : Except UsageError (List α) :=
  let chars := arg.toList
  let word := String.ofList (chars.takeWhile (· ≠ '='))
  match table.words.lookup word with
  | some option => if '=' ∈ chars then .error (.takesNoValue word) else .ok [option]
  | none =>
    if arg.startsWith "--" then
      .error (.noSuchOption word (suggestions word (table.words.map Prod.fst)))
    else readLetters table (chars.drop 1)

/-- The options of a command line in their order, and its arguments. Unless they
may be mixed, the first argument ends the options. -/
def readLine {α : Type} (table : OptionTable α) (mixed : Bool) :
    List String → Except UsageError (List α × List String)
  | [] => .ok ([], [])
  | arg :: rest =>
    if arg = "--" then .ok ([], rest)
    else if looksLikeOption arg then do
      let options ← readOption table arg
      let (later, args) ← readLine table mixed rest
      return (options ++ later, args)
    else if mixed then do
      let (later, args) ← readLine table mixed rest
      return (later, arg :: args)
    else .ok ([], arg :: rest)

end Parlance.Command
