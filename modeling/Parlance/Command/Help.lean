import Parlance.Command.Line

/-! # Help texts

What the command and its subcommands print about themselves. -/
namespace Parlance.Command

inductive Name where
  | parse
  | view
deriving DecidableEq

namespace Name

def label : Name → String
  | parse => "parse"
  | view => "view"

def all : List Name := [parse, view]

def ofLabel? (word : String) : Option Name := all.find? fun n => n.label = word

def summary : Name → String
  | parse => "Parse EXPRESSION and print it fully parenthesized."
  | view => "View the AST of EXPRESSION."

def called (n : Name) : String := "mpc " ++ n.label

def usage (n : Name) : String := "Usage: " ++ n.called ++ " [OPTIONS] [EXPRESSION]"

def help (n : Name) : String :=
  n.usage ++ "\n\n  " ++ n.summary ++ "\n\nOptions:\n" ++
    "  --basic     Disable = and <> comparisons.\n" ++
    "  --partial   Accept a valid prefix of the input.\n" ++
    "  --no-color  Plain diagnostics without ANSI colors.\n" ++
    "  --stdin     Read the expression from stdin.\n" ++
    "  --help      Show this message and exit.\n"

end Name

def groupUsage : String := "Usage: mpc [OPTIONS] COMMAND [ARGS]..."

def groupHelp : String :=
  groupUsage ++ "\n\n  Parse arithmetic expressions with monadic parser combinators.\n\n" ++
    "Options:\n" ++
    "  --version      Show the version and exit.\n" ++
    "  -v, --verbose  Enable debug logging.\n" ++
    "  --help         Show this message and exit.\n\n" ++
    "Commands:\n" ++
    "  parse  " ++ Name.parse.summary ++ "\n" ++
    "  view   " ++ Name.view.summary ++ "\n"

def versionLine : String := "mpc, version 0.1.0\n"

/-- What is printed about a usage error: the usage and where to find help, if the
error calls for them, and the error. -/
def usageText (usage called : String) (e : UsageError) : String :=
  (if e.showsUsage then usage ++ "\nTry '" ++ called ++ " --help' for help.\n\n" else "") ++
    "Error: " ++ e.message ++ "\n"

end Parlance.Command
