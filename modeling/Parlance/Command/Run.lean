import Parlance.Command.Help
import Parlance.Config
import Parlance.Grammar
import Parlance.Outline
import Parlance.Text.Blank
import Parlance.Text.Stream

/-! # The command

`parse` prints an expression with all its parentheses, `view` prints the outline
of its tree. The source is stripped of blanks at its ends and parsed as the
configuration and the options say; options only switch things off. A source that
is no expression gives an error and exit code 1; what is left over after a valid
prefix gives a warning. -/
namespace Parlance.Command

/-- What a run of the command can see. -/
structure World where
  files : FileTree := .empty
  directory : Path := []
  input : String := ""
  /-- Is standard output shown on a terminal? -/
  stdoutTerminal : Bool := false
  /-- Is standard error? -/
  stderrTerminal : Bool := false

structure Ending where
  exitCode : Nat
  stdout : String := ""
  stderr : String := ""
  /-- The error that escaped, if one did. -/
  crash : Option ConfigError := none

/-! ## Parsing a source -/

/-- The settings of a run, as truth values. -/
structure Settings where
  comparisons : Bool := true
  requireEnd : Bool := true
  color : Bool := true

def Settings.ofConfig (config : Config) : Settings :=
  ⟨config.comparisons.isTruthy, config.requireEnd.isTruthy, config.color.isTruthy⟩

def diagnosticLine (s : Settings) (d : Diagnostic) : String := d.render s.color ++ "\n"

def leftover (rest : List Char) : Diagnostic :=
  { severity := .warning
    code := "W100"
    message := "unparsed input: " ++ Text.quoted (String.ofList rest) }

/-- What a subcommand prints for a tree. -/
def display : Name → Expression → String
  | .parse, e => e.toText ++ "\n"
  | .view, e => (Value.expression e).outlineText 0

/-- The ending of a subcommand on a source. -/
def onSource (n : Name) (s : Settings) (source : String) : Ending :=
  let text := Text.strip source.toList
  let reply := Grammar.parse (String.ofList text) ⟨s.comparisons, s.requireEnd⟩
  match Grammar.treeOrInvalid reply with
  | .error e =>
    { exitCode := 1, stderr := String.join (e.diagnostics.map (diagnosticLine s)) }
  | .ok e =>
    let rest := text.drop reply.position.toNat
    { exitCode := 0
      stdout := display n e
      stderr := if rest.isEmpty then "" else diagnosticLine s (leftover rest) }

/-! ## Subcommands -/

inductive SubOption where
  | basic
  | prefixOnly
  | noColor
  | stdin
  | help
deriving DecidableEq

def subTable : OptionTable SubOption where
  words := [("--basic", .basic), ("--partial", .prefixOnly), ("--no-color", .noColor),
    ("--stdin", .stdin), ("--help", .help)]
  letters := []

/-- Switches off what the options say. -/
def Settings.restrict (s : Settings) (options : List SubOption) : Settings :=
  { comparisons := s.comparisons && !options.contains .basic
    requireEnd := s.requireEnd && !options.contains .prefixOnly
    color := s.color && !options.contains .noColor }

/-- The text to parse: standard input if an option says so, else the argument. -/
def source? (w : World) (options : List SubOption) (arg : Option String) : Option String :=
  if options.contains .stdin then
    some (String.ofList (Text.normalizeLineEnds w.input.toList))
  else arg

def misuse (usage called : String) (e : UsageError) : Ending :=
  { exitCode := 2, stderr := usageText usage called e }

/-- Runs a subcommand whose options and first argument have been read. -/
def execute (w : World) (n : Name) (options : List SubOption) (arg : Option String) : Ending :=
  match Config.nearest w.files w.directory with
  | .error e => { exitCode := 1, crash := some e }
  | .ok config =>
    match source? w options arg with
    | none => misuse n.usage n.called .missingExpression
    | some source => onSource n ((Settings.ofConfig config).restrict options) source

def runSub (w : World) (n : Name) (line : List String) : Ending :=
  match readLine subTable true line with
  | .error e => misuse n.usage n.called e
  | .ok (options, args) =>
    if options.contains .help then { exitCode := 0, stdout := n.help }
    else
      match args with
      | [] => execute w n options none
      | [arg] => execute w n options (some arg)
      | _ :: extra => misuse n.usage n.called (.extraArguments extra)

/-! ## The whole command -/

inductive GroupOption where
  | version
  | verbose
  | help
deriving DecidableEq

def groupTable : OptionTable GroupOption where
  words := [("--version", .version), ("--verbose", .verbose), ("--help", .help)]
  letters := [('v', .verbose)]

/-- The ending that the first option for version or help brings about. -/
def announcement? : List GroupOption → Option Ending
  | [] => none
  | .version :: _ => some { exitCode := 0, stdout := versionLine }
  | .help :: _ => some { exitCode := 0, stdout := groupHelp }
  | .verbose :: rest => announcement? rest

/-- Reads the options of a command line and goes on with its arguments, unless an
option asks for version or help. -/
def withOptions (line : List String) (go : List String → Ending) : Ending :=
  match readLine groupTable false line with
  | .error e => misuse groupUsage "mpc" e
  | .ok (options, args) => (announcement? options).getD (go args)

/-- The ending for a name that is no subcommand. A name that looks like an option
is first read as one. -/
def unknownCommand (name : String) (args : List String) : Ending :=
  let near := suggestions name (Name.all.map Name.label)
  let unknown := misuse groupUsage "mpc" (.noSuchCommand name near)
  if looksLikeOption name then withOptions (name :: args) fun _ => unknown else unknown

def dispatch (w : World) : List String → Ending
  | [] => misuse groupUsage "mpc" .missingCommand
  | name :: args =>
    match Name.ofLabel? name with
    | some n => runSub w n args
    | none => unknownCommand name args

/-- The ending with its colours as they are. -/
def colored (w : World) : List String → Ending
  | [] => { exitCode := 2, stderr := groupHelp }
  | line => withOptions line (dispatch w)

/-- Runs the command on a command line. Colours reach terminals only. -/
def run (w : World) (line : List String) : Ending :=
  let ending := colored w line
  { ending with
    stdout := Text.written w.stdoutTerminal ending.stdout
    stderr := Text.written w.stderrTerminal ending.stderr }

end Parlance.Command
