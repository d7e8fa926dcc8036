import Parlance.FileTree
import Parlance.Toml.Reader

/-! # Configuration

The configuration is a TOML file that is looked for in a directory and in those
above it; the nearest one counts, and without one every setting is on. A setting
is whatever value the file holds for it, and counts as on when that value is
truthy. -/
namespace Parlance

structure Config where
  comparisons : Toml := .bool true
  requireEnd : Toml := .bool true
  color : Toml := .bool true

inductive ConfigError where
  /-- No directory on the way up has a configuration file. -/
  | notFound
  /-- The file cannot be opened. -/
  | unreadable (cause : OpenError)
  /-- The file is no text. -/
  | notText
  /-- The text is no TOML document. -/
  | notToml (cause : Toml.Error)
  /-- A section is a value of this kind and no table. -/
  | notTable (kind : String)
deriving DecidableEq

namespace ConfigError

def message? : ConfigError → Option String
  | notFound => some "No mpc.toml found in any parent directory"
  | notTable kind => some ("'" ++ kind ++ "' object has no attribute 'get'")
  | _ => none

def isMissing : ConfigError → Bool
  | notFound => true
  | unreadable .missing => true
  | _ => false

end ConfigError

namespace Config

def fileName : String := "mpc.toml"

/-! ## Looking for the file -/

/-- Looks in the directory with these names, the innermost first, and then in
those above it. -/
def climb (t : FileTree) : List String → Option Path
  | [] => if t.contains [fileName] then some [fileName] else none
  | name :: above =>
    let candidate := (name :: above).reverse ++ [fileName]
    if t.contains candidate then some candidate else climb t above

/-- The nearest configuration file, seen from a directory or from a file in it. -/
def locate (t : FileTree) (start : Path) : Except ConfigError Path :=
  let directory := if t.isFile start then start.dropLast else start
  match climb t directory.reverse with
  | some path => .ok path
  | none => .error .notFound

/-! ## Reading the file -/

/-- A setting of a document; on where the section or the key is absent. -/
def setting (document : List (String × Toml)) (table key : String) : Except ConfigError Toml :=
  match document.lookup table with
  | none => .ok (.bool true)
  | some (.table entries) => .ok ((entries.lookup key).getD (.bool true))
  | some v => .error (.notTable v.kind)

def ofDocument (document : List (String × Toml)) : Except ConfigError Config := do
  let comparisons ← setting document "grammar" "comparisons"
  let requireEnd ← setting document "parse" "require_end"
  let color ← setting document "output" "color"
  return { comparisons, requireEnd, color }

def ofBytes (content : ByteArray) : Except ConfigError Config :=
  match String.fromUTF8? content with
  | none => .error .notText
  | some text =>
    match Toml.read text with
    | .error cause => .error (.notToml cause)
    | .ok document => ofDocument document

def read (t : FileTree) (start : Path) (names : List String) : Except ConfigError Config :=
  match t.readFile start names with
  | .error cause => .error (.unreadable cause)
  | .ok content => ofBytes content

/-- The settings of the nearest configuration file; all on where there is none. -/
def nearest (t : FileTree) (start : Path) : Except ConfigError Config :=
  match (locate t start).bind (read t []) with
  | .ok config => .ok config
  | .error e => if e.isMissing then .ok {} else .error e

end Config
end Parlance
