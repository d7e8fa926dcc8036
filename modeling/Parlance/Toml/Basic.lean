import Parlance.Double.Shortest

/-! # TOML values

What a TOML document holds: truth values, integers of any size, doubles, texts,
dates and times, arrays, and tables. -/
namespace Parlance

inductive Toml.Moment where
  | dateTime
  | date
  | time
deriving DecidableEq

/-- A TOML value. A moment is kept as it was written. -/
inductive Toml where
  | bool (b : Bool)
  | int (i : Int)
  | float (d : Double)
  | text (s : String)
  | moment (kind : Toml.Moment) (written : String)
  | array (items : List Toml)
  | table (entries : List (String × Toml))

namespace Toml

inductive Error where
  /-- It breaks the rules of the format. -/
  | malformed
  /-- It writes an integer with more decimal digits than are accepted. -/
  | integerTooLong
deriving DecidableEq

/-- Does the value count as true? Zero, the empty text, the empty array and the
empty table do not. -/
def isTruthy : Toml → Bool
  | bool b => b
  | int i => i ≠ 0
  | float d => d.magnitudeCode ≠ 0
  | text s => s ≠ ""
  | moment .. => true
  | array items => !items.isEmpty
  | table entries => !entries.isEmpty

def kind : Toml → String
  | bool _ => "bool"
  | int _ => "int"
  | float _ => "float"
  | text _ => "str"
  | moment .dateTime _ => "datetime.datetime"
  | moment .date _ => "datetime.date"
  | moment .time _ => "datetime.time"
  | array _ => "list"
  | table _ => "dict"

end Toml
end Parlance
