import Parlance.Toml.Basic

/-! # TOML documents under construction

A document is a tree of tables that its statements extend. What may be extended
depends on how a table came about:

* a table named by a header is *declared* and no header may name it again;
* a table that only leads to another one is *implicit* and may still be declared;
* a table made by a dotted key is open to further dotted keys of the same
  section, and counts as declared in all later sections;
* the tables of an array of tables are opened one after another, the last one
  is the one that keys lead into;
* a value, an inline table or array included, is never extended.

Sections are numbered; each header starts a new one. -/
namespace Parlance.Toml

/-- How a table came about. -/
inductive Status where
  | implicit
  | declared
  | dotted (sectionId : Nat)
deriving DecidableEq

/-- May a dotted key of this section extend a table that came about so? -/
def Status.isOpen (sectionId : Nat) : Status → Bool
  | implicit => true
  | declared => false
  | dotted other => other = sectionId

/-- A part of a document under construction. -/
inductive Node where
  | leaf (v : Toml)
  | table (status : Status) (entries : List (String × Node))
  /-- An array of tables: the finished ones, and the entries of the last. -/
  | tables (finished : List Toml) (entries : List (String × Node))

abbrev Entries := List (String × Node)

namespace Node

mutual

def finish : Node → Toml
  | leaf v => v
  | table _ entries => .table (finishAll entries)
  | tables finished entries => .array (finished ++ [.table (finishAll entries)])

def finishAll : List (String × Node) → List (String × Toml)
  | [] => []
  | (key, node) :: rest => (key, finish node) :: finishAll rest

end

end Node

namespace Entries

def get? (es : Entries) (key : String) : Option Node := es.lookup key

/-- Puts a node under a key, at its place if the key is there already. -/
def put (key : String) (node : Node) : Entries → Entries
  | [] => [(key, node)]
  | (key', node') :: rest =>
    if key = key' then (key, node) :: rest else (key', node') :: put key node rest

/-- Changes the table that a path of keys leads to, creating implicit tables on
the way and entering the last table of an array of tables. -/
def within (change : Entries → Option Entries) : List String → Entries → Option Entries
  | [], es => change es
  | key :: path, es =>
    match es.get? key with
    | none => do return es.put key (.table .implicit (← within change path []))
    | some (.table status inner) => do
      return es.put key (.table status (← within change path inner))
    | some (.tables finished inner) => do
      return es.put key (.tables finished (← within change path inner))
    | some (.leaf _) => none

def declareHere (key : String) (es : Entries) : Option Entries :=
  match es.get? key with
  | none => some (es.put key (.table .declared []))
  | some (.table .implicit inner) => some (es.put key (.table .declared inner))
  | some _ => none

/-- Starts one more table in the array of tables under a key. -/
def appendHere (key : String) (es : Entries) : Option Entries :=
  match es.get? key with
  | none => some (es.put key (.tables [] []))
  | some (.tables finished inner) =>
    some (es.put key (.tables (finished ++ [.table (Node.finishAll inner)]) []))
  | some _ => none

/-- Assigns a value to a dotted key, in a given section. -/
def assign (sectionId : Nat) (v : Toml) : List String → Entries → Option Entries
  | [], _ => none
  | [key], es =>
    match es.get? key with
    | none => some (es.put key (.leaf v))
    | some _ => none
  | key :: path, es =>
    match es.get? key with
    | none => do return es.put key (.table (.dotted sectionId) (← assign sectionId v path []))
    | some (.table status inner) =>
      if status.isOpen sectionId then do
        return es.put key (.table (.dotted sectionId) (← assign sectionId v path inner))
      else none
    | some _ => none

def declare (path : List String) (es : Entries) : Option Entries :=
  match path.getLast? with
  | none => none
  | some key => within (declareHere key) path.dropLast es

def append (path : List String) (es : Entries) : Option Entries :=
  match path.getLast? with
  | none => none
  | some key => within (appendHere key) path.dropLast es

end Entries
end Parlance.Toml
