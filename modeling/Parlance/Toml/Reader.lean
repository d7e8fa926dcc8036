import Parlance.Toml.Document
import Parlance.Toml.Scalar

/-! # Reading TOML

A document is a list of statements, one to a line: an assignment, the header of
a table, or the header of one more table in an array of tables. A carriage
return in front of a line feed is dropped beforehand. -/
namespace Parlance.Toml

def orMalformed {α : Type} : Option α → Except Error α
  | some a => .ok a
  | none => .error .malformed

mutual

/-- A value; `fuel` bounds the nesting and the number of members. -/
def readValue : Nat → List Char → Except Error (Toml × List Char)
  | 0, _ => .error .malformed
  | fuel + 1, cs =>
    match cs with
    | '"' :: _ | '\'' :: _ => do
      let (chars, rest) ← readText cs
      return (.text (String.ofList chars), rest)
    | 't' :: 'r' :: 'u' :: 'e' :: rest => .ok (.bool true, rest)
    | 'f' :: 'a' :: 'l' :: 's' :: 'e' :: rest => .ok (.bool false, rest)
    | '[' :: rest => do
      let (items, rest) ← readItems fuel (← skipGapsAndComments rest.length rest)
      return (.array items, rest)
    | '{' :: rest => do
      match skipGap rest with
      | '}' :: rest => return (.table [], rest)
      | rest => do
        let (entries, rest) ← readMembers fuel [] rest
        return (.table (Node.finishAll entries), rest)
    | _ => readScalar cs

def readItems : Nat → List Char → Except Error (List Toml × List Char)
  | 0, _ => .error .malformed
  | fuel + 1, cs =>
    match cs with
    | ']' :: rest => .ok ([], rest)
    | _ => do
      let (item, rest) ← readValue fuel cs
      match ← skipGapsAndComments rest.length rest with
      | ']' :: rest => return ([item], rest)
      | ',' :: rest => do
        let (items, rest) ← readItems fuel (← skipGapsAndComments rest.length rest)
        return (item :: items, rest)
      | _ => throw .malformed

def readMembers : Nat → Entries → List Char → Except Error (Entries × List Char)
  | 0, _, _ => .error .malformed
  | fuel + 1, entries, cs => do
    let (key, rest) ← readKey (cs.length + 1) cs
    match rest with
    | '=' :: rest => do
      let (value, rest) ← readValue fuel (skipGap rest)
      let entries ← orMalformed (entries.assign 0 value key)
      match skipGap rest with
      | '}' :: rest => return (entries, rest)
      | ',' :: rest => readMembers fuel entries (skipGap rest)
      | _ => throw .malformed
    | _ => throw .malformed

end

/-! ## Statements -/

structure Draft where
  entries : Entries := []
  /-- The table that assignments go to. -/
  header : List String := []
  /-- The number of headers so far. -/
  sectionId : Nat := 0

def readHeaderKey (cs : List Char) : Except Error (List String × List Char) :=
  readKey (cs.length + 1) (skipGap cs)

def readStatement (draft : Draft) (cs : List Char) : Except Error (Draft × List Char) :=
  match cs with
  | '[' :: '[' :: cs => do
    let (key, rest) ← readHeaderKey cs
    let entries ← orMalformed (draft.entries.append key)
    match rest with
    | ']' :: ']' :: rest =>
      return ({ entries := entries, header := key, sectionId := draft.sectionId + 1 }, skipGap rest)
    | _ => throw .malformed
  | '[' :: cs => do
    let (key, rest) ← readHeaderKey cs
    let entries ← orMalformed (draft.entries.declare key)
    match rest with
    | ']' :: rest =>
      return ({ entries := entries, header := key, sectionId := draft.sectionId + 1 }, skipGap rest)
    | _ => throw .malformed
  | _ => do
    let (key, rest) ← readKey (cs.length + 1) cs
    match rest with
    | '=' :: rest => do
      let (value, rest) ← readValue (2 * rest.length + 2) (skipGap rest)
      let entries ← orMalformed
        (draft.entries.within (Entries.assign draft.sectionId value key) draft.header)
      return ({ draft with entries := entries }, skipGap rest)
    | _ => throw .malformed

/-- Reads the lines of a document, at most `fuel` of them. -/
def readLines : Nat → Draft → List Char → Except Error Draft
  | 0, draft, _ => .ok draft
  | fuel + 1, draft, cs =>
    match skipGap cs with
    | [] => .ok draft
    | '\n' :: rest => readLines fuel draft rest
    | cs => do
      let (draft, rest) ← (match cs with
        | '#' :: _ => .ok (draft, cs)
        | _ => readStatement draft cs : Except Error (Draft × List Char))
      match ← skipComment rest with
      | [] => return draft
      | '\n' :: rest => readLines fuel draft rest
      | _ => throw .malformed

/-- Drops the carriage returns in front of line feeds; any other is kept. -/
def joinLineEnds : List Char → List Char
  | '\r' :: '\n' :: cs => '\n' :: joinLineEnds cs
  | c :: cs => c :: joinLineEnds cs
  | [] => []

def read (text : String) : Except Error (List (String × Toml)) := do
  let cs := joinLineEnds text.toList
  let draft ← readLines (cs.length + 1) {} cs
  return Node.finishAll draft.entries

end Parlance.Toml
