/-!
# TOML documents

A document is a tree of tables. How a table came about decides what may still be added to it: a
table that a header named cannot be named again, one that dotted keys made cannot be named by a
header, and one that only stood on the way to another may still get a header of its own. Inline
tables and written-out arrays are values and stay as they are.
-/

namespace QueryPlanning.Toml

inductive Value
  | string (s : String)
  | integer (n : Int)
  | float (text : String)
  | boolean (b : Bool)
  | time (text : String)
  | array (items : List Value)
  | table (entries : List (String × Value))
  deriving Inhabited

/-- How a table came about. -/
inductive Origin
  | header
  | dotted
  | implied
  deriving DecidableEq

inductive Node
  | value (v : Value)
  | table (origin : Origin) (entries : List (String × Node))
  /-- An array of tables, the last one first. -/
  | tables (last : List (String × Node)) (earlier : List (List (String × Node)))

abbrev Entries := List (String × Node)

namespace Entries

def get? (es : Entries) (key : String) : Option Node := es.lookup key

/-- Replaces the entry of a key in its place, or adds one at the end. -/
def set (es : Entries) (key : String) (node : Node) : Entries :=
  match es with
  | [] => [(key, node)]
  | (k, n) :: rest => if k = key then (key, node) :: rest else (k, n) :: set rest key node

/-- Adds a value under a dotted key. Tables on the way must not have a header, and the one that
takes the value must have been made by dotted keys; the last table of an array can only be on the
way. -/
def insert? (value : Value) (es : Entries) : List String → Option Entries
  | [] => none
  | [key] =>
    match es.get? key with
    | some _ => none
    | none => some (es.set key (.value value))
  | key :: path =>
    match es.get? key with
    | none => do
      let inner ← insert? value [] path
      return es.set key (.table .dotted inner)
    | some (.table .header _) => none
    | some (.table origin inner) =>
      if origin = .implied ∧ path.length = 1 then none
      else do
        let inner ← insert? value inner path
        return es.set key (.table origin inner)
    | some (.tables last earlier) =>
      if path.length = 1 then none
      else do
        let last ← insert? value last path
        return es.set key (.tables last earlier)
    | some (.value _) => none

/-- Changes the table under a key path, which ends in the last table of an array. -/
def modify? (f : Entries → Option Entries) (es : Entries) : List String → Option Entries
  | [] => f es
  | key :: path =>
    match es.get? key with
    | some (.table origin inner) => do
      let inner ← modify? f inner path
      return es.set key (.table origin inner)
    | some (.tables last earlier) => do
      let last ← modify? f last path
      return es.set key (.tables last earlier)
    | _ => none

/-- Opens the table that a header names. -/
def openTable? (es : Entries) : List String → Option Entries
  | [] => none
  | [key] =>
    match es.get? key with
    | none => some (es.set key (.table .header []))
    | some (.table .implied inner) => some (es.set key (.table .header inner))
    | some _ => none
  | key :: path =>
    match es.get? key with
    | none => do
      let inner ← openTable? [] path
      return es.set key (.table .implied inner)
    | some (.table origin inner) => do
      let inner ← openTable? inner path
      return es.set key (.table origin inner)
    | some (.tables last earlier) => do
      let last ← openTable? last path
      return es.set key (.tables last earlier)
    | some (.value _) => none

/-- Opens a new table at the end of the array that a header names. -/
def openArray? (es : Entries) : List String → Option Entries
  | [] => none
  | [key] =>
    match es.get? key with
    | none => some (es.set key (.tables [] []))
    | some (.tables last earlier) => some (es.set key (.tables [] (last :: earlier)))
    | some _ => none
  | key :: path =>
    match es.get? key with
    | none => do
      let inner ← openArray? [] path
      return es.set key (.table .implied inner)
    | some (.table origin inner) => do
      let inner ← openArray? inner path
      return es.set key (.table origin inner)
    | some (.tables last earlier) => do
      let last ← openArray? last path
      return es.set key (.tables last earlier)
    | some (.value _) => none

end Entries

mutual

/-- The value that a part of a finished document stands for. -/
def Node.toValue : Node → Value
  | .value v => v
  | .table _ entries => .table (Node.entriesToValues entries)
  | .tables last earlier =>
    .array ((Node.tablesToValues earlier).reverse ++ [.table (Node.entriesToValues last)])

def Node.entriesToValues : List (String × Node) → List (String × Value)
  | [] => []
  | (key, node) :: rest => (key, node.toValue) :: Node.entriesToValues rest

def Node.tablesToValues : List (List (String × Node)) → List Value
  | [] => []
  | entries :: rest => .table (Node.entriesToValues entries) :: Node.tablesToValues rest

end

end QueryPlanning.Toml
