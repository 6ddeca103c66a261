/-!
# TOML values

A document is a table of values. Tables come about in four ways, and only some
of them may be extended later on: a table that a header names is complete once
its entries are read, one that lies on the way to such a table may still get a
header of its own, one that a dotted key makes may be extended by dotted keys,
and an inline table is closed. No key is ever given twice.
-/

namespace ProviderMigration.Toml

/-- How a table came about. -/
inductive Origin where
  | header
  | implied
  | dotted
  | inline
  deriving DecidableEq, Repr

inductive Value where
  | string (text : String)
  | integer (number : Int)
  | boolean (value : Bool)
  /-- A number that is no integer. -/
  | float
  /-- A date, a time, or both. -/
  | moment
  | array (items : List Value)
  | table (origin : Origin) (entries : List (String × Value))
  /-- Tables under one header, the last one apart. -/
  | tables (earlier : List Value) (last : List (String × Value))

/-- Keys with their values, in the order in which they are given. -/
abbrev Table := List (String × Value)

namespace Table

/-- Exchanges the value of a key that is there. -/
def exchange (table : Table) (key : String) (value : Value) : Table :=
  table.map fun entry => if entry.1 = key then (key, value) else entry

/-- The table with an edit made where `path` leads. The edit is told whether it
gets to a table that dotted keys made. Tables that are missing on the way are
made, either by dotted keys or by a header. -/
def editAt (byDottedKey : Bool) (edit : Bool → Table → Option Table) (isDotted : Bool) :
    List String → Table → Option Table
  | [], table => edit isDotted table
  | key :: path, table =>
      match table.lookup key with
      | none => do
          let inner ← editAt byDottedKey edit byDottedKey path []
          let origin : Origin := if byDottedKey then .dotted else .implied
          return table ++ [(key, .table origin inner)]
      | some (.table origin inner) =>
          if origin = .inline ∨ (byDottedKey ∧ origin = .header) then none
          else do
            let inner ← editAt byDottedKey edit (origin = .dotted) path inner
            return exchange table key (.table origin inner)
      | some (.tables earlier last) => do
          let last ← editAt byDottedKey edit false path last
          return exchange table key (.tables earlier last)
      | some _ => none

/-- The table with a value for a dotted key, which is split into the keys that
lead to its last one. -/
def assign (table : Table) (path : List String) (key : String) (value : Value) :
    Option Table :=
  editAt true
    (fun isDotted table =>
      if isDotted = path.isEmpty ∨ (table.lookup key).isSome then none
      else some (table ++ [(key, value)]))
    false path table

/-- The table with one more table that a header names. -/
def addTable (table : Table) (path : List String) (key : String) : Option Table :=
  editAt false
    (fun _ table =>
      match table.lookup key with
      | none => some (table ++ [(key, .table .header [])])
      | some (.table .implied entries) => some (exchange table key (.table .header entries))
      | some _ => none)
    false path table

/-- The table with one more table in an array of tables. -/
def addToTables (table : Table) (path : List String) (key : String) : Option Table :=
  editAt false
    (fun _ table =>
      match table.lookup key with
      | none => some (table ++ [(key, .tables [] [])])
      | some (.tables earlier last) =>
          some (exchange table key (.tables (earlier ++ [.table .header last]) []))
      | some _ => none)
    false path table

end Table

end ProviderMigration.Toml
