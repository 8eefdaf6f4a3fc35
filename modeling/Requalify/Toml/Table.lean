import Requalify.Data

/-!
Tables of a TOML document while it is read. A table is defined once: by its header, or by the dotted
keys of the table around it. A header may define a table that other headers have only passed through. A
path that comes to a list of tables goes on in the last of them.
-/

namespace Requalify.Toml

inductive Origin where
  /-- A header, or the document itself. -/
  | header
  /-- Headers of tables further inside. -/
  | passed
  /-- Dotted keys. -/
  | dotted
  deriving DecidableEq

inductive Node where
  | value (data : Data)
  | table (origin : Origin) (entries : List (String × Node))
  /-- A list of tables, latest first. -/
  | tables (elements : List (List (String × Node)))

structure Table where
  origin : Origin
  entries : List (String × Node)

namespace Table

def empty : Table := ⟨.header, []⟩

def get? (table : Table) (key : String) : Option Node :=
  table.entries.lookup key

def set (table : Table) (key : String) (node : Node) : Table :=
  { table with entries := (key, node) :: table.entries.filter (·.1 != key) }

/-- Change the table at the end of a path. `keyed` tells that the path is written as a dotted key, which
may not enter a table that has a header. -/
def modifyAt (keyed : Bool) (change : Table → Option Table) : List String → Table → Option Table
  | [], table => change table
  | key :: path, table =>
      match table.get? key with
      | none => do
          let inner ← modifyAt keyed change path ⟨if keyed then .dotted else .passed, []⟩
          return table.set key (.table inner.origin inner.entries)
      | some (.table origin entries) =>
          if keyed && origin = .header then none
          else do
            let inner ← modifyAt keyed change path ⟨origin, entries⟩
            return table.set key (.table inner.origin inner.entries)
      | some (.tables (last :: earlier)) => do
          let inner ← modifyAt keyed change path ⟨.header, last⟩
          return table.set key (.tables (inner.entries :: earlier))
      | some (.tables []) => none
      | some (.value _) => none

/-- Add a value under a key that is new, to a table that dotted keys made exactly if the key is dotted. -/
def addValue (path : List String) (key : String) (data : Data) (table : Table) : Option Table :=
  let add (inner : Table) : Option Table :=
    if (inner.origin == .dotted) == path.isEmpty || (inner.get? key).isSome then none
    else some (inner.set key (.value data))
  table.modifyAt true add path

/-- Define a table by a header. -/
def addHeader (path : List String) (key : String) (table : Table) : Option Table :=
  let add (inner : Table) : Option Table :=
    match inner.get? key with
    | none => some (inner.set key (.table .header []))
    | some (.table .passed entries) => some (inner.set key (.table .header entries))
    | some _ => none
  table.modifyAt false add path

/-- Add a table to a list of tables. -/
def addElement (path : List String) (key : String) (table : Table) : Option Table :=
  let add (inner : Table) : Option Table :=
    match inner.get? key with
    | none => some (inner.set key (.tables [[]]))
    | some (.tables elements) => some (inner.set key (.tables ([] :: elements)))
    | some _ => none
  table.modifyAt false add path

end Table

mutual

def Node.data : Node → Data
  | .value data => data
  | .table _ entries => .table (entriesData entries)
  | .tables elements => .list (elementsData elements).reverse

def entriesData : List (String × Node) → List (String × Data)
  | [] => []
  | (key, node) :: rest => (key, node.data) :: entriesData rest

def elementsData : List (List (String × Node)) → List Data
  | [] => []
  | entries :: rest => .table (entriesData entries) :: elementsData rest

end

def Table.data (table : Table) : Data :=
  .table (entriesData table.entries)

end Requalify.Toml
