import DrawScript.Toml.Value

/-!
# Building tables

A table can be opened by a header, grow out of dotted keys, or come into being because a deeper one
was opened. What may be added later depends on that: a table that has had its own header cannot be
opened or extended again, one made of dotted keys grows by dotted keys only, and one that is merely
implied may still get a header. A value, inline tables included, is never extended.
-/

namespace DrawScript.Toml

/-- What a key stands for while a file is read. -/
inductive Item where
  | leaf (value : Value)
  /-- A table; `implied` if it never had a header, `dotted` if it was made by dotted keys. -/
  | table (implied dotted : Bool) (entries : List (String × Item))
  /-- The tables of an array, latest first. -/
  | series (tables : List (List (String × Item)))

/-- A table under construction. -/
structure Table where
  implied : Bool
  dotted : Bool
  entries : List (String × Item)

namespace Table

/-- A table that a header opens. -/
def fresh : Table := ⟨false, false, []⟩

/-- The item of a key. -/
def get? (table : Table) (key : String) : Option Item :=
  table.entries.lookup key

/-- Sets the item of a key, in its old place if it has one. -/
def put (table : Table) (key : String) (item : Item) : Table :=
  { table with
    entries :=
      if (table.get? key).isSome then
        table.entries.map fun entry ↦ if entry.1 = key then (key, item) else entry
      else table.entries ++ [(key, item)] }

/-- Removes a key. -/
def erase (table : Table) (key : String) : Table :=
  { table with entries := table.entries.filter fun entry ↦ entry.1 ≠ key }

/-- The table as an item of its parent. -/
def toItem (table : Table) : Item :=
  .table table.implied table.dotted table.entries

/-- Changes the table at the end of a path, making the tables on the way. The path leads through the
latest table of an array, never through a value, and dotted keys do not enter a table that has had
its own header. -/
def modifyAt (dotted : Bool) (change : Table → Option Table) : List String → Table → Option Table
  | [], table => change table
  | key :: path, table =>
    match table.get? key with
    | none => (modifyAt dotted change path ⟨true, dotted, []⟩).map fun t ↦ table.put key t.toItem
    | some (.leaf _) => none
    | some (.series []) => none
    | some (.series (latest :: earlier)) =>
      (modifyAt dotted change path ⟨false, false, latest⟩).map fun t ↦
        table.put key (.series (t.entries :: earlier))
    | some (.table implied isDotted entries) =>
      if dotted && !implied then none
      else
        (modifyAt dotted change path ⟨implied, isDotted, entries⟩).map fun t ↦
          table.put key t.toItem

/-- Adds the value of a new key to a table that is reached by dotted keys if `nested` is set. -/
def addLeaf (nested : Bool) (key : String) (value : Value) (table : Table) : Option Table :=
  if table.dotted != nested || (table.get? key).isSome then none
  else some (table.put key (.leaf value))

/-- Adds a value under a dotted key. -/
def addDotted (path : List String) (value : Value) (table : Table) : Option Table := do
  let key ← path.getLast?
  modifyAt true (addLeaf (!path.dropLast.isEmpty) key value) path.dropLast table

end Table

mutual

/-- The value that an item has in the end. -/
def Item.toValue : Item → Value
  | .leaf value => value
  | .table _ _ entries => .table (Item.toEntries entries)
  | .series tables => .array (Item.toTables tables).reverse

/-- The values of the entries of a table. -/
def Item.toEntries : List (String × Item) → List (String × Value)
  | [] => []
  | (key, item) :: rest => (key, item.toValue) :: Item.toEntries rest

/-- The values of the tables of an array, latest first. -/
def Item.toTables : List (List (String × Item)) → List Value
  | [] => []
  | entries :: rest => .table (Item.toEntries entries) :: Item.toTables rest

end

end DrawScript.Toml
