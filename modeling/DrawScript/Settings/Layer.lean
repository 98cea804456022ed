import DrawScript.Settings.KeyPath
import DrawScript.Toml.Document

/-!
# Layers of settings

Settings are collected in layers, a later one covering the ones before it. Tables are merged key by
key, so a layer needs to name only what it changes, and everything else is replaced as a whole. An
empty table therefore changes nothing. Keys are kept in lower case; only ASCII letters are changed,
which is enough because every setting has an ASCII name that no other letter folds into.

What stands in the way of a path is replaced by an empty table or list, and a list is filled with
nulls as far as a path needs it. So setting a value fails only if an element counted from the end of
a list would stand before its beginning, or if the list would get too long.
-/

namespace DrawScript.Settings

/-- The value of a setting. -/
inductive Value where
  | null
  | boolean (value : Bool)
  | integer (value : Int)
  | real (value : Binary64)
  | text (value : String)
  | list (items : List Value)
  | table (entries : List (String × Value))

/-- Why an element of a list cannot be set. -/
inductive IndexFault where
  /-- Counted from the end, it would stand before the beginning. -/
  | beforeStart
  /-- The list would have more items than it can hold. -/
  | beyondCapacity
  deriving DecidableEq, Repr

namespace Value

/-- The entries of a table; nothing else has any. -/
def entries : Value → List (String × Value)
  | table entries => entries
  | _ => []

/-- The items of a list; nothing else has any. -/
def items : Value → List Value
  | list items => items
  | _ => []

/-- The value of a key of a table. -/
def get? (value : Value) (key : String) : Option Value :=
  value.entries.lookup key

/-- Sets a key of a table. What is no table becomes one. -/
def put (value : Value) (key : String) (entry : Value) : Value :=
  if (value.get? key).isSome then
    .table (value.entries.map fun old ↦ if old.1 = key then (key, entry) else old)
  else .table (value.entries ++ [(key, entry)])

mutual

/-- Sets a key, merging tables key by key. -/
def assign (root : Value) (key : String) : Value → Value
  | table entries =>
    root.put key.toLower (assignAll ((root.get? key.toLower).getD (.table [])) entries)
  | value => root.put key.toLower value

/-- Sets all keys of a table. -/
def assignAll (target : Value) : List (String × Value) → Value
  | [] => target
  | (key, value) :: rest => assignAll (assign target key value) rest

end

/-- The number of items that a list can hold. -/
def capacity : Nat := Nat.pow 2 27

/-- The place of an element that may be counted from the end of a list of the given length. -/
def place (index : Int) (length : Nat) : Except IndexFault Nat :=
  if index < 0 then
    if index.natAbs ≤ length then .ok (length - index.natAbs) else .error .beforeStart
  else if index.natAbs < capacity then .ok index.natAbs
  else .error .beyondCapacity

/-- Changes an element of a list, filling it with nulls as far as needed. What is no list becomes
one. -/
def modifyItem (change : Value → Except IndexFault Value) (index : Int) (value : Value) :
    Except IndexFault Value := do
  let items := value.items
  let i ← place index items.length
  let filled := items ++ List.replicate (i + 1 - items.length) .null
  let item ← change (filled[i]?.getD .null)
  return .list (filled.set i item)

/-- Changes a part of a table. What is no table becomes one. -/
def modifyEntry (change : Value → Except IndexFault Value) (name : String) (value : Value) :
    Except IndexFault Value := do
  let entry ← change ((value.get? name.toLower).getD .null)
  return value.put name.toLower entry

/-- Changes the value at a path, making what is missing on the way. -/
def modify (change : Value → Except IndexFault Value) : KeyPath → Value → Except IndexFault Value
  | .key name, root => modifyEntry change name root
  | .child parent name, root => modify (modifyEntry change name) parent root
  | .element parent index, root => modify (modifyItem change index) parent root

/-- Sets the value at a path. -/
def set (root : Value) (path : KeyPath) (value : Value) : Except IndexFault Value :=
  match path with
  | .key name => .ok (root.assign name value)
  | .child parent name => modify (fun target ↦ .ok (target.assign name value)) parent root
  | .element parent index => modify (modifyItem (fun _ ↦ .ok value) index) parent root

mutual

/-- A value from a settings file. Dates are text. -/
def ofToml : Toml.Value → Value
  | .string value => .text value
  | .integer value => .integer value
  | .real value => .real value
  | .boolean value => .boolean value
  | .moment value => .text value
  | .array values => .list (ofTomlList values)
  | .table entries => .table (ofTomlEntries entries)

/-- The items of an array. -/
def ofTomlList : List Toml.Value → List Value
  | [] => []
  | value :: rest => ofToml value :: ofTomlList rest

/-- The entries of a table. -/
def ofTomlEntries : List (String × Toml.Value) → List (String × Value)
  | [] => []
  | (key, value) :: rest => (key, ofToml value) :: ofTomlEntries rest

end

/-- Lays the entries of a file over what is set. An outermost key that reads as a path is one. -/
def layer (root : Value) (entries : List (String × Value)) : Except IndexFault Value :=
  entries.foldlM
    (fun root (key, value) ↦ root.set ((KeyPath.ofString? key).getD (.key key)) value) root

end Value

end DrawScript.Settings
