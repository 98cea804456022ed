import DrawScript.Toml.Value

/-!
# Moments written as tables

A date or a time can also be written as a table: if the first key of a table is `momentTag`, the
table stands for the moment that the string behind this key spells, whatever other keys follow.

`Value.untag` replaces such tables in a value, and fails if one of them spells no moment. It is
applied to the values of a file when the whole file has been read, since only then the order of the
keys is known.
-/

namespace DrawScript.Toml

/-- The key that makes a table stand for a moment. -/
def momentTag : String := "$__toml_private_datetime"

/-- The moment that a whole text spells. -/
def momentOfText? (text : List Char) : Option String :=
  match moment text with
  | some (m, []) => some m
  | _ => none

/-- What stands behind the tag, if the entries of a table begin with it. -/
def tagged? : List (String × Value) → Option Value
  | [] => none
  | (key, value) :: _ => if key = momentTag then some value else none

namespace Value

/-- The moment that a tagged value spells. -/
def toMoment? : Value → Option Value
  | string text => (momentOfText? text.toList).map .moment
  | _ => none

mutual

/-- The value with every tagged table in it replaced by its moment. -/
def untag : Value → Option Value
  | array items => (untagList items).map .array
  | table entries =>
    match tagged? entries with
    | some value => value.toMoment?
    | none => (untagEntries entries).map .table
  | value => some value

/-- The items of an array, untagged. -/
def untagList : List Value → Option (List Value)
  | [] => some []
  | value :: rest => do
    let value ← value.untag
    let rest ← untagList rest
    some (value :: rest)

/-- The entries of a table, untagged. -/
def untagEntries : List (String × Value) → Option (List (String × Value))
  | [] => some []
  | (key, value) :: rest => do
    let value ← value.untag
    let rest ← untagEntries rest
    some ((key, value) :: rest)

end

end Value

end DrawScript.Toml
