/-!
# Paths to settings

A setting is named by a path: a name, and steps to a named part or to a numbered element. A name
consists of letters, digits, blanks, underscores and hyphens; case does not matter.
-/

namespace DrawScript.Settings

/-- Where a setting stands. -/
inductive KeyPath where
  | key (name : String)
  | child (parent : KeyPath) (name : String)
  /-- An element of a list; negative numbers count from its end. -/
  | element (parent : KeyPath) (index : Int)
  deriving DecidableEq, Repr

namespace KeyPath

/-- A character of a name. -/
def isNameChar (c : Char) : Bool :=
  ('A' ≤ c && c ≤ 'Z') || ('a' ≤ c && c ≤ 'z') || ('0' ≤ c && c ≤ '9') || c == ' ' || c == '_' ||
    c == '-'

/-- A decimal digit. -/
def isDigit (c : Char) : Bool :=
  '0' ≤ c && c ≤ '9'

/-- A name from the front of a text. -/
def takeName (text : List Char) : Option (String × List Char) :=
  let name := text.takeWhile isNameChar
  if name.isEmpty then none else some (String.ofList name, text.dropWhile isNameChar)

/-- A number in brackets from the front of a text, behind the opening one. -/
def takeIndex (text : List Char) : Option (Int × List Char) :=
  let isBlank (c : Char) : Bool := c == ' ' || c == '\t'
  let (negative, text) := match text.dropWhile isBlank with
    | '-' :: rest => (true, rest)
    | text => (false, text)
  let digits := text.takeWhile isDigit
  let n : Int := digits.foldl (fun n c ↦ 10 * n + (c.toNat - '0'.toNat)) (0 : Nat)
  let index := if negative then -n else n
  match (text.dropWhile isDigit).dropWhile isBlank with
  | ']' :: rest =>
    if digits.isEmpty ∨ index < -(Nat.pow 2 63 : Int) ∨ Nat.pow 2 63 ≤ index then none
    else some (index, rest)
  | _ => none

/-- Adds the steps of a text to a path, in at most `bound` rounds. -/
def steps : (bound : Nat) → KeyPath → List Char → Option KeyPath
  | _, path, [] => some path
  | bound + 1, path, '.' :: rest => do
    let (name, rest) ← takeName rest
    steps bound (.child path name) rest
  | bound + 1, path, '[' :: rest => do
    let (index, rest) ← takeIndex rest
    steps bound (.element path index) rest
  | _, _, _ => none

/-- Reads a path. -/
def ofString? (text : String) : Option KeyPath := do
  let (name, rest) ← takeName text.toList
  steps rest.length (.key name) rest

end KeyPath

end DrawScript.Settings
