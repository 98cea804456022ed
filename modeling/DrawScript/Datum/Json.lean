import DrawScript.Datum.Basic
import DrawScript.Binary64.Text

/-!
# Data as JSON

Every item of a list and every field of a record has a line of its own, two spaces deeper than the
bracket that holds it; an empty list is written on one line. Strings escape the quote, the
backslash and the control characters below the space, the common ones by a letter. A number that is
not finite has no spelling in JSON and becomes `null`.
-/

namespace DrawScript.Datum

/-- Numbers in JSON. -/
def jsonStyle : Binary64.Style :=
  { exponentSign := "+", infinity := "null", negativeInfinity := "null", notANumber := "null" }

/-- Hexadecimal digits of `n`, filled with zeros to four places. -/
def hexPlaces (n : Nat) : String :=
  let digits := Text.hexDigits n
  Binary64.zeros (4 - digits.length) ++ digits

/-- One character of a JSON string. -/
def jsonChar (c : Char) : String :=
  match c with
  | '"' => "\\\""
  | '\\' => "\\\\"
  | '\x08' => "\\b"
  | '\x0c' => "\\f"
  | '\n' => "\\n"
  | '\r' => "\\r"
  | '\t' => "\\t"
  | c => if c.toNat < 0x20 then "\\u" ++ hexPlaces c.toNat else c.toString

/-- A JSON string. -/
def jsonString (text : String) : String :=
  "\"" ++ String.join (text.toList.map jsonChar) ++ "\""

/-- The spaces before a line at the given depth. -/
def indentation (depth : Nat) : String :=
  String.ofList (List.replicate (2 * depth) ' ')

mutual

/-- A datum whose closing bracket stands at the given depth. -/
def jsonAt (depth : Nat) : Datum → String
  | bool value => if value then "true" else "false"
  | int value => value.repr
  | real value => value.write jsonStyle
  | text value => jsonString value
  | list [] => "[]"
  | list (x :: xs) => "[\n" ++ jsonItems (depth + 1) (x :: xs) ++ "\n" ++ indentation depth ++ "]"
  | record [] => "\x7b\x7d"
  | record (f :: fs) =>
    "\x7b\n" ++ jsonFields (depth + 1) (f :: fs) ++ "\n" ++ indentation depth ++ "\x7d"

/-- The lines of the items of a list. -/
def jsonItems (depth : Nat) : List Datum → String
  | [] => ""
  | [x] => indentation depth ++ jsonAt depth x
  | x :: y :: rest => indentation depth ++ jsonAt depth x ++ ",\n" ++ jsonItems depth (y :: rest)

/-- The lines of the fields of a record. -/
def jsonFields (depth : Nat) : List (String × Datum) → String
  | [] => ""
  | [(name, x)] => indentation depth ++ jsonString name ++ ": " ++ jsonAt depth x
  | (name, x) :: f :: rest =>
    indentation depth ++ jsonString name ++ ": " ++ jsonAt depth x ++ ",\n" ++
      jsonFields depth (f :: rest)

end

/-- A datum as JSON text, with a line break at the end. -/
def toJson (datum : Datum) : String :=
  jsonAt 0 datum ++ "\n"

end DrawScript.Datum
