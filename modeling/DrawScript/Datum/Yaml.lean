import DrawScript.Datum.Yaml.Scalar

/-!
# Data as YAML

Records and lists are written in block style, two spaces deeper at every level. A list that is the
value of a field stands at the indentation of that field, since the dashes of its items set it
apart. Empty collections have no lines to indent and are written in flow style.
-/

namespace DrawScript.Datum

open Yaml (spaces)

/-- Numbers in YAML. -/
def yamlStyle : Binary64.Style :=
  { exponentSign := "", infinity := ".inf", negativeInfinity := "-.inf", notANumber := ".nan" }

mutual

/-- A datum behind the name of its field, which is indented by `indent`. -/
def yamlValue (indent : Nat) : Datum → String
  | bool value => if value then " true\n" else " false\n"
  | int value => " " ++ value.repr ++ "\n"
  | real value => " " ++ value.write yamlStyle ++ "\n"
  | text value => " " ++ Yaml.scalar indent value
  | list [] => " []\n"
  | list (x :: xs) => "\n" ++ spaces indent ++ yamlItems indent (x :: xs)
  | record [] => " \x7b\x7d\n"
  | record (f :: fs) => "\n" ++ spaces (indent + 2) ++ yamlFields (indent + 2) (f :: fs)

/-- A datum behind the dash of its item, which is indented by `indent`. -/
def yamlItem (indent : Nat) : Datum → String
  | bool value => if value then "true\n" else "false\n"
  | int value => value.repr ++ "\n"
  | real value => value.write yamlStyle ++ "\n"
  | text value => Yaml.scalar indent value
  | list [] => "[]\n"
  | list (x :: xs) => yamlItems (indent + 2) (x :: xs)
  | record [] => "\x7b\x7d\n"
  | record (f :: fs) => yamlFields (indent + 2) (f :: fs)

/-- The items of a list; the place of the first dash is reached already. -/
def yamlItems (indent : Nat) : List Datum → String
  | [] => ""
  | [x] => "- " ++ yamlItem indent x
  | x :: y :: rest => "- " ++ yamlItem indent x ++ spaces indent ++ yamlItems indent (y :: rest)

/-- The fields of a record; the place of the first name is reached already. -/
def yamlFields (indent : Nat) : List (String × Datum) → String
  | [] => ""
  | [(name, x)] => name ++ ":" ++ yamlValue indent x
  | (name, x) :: f :: rest =>
    name ++ ":" ++ yamlValue indent x ++ spaces indent ++ yamlFields indent (f :: rest)

end

/-- A datum as YAML text. -/
def toYaml (datum : Datum) : String :=
  match datum with
  | record (f :: fs) => yamlFields 0 (f :: fs)
  | list (x :: xs) => yamlItems 0 (x :: xs)
  | record [] => "\x7b\x7d\n"
  | list [] => "[]\n"
  | bool value => if value then "true\n" else "false\n"
  | int value => value.repr ++ "\n"
  | real value => value.write yamlStyle ++ "\n"
  | text value => Yaml.scalar 0 value

end DrawScript.Datum
