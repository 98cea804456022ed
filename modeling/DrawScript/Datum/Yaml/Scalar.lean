import DrawScript.Datum.Basic
import DrawScript.Binary64.Text

/-!
# Strings as YAML scalars

YAML offers four ways to write a string. Text with a line feed is a literal block, which keeps it
readable; other text is plain, unless a reader would take it for something else (`true`, `42`,
nothing at all), which single quotes prevent, or it holds an indicator where that would be read as
structure, which single quotes prevent as well. Characters that YAML does not print, and blanks
that the other styles would lose, leave double quotes with escapes as the only way.
-/

namespace DrawScript.Datum.Yaml

/-! ## Characters -/

/-- The characters that end a line. -/
def isBreak (c : Char) : Bool :=
  c == '\n' || c == '\r' || c == '\u0085' || c == '\u2028' || c == '\u2029'

/-- A character that ends a word: a blank, a line break or the mark that ends a text. -/
def isGap (c : Char) : Bool :=
  c == ' ' || c == '\t' || c == '\x00' || isBreak c

/-- The characters that can only be written by an escape. -/
def isSpecial (c : Char) : Bool :=
  (c.toNat < 0x20 && c != '\n') || (0x7f ≤ c.toNat && c.toNat < 0xa0) || c.toNat == 0xfeff ||
    c.toNat == 0xfffe || c.toNat == 0xffff

/-! ## What a plain scalar would be read as -/

/-- Is `text` a number in the given base, of the digits that `isDigit` accepts, below `bound`? -/
def isNumeral (base : Nat) (bound : Nat) (text : List Char) : Bool :=
  let digit? (c : Char) : Option Nat :=
    let value :=
      if '0' ≤ c ∧ c ≤ '9' then c.toNat - '0'.toNat
      else if 'a' ≤ c ∧ c ≤ 'z' then c.toNat - 'a'.toNat + 10
      else if 'A' ≤ c ∧ c ≤ 'Z' then c.toNat - 'A'.toNat + 10
      else base
    if value < base then some value else none
  match text.mapM digit? with
  | some (d :: ds) => (d :: ds).foldl (fun n x ↦ base * n + x) 0 < bound
  | _ => false

/-- A leading zero before more digits, with or without a sign. -/
def isPaddedInteger (text : List Char) : Bool :=
  let digits := match text with
    | '-' :: rest | '+' :: rest => rest
    | _ => text
  match digits with
  | '0' :: d :: rest => (d :: rest).all fun c ↦ '0' ≤ c && c ≤ '9'
  | _ => false

/-- An integer of up to 128 bits, in any of the four bases. -/
def isInteger (text : List Char) : Bool :=
  match text with
  | '-' :: rest => signed (Nat.pow 2 127 + 1) rest
  | '+' :: rest => signed (Nat.pow 2 128) rest
  | _ => signed (Nat.pow 2 128) text
where
  /-- The numeral behind the sign. -/
  signed (bound : Nat) (rest : List Char) : Bool :=
    match rest with
    | '0' :: 'x' :: digits => isNumeral 16 bound digits
    | '0' :: 'o' :: digits => isNumeral 8 bound digits
    | '0' :: 'b' :: digits => isNumeral 2 bound digits
    | digits => isNumeral 10 bound digits && !isPaddedInteger digits

/-- The value of a decimal numeral with an optional fraction and exponent: digits on at least one
side of the point, and digits behind the mark of an exponent. -/
def decimal? (negative : Bool) (text : List Char) : Option Binary64 :=
  let isDigit (c : Char) : Bool := '0' ≤ c && c ≤ '9'
  let value (digits : List Char) : Nat :=
    digits.foldl (fun n c ↦ 10 * n + (c.toNat - '0'.toNat)) 0
  let whole := text.takeWhile isDigit
  let (fraction, rest) := match text.dropWhile isDigit with
    | '.' :: rest => (rest.takeWhile isDigit, rest.dropWhile isDigit)
    | rest => ([], rest)
  let digits := whole ++ fraction
  let exponent? : Option Int := match rest with
    | [] => some 0
    | 'e' :: rest | 'E' :: rest =>
      let (sign, rest) : Int × List Char := match rest with
        | '-' :: rest => (-1, rest)
        | '+' :: rest => (1, rest)
        | _ => (1, rest)
      if rest.isEmpty || !rest.all isDigit then none else some (sign * value rest)
    | _ => none
  if digits.isEmpty then none
  else exponent?.map fun exponent ↦
    Binary64.ofScientific negative (value digits) (exponent - fraction.length)

/-- A finite real number. -/
def isReal (text : List Char) : Bool :=
  let number := match text with
    | '-' :: rest => decimal? true rest
    | '+' :: rest => decimal? false rest
    | _ => decimal? false text
  number.any (·.isFinite)

/-- The spellings of values that are neither numbers nor strings, and of the numbers that are not
finite. -/
def reserved : List String :=
  ["", "~", "null", "Null", "NULL", "true", "True", "TRUE", "false", "False", "FALSE",
    ".inf", ".Inf", ".INF", "+.inf", "+.Inf", "+.INF", "-.inf", "-.Inf", "-.INF",
    ".nan", ".NaN", ".NAN"]

/-- Would a plain scalar with this text be read as something other than a string, or be mistaken
for a number? -/
def isAmbiguous (text : String) : Bool :=
  reserved.contains text || isInteger text.toList || isPaddedInteger text.toList ||
    isReal text.toList

/-! ## What a plain scalar would be taken for -/

/-- The characters that cannot begin a plain scalar. -/
def indicators : List Char :=
  ['#', ',', '[', ']', '\x7b', '\x7d', '&', '*', '!', '|', '>', '\'', '"', '%', '@', '\x60']

/-- Does an indicator follow that would be read as structure, behind the character `previous`? -/
def hasInnerIndicator (previous : Char) : List Char → Bool
  | [] => false
  | c :: rest =>
    (c == ':' && rest.head?.all isGap) || (c == '#' && isGap previous) || hasInnerIndicator c rest

/-- Does the text hold an indicator where it would be read as structure? -/
def hasIndicator : List Char → Bool
  | [] => false
  | c :: rest =>
    ['-', '-', '-'].isPrefixOf (c :: rest) || ['.', '.', '.'].isPrefixOf (c :: rest) ||
      indicators.contains c || (['?', ':', '-'].contains c && rest.head?.all isGap) ||
      hasInnerIndicator c rest

/-- Do two neighbouring characters satisfy a relation? -/
def hasPair (p : Char → Char → Bool) : List Char → Bool
  | a :: b :: rest => p a b || hasPair p (b :: rest)
  | _ => false

/-- A space before a line break. -/
def hasSpaceBreak (text : List Char) : Bool :=
  hasPair (fun a b ↦ a == ' ' && isBreak b) text

/-- A space behind a line break. -/
def hasBreakSpace (text : List Char) : Bool :=
  hasPair (fun a b ↦ isBreak a && b == ' ') text

/-! ## Styles -/

/-- The ways to write a string. -/
inductive Style where
  | plain
  | singleQuoted
  | doubleQuoted
  | literal
  deriving DecidableEq, Repr

/-- May the text stand without quotes? -/
def plainAllowed (text : List Char) : Bool :=
  !(text.any isSpecial || text.any isBreak || text.head? == some ' ' || text.getLast? == some ' ' ||
    hasIndicator text)

/-- May the text stand between single quotes? -/
def singleQuotedAllowed (text : List Char) : Bool :=
  !(text.any isSpecial || hasSpaceBreak text || hasBreakSpace text)

/-- May the text stand in a literal block? -/
def literalAllowed (text : List Char) : Bool :=
  !(text.any isSpecial || hasSpaceBreak text || text.getLast? == some ' ')

/-- The style that a text is written in. -/
def styleOf (text : String) : Style :=
  let chars := text.toList
  if chars.contains '\n' then if literalAllowed chars then .literal else .doubleQuoted
  else if !isAmbiguous text && plainAllowed chars then .plain
  else if singleQuotedAllowed chars then .singleQuoted
  else .doubleQuoted

/-- A run of spaces. -/
def spaces (n : Nat) : String :=
  String.ofList (List.replicate n ' ')

/-- A text whose lines, the first one apart if `fresh` is not set, are indented; empty lines stay
empty. -/
def indented (indent : Nat) (write : Char → String) : (fresh : Bool) → List Char → String
  | _, [] => ""
  | fresh, c :: rest =>
    if isBreak c then c.toString ++ indented indent write true rest
    else (if fresh then spaces indent else "") ++ write c ++ indented indent write false rest

/-- A text between single quotes, a quote being written twice. -/
def singleQuoted (indent : Nat) (text : List Char) : String :=
  let close := if text.getLast?.any isBreak then spaces indent ++ "'" else "'"
  "'" ++ indented indent (fun c ↦ if c = '\'' then "''" else c.toString) false text ++ close

/-- The header of a literal block: how deep it is indented, if its first line does not show that,
and what becomes of the line breaks at its end. -/
def literalHeader (text : List Char) : String :=
  let depth := if text.head?.any fun c ↦ c == ' ' || isBreak c then "2" else ""
  let chomping := match text.reverse with
    | [] => "-"
    | [c] => if isBreak c then "+" else "-"
    | c :: c' :: _ => if !isBreak c then "-" else if isBreak c' then "+" else ""
  "|" ++ depth ++ chomping

/-- A literal block. Like the other styles it ends without a line break of its own unless the text
brings one. -/
def literalBlock (indent : Nat) (text : List Char) : String :=
  literalHeader text ++ "\n" ++ indented indent Char.toString true text

/-- Upper case hexadecimal digits of `n`, filled with zeros to the given number of places. -/
def upperHex (places n : Nat) : String :=
  let digits := (Nat.toDigits 16 n).map Char.toUpper
  String.ofList (List.replicate (places - digits.length) '0' ++ digits)

/-- One character between double quotes. -/
def doubleQuotedChar (c : Char) : String :=
  match c with
  | '\x00' => "\\0"
  | '\x07' => "\\a"
  | '\x08' => "\\b"
  | '\t' => "\\t"
  | '\n' => "\\n"
  | '\x0b' => "\\v"
  | '\x0c' => "\\f"
  | '\r' => "\\r"
  | '\x1b' => "\\e"
  | '"' => "\\\""
  | '\\' => "\\\\"
  | '\u0085' => "\\N"
  | '\u2028' => "\\L"
  | '\u2029' => "\\P"
  | c =>
    if !isSpecial c then c.toString
    else if c.toNat ≤ 0xff then "\\x" ++ upperHex 2 c.toNat
    else "\\u" ++ upperHex 4 c.toNat

/-- A text between double quotes. -/
def doubleQuoted (text : List Char) : String :=
  "\"" ++ String.join (text.map doubleQuotedChar) ++ "\""

/-- A string as a scalar with the line break that ends it, inside a collection whose entries are
indented by `indent`. -/
def scalar (indent : Nat) (text : String) : String :=
  let chars := text.toList
  match styleOf text with
  | .plain => text ++ "\n"
  | .singleQuoted => singleQuoted (indent + 2) chars ++ "\n"
  | .doubleQuoted => doubleQuoted chars ++ "\n"
  | .literal =>
    literalBlock (indent + 2) chars ++ if chars.getLast?.any isBreak then "" else "\n"

end DrawScript.Datum.Yaml
