import DrawScript.Binary64.Text

/-!
# Values of a settings file

Settings files are written in TOML. This module holds the values that such a file can give to a key
and the reading of the values that are no collections: strings in their four forms, numbers, and
dates, which are kept as text.

A reader takes a value from the front of a text and gives back what is left. It fails if the text
does not begin with such a value; whether the rest makes sense is decided by whoever reads on.
-/

namespace DrawScript.Toml

/-- A value. -/
inductive Value where
  | string (value : String)
  | integer (value : Int)
  | real (value : Binary64)
  | boolean (value : Bool)
  /-- A date, a time or both, in normal form. -/
  | moment (text : String)
  | array (items : List Value)
  | table (entries : List (String × Value))

/-- Takes something from the front of a text. -/
abbrev Reader (α : Type) := List Char → Option (α × List Char)

/-! ## Characters -/

/-- A blank inside a line. -/
def isBlank (c : Char) : Bool :=
  c == ' ' || c == '\t'

/-- A decimal digit. -/
def isDigit (c : Char) : Bool :=
  '0' ≤ c && c ≤ '9'

/-- A character that may stand in comments and strings: everything but controls. -/
def isTextChar (c : Char) : Bool :=
  c == '\t' || (0x20 ≤ c.toNat && c.toNat != 0x7f)

/-- The value of a hexadecimal digit. -/
def hexDigit? (c : Char) : Option Nat :=
  if isDigit c then some (c.toNat - '0'.toNat)
  else if 'a' ≤ c ∧ c ≤ 'f' then some (c.toNat - 'a'.toNat + 10)
  else if 'A' ≤ c ∧ c ≤ 'F' then some (c.toNat - 'A'.toNat + 10)
  else none

/-- The character with the given hexadecimal number, if there is one. -/
def codePoint? (digits : List Char) : Option Char := do
  let values ← digits.mapM hexDigit?
  let n := values.foldl (fun n d ↦ 16 * n + d) 0
  if h : n.isValidChar then some (Char.ofNatAux n h) else none

/-! ## Strings -/

/-- The escapes of one letter. -/
def escaped? : Char → Option Char
  | 'b' => some '\x08'
  | 't' => some '\t'
  | 'n' => some '\n'
  | 'f' => some '\x0c'
  | 'r' => some '\r'
  | '"' => some '"'
  | '\\' => some '\\'
  | _ => none

/-- Puts a character in front of what a reader gave. -/
def consChar (c : Char) : Option (List Char × List Char) → Option (List Char × List Char) :=
  Option.map fun (cs, rest) ↦ (c :: cs, rest)

/-- The rest of a string between double quotes. -/
def basicBody : Reader (List Char)
  | [] => none
  | '"' :: rest => some ([], rest)
  | '\\' :: 'u' :: a :: b :: c :: d :: rest => do
    consChar (← codePoint? [a, b, c, d]) (basicBody rest)
  | '\\' :: 'U' :: a :: b :: c :: d :: e :: f :: g :: h :: rest => do
    consChar (← codePoint? [a, b, c, d, e, f, g, h]) (basicBody rest)
  | '\\' :: c :: rest => do consChar (← escaped? c) (basicBody rest)
  | c :: rest => if isTextChar c && c != '\\' then consChar c (basicBody rest) else none

/-- Does a line end here, blanks apart? -/
def endsLine (text : List Char) : Bool :=
  match text.dropWhile isBlank with
  | '\n' :: _ | '\r' :: '\n' :: _ => true
  | _ => false

/-- The rest of a string between triple double quotes. A backslash at the end of a line drops all
blanks and line breaks up to the next character; `dropping` tells that this is going on. Up to two
quotes may stand before the closing ones. -/
def longBasicBody : (dropping : Bool) → Reader (List Char)
  | _, [] => none
  | _, '"' :: '"' :: '"' :: '"' :: '"' :: rest => some (['"', '"'], rest)
  | _, '"' :: '"' :: '"' :: '"' :: rest => some (['"'], rest)
  | _, '"' :: '"' :: '"' :: rest => some ([], rest)
  | dropping, '\r' :: '\n' :: rest =>
    if dropping then longBasicBody true rest else consChar '\n' (longBasicBody false rest)
  | _, '\\' :: 'u' :: a :: b :: c :: d :: rest => do
    consChar (← codePoint? [a, b, c, d]) (longBasicBody false rest)
  | _, '\\' :: 'U' :: a :: b :: c :: d :: e :: f :: g :: h :: rest => do
    consChar (← codePoint? [a, b, c, d, e, f, g, h]) (longBasicBody false rest)
  | _, '\\' :: c :: rest =>
    if endsLine (c :: rest) then longBasicBody true (c :: rest)
    else do consChar (← escaped? c) (longBasicBody false rest)
  | dropping, c :: rest =>
    if dropping && (isBlank c || c == '\n') then longBasicBody true rest
    else if c == '\n' || (isTextChar c && c != '\\') then consChar c (longBasicBody false rest)
    else none

/-- The rest of a string between single quotes. -/
def literalBody : Reader (List Char)
  | [] => none
  | '\'' :: rest => some ([], rest)
  | c :: rest => if isTextChar c then consChar c (literalBody rest) else none

/-- The rest of a string between triple single quotes. -/
def longLiteralBody : Reader (List Char)
  | [] => none
  | '\'' :: '\'' :: '\'' :: '\'' :: '\'' :: rest => some (['\'', '\''], rest)
  | '\'' :: '\'' :: '\'' :: '\'' :: rest => some (['\''], rest)
  | '\'' :: '\'' :: '\'' :: rest => some ([], rest)
  | '\r' :: '\n' :: rest => consChar '\n' (longLiteralBody rest)
  | c :: rest =>
    if c == '\n' || isTextChar c then consChar c (longLiteralBody rest) else none

/-- A line break right behind the opening quotes of a long string is dropped. -/
def dropLineBreak : List Char → List Char
  | '\n' :: rest | '\r' :: '\n' :: rest => rest
  | text => text

/-- A string in any of the four forms. -/
def string : Reader String := fun text ↦
  let body := match text with
    | '"' :: '"' :: '"' :: rest => longBasicBody false (dropLineBreak rest)
    | '\'' :: '\'' :: '\'' :: rest => longLiteralBody (dropLineBreak rest)
    | '"' :: rest => basicBody rest
    | '\'' :: rest => literalBody rest
    | _ => none
  body.map fun (cs, rest) ↦ (String.ofList cs, rest)

/-! ## Numbers -/

/-- Further digits, single underscores between them. -/
def moreDigits (isDigit : Char → Bool) : List Char → List Char × List Char
  | [] => ([], [])
  | '_' :: d :: rest =>
    if isDigit d then
      let (ds, rest) := moreDigits isDigit rest
      (d :: ds, rest)
    else ([], '_' :: d :: rest)
  | d :: rest =>
    if isDigit d then
      let (ds, rest) := moreDigits isDigit rest
      (d :: ds, rest)
    else ([], d :: rest)

/-- One digit or more, single underscores between them. -/
def digits (isDigit : Char → Bool) : Reader (List Char)
  | d :: rest =>
    if isDigit d then
      let (ds, rest) := moreDigits isDigit rest
      some (d :: ds, rest)
    else none
  | [] => none

/-- The number that digits of a base spell. -/
def valueOf (base : Nat) (digits : List Char) : Nat :=
  digits.foldl (fun n c ↦ base * n + (hexDigit? c).getD 0) 0

/-- An optional sign; the value tells whether it is a minus. -/
def sign : List Char → Bool × List Char
  | '-' :: rest => (true, rest)
  | '+' :: rest => (false, rest)
  | text => (false, text)

/-- Decimal digits without a leading zero. -/
def wholeDigits : Reader (List Char)
  | '0' :: rest => some (['0'], rest)
  | text => digits isDigit text

/-- An integer that fits into 64 bits. -/
def bounded (n : Int) : Option Int :=
  if -(Nat.pow 2 63 : Int) ≤ n ∧ n < Nat.pow 2 63 then some n else none

/-- An integer in one of the four bases. -/
def integer : Reader Int := fun text ↦
  let based (base : Nat) (isDigit : Char → Bool) (text : List Char) := do
    let (ds, rest) ← digits isDigit text
    some (← bounded (valueOf base ds), rest)
  match text with
  | '0' :: 'x' :: rest => based 16 (fun c ↦ (hexDigit? c).isSome) rest
  | '0' :: 'o' :: rest => based 8 (fun c ↦ '0' ≤ c && c ≤ '7') rest
  | '0' :: 'b' :: rest => based 2 (fun c ↦ c == '0' || c == '1') rest
  | _ => do
    let (negative, text) := sign text
    let (ds, rest) ← wholeDigits text
    let n : Int := valueOf 10 ds
    some (← bounded (if negative then -n else n), rest)

/-- The exponent of a real number; without one it is zero. -/
def exponent : Reader Int
  | 'e' :: rest | 'E' :: rest => do
    let (negative, rest) := sign rest
    let (ds, rest) ← digits isDigit rest
    let n : Int := valueOf 10 ds
    some (if negative then -n else n, rest)
  | text => some (0, text)

/-- A real number: digits with a fraction, an exponent or both, or one of the special values. What
is too large is refused. -/
def real : Reader Binary64 := fun text ↦
  let (negative, text) := sign text
  match text with
  | 'i' :: 'n' :: 'f' :: rest => some (.ofMagnitude negative (0x7ff * Nat.pow 2 52), rest)
  | 'n' :: 'a' :: 'n' :: rest =>
    some (.ofMagnitude negative (0x7ff * Nat.pow 2 52 + Nat.pow 2 51), rest)
  | _ => do
    let (whole, text) ← wholeDigits text
    let (fraction, text) ← match text with
      | '.' :: rest => digits isDigit rest
      | 'e' :: _ | 'E' :: _ => some ([], text)
      | _ => none
    let (exponent, rest) ← exponent text
    let x := Binary64.ofScientific negative (valueOf 10 (whole ++ fraction))
      (exponent - fraction.length)
    if x.isFinite || negative then some (x, rest) else none

/-! ## Dates and times -/

/-- Exactly `n` digits, as a number in the given range. -/
def number (n low high : Nat) : Reader Nat := fun text ↦
  let ds := text.take n
  let value := valueOf 10 ds
  if ds.length = n ∧ ds.all isDigit ∧ low ≤ value ∧ value ≤ high then some (value, text.drop n)
  else none

/-- A fixed character. -/
def expect (c : Char) : Reader Unit
  | d :: rest => if c = d then some ((), rest) else none
  | [] => none

/-- A number filled with zeros to the given number of places. -/
def padded (places n : Nat) : String :=
  Binary64.zeros (places - n.repr.length) ++ n.repr

/-- The number of days of a month. -/
def daysOf (year month : Nat) : Nat :=
  if month = 2 then
    if year % 4 = 0 ∧ (year % 100 ≠ 0 ∨ year % 400 = 0) then 29 else 28
  else if [4, 6, 9, 11].contains month then 30
  else 31

/-- A date. -/
def date : Reader String := fun text ↦ do
  let (year, text) ← number 4 0 9999 text
  let ((), text) ← expect '-' text
  let (month, text) ← number 2 1 12 text
  let ((), text) ← expect '-' text
  let (day, text) ← number 2 1 (daysOf year month) text
  some (padded 4 year ++ "-" ++ padded 2 month ++ "-" ++ padded 2 day, text)

/-- The fraction of a second: nine digits count, and zeros at the end are not kept. -/
def secondFraction : Reader String
  | '.' :: rest =>
    let ds := rest.takeWhile isDigit
    if ds.isEmpty then none
    else
      let kept := ((ds.take 9).reverse.dropWhile (· == '0')).reverse
      some (if kept.isEmpty then "" else "." ++ String.ofList kept, rest.dropWhile isDigit)
  | text => some ("", text)

/-- A time of day. -/
def time : Reader String := fun text ↦ do
  let (hour, text) ← number 2 0 23 text
  let ((), text) ← expect ':' text
  let (minute, text) ← number 2 0 59 text
  let ((), text) ← expect ':' text
  let (second, text) ← number 2 0 60 text
  let (fraction, text) ← secondFraction text
  some (padded 2 hour ++ ":" ++ padded 2 minute ++ ":" ++ padded 2 second ++ fraction, text)

/-- The distance to universal time, if one is given. -/
def offset : Reader String := fun text ↦
  match text with
  | 'Z' :: rest | 'z' :: rest => some ("Z", rest)
  | '+' :: rest | '-' :: rest => do
    let (hour, rest) ← number 2 0 23 rest
    let ((), rest) ← expect ':' rest
    let (minute, rest) ← number 2 0 59 rest
    let mark := if text.head? = some '-' ∧ hour + minute ≠ 0 then "-" else "+"
    some (mark ++ padded 2 hour ++ ":" ++ padded 2 minute, rest)
  | _ => some ("", text)

/-- A date, a time, or a date and a time. -/
def moment : Reader String := fun text ↦
  match date text with
  | none => time text
  | some (day, rest) =>
    let clock := match rest with
      | 'T' :: rest | 't' :: rest | ' ' :: rest => time rest
      | _ => none
    match clock with
    | none => some (day, rest)
    | some (clock, rest) => do
      let (zone, rest) ← offset rest
      some (day ++ "T" ++ clock ++ zone, rest)

/-! ## Values without parts -/

/-- A value that is no collection. -/
def scalar : Reader Value := fun text ↦
  match text with
  | '"' :: _ | '\'' :: _ => (string text).map fun (s, rest) ↦ (.string s, rest)
  | 't' :: 'r' :: 'u' :: 'e' :: rest => some (.boolean true, rest)
  | 'f' :: 'a' :: 'l' :: 's' :: 'e' :: rest => some (.boolean false, rest)
  | _ =>
    ((moment text).map fun (m, rest) ↦ (Value.moment m, rest)) <|>
    ((real text).map fun (x, rest) ↦ (Value.real x, rest)) <|>
    ((integer text).map fun (n, rest) ↦ (Value.integer n, rest))

end DrawScript.Toml
