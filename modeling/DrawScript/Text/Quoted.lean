import DrawScript.Text.Shown

/-!
# Quoted text in messages

Messages show source text between double quotes. The quote, the backslash and the four most common
control characters have escapes of two characters, every other hidden character is written by its
number, and the rest stands for itself. The apostrophe needs no escape, since the delimiter is
always the double quote.
-/

namespace DrawScript.Text

/-- The lower case hexadecimal digits of `n`, without leading zeros. -/
def hexDigits (n : Nat) : String :=
  String.ofList (Nat.toDigits 16 n)

/-- One character of quoted text. -/
def quotedChar (c : Char) : String :=
  match c with
  | '\x00' => "\\0"
  | '\t' => "\\t"
  | '\r' => "\\r"
  | '\n' => "\\n"
  | '"' => "\\\""
  | '\\' => "\\\\"
  | c => if isShown c then c.toString else "\\u\x7b" ++ hexDigits c.toNat ++ "\x7d"

/-- The text between double quotes, with everything escaped that a reader could not see. -/
def quoted (text : String) : String :=
  "\"" ++ String.join (text.toList.map quotedChar) ++ "\""

/-- Several texts, each quoted, in brackets. -/
def quotedList (texts : List String) : String :=
  "[" ++ ", ".intercalate (texts.map quoted) ++ "]"

end DrawScript.Text
