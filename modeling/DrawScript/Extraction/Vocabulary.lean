/-!
# The calls that carry text

A text object of a drawing is stored as nested calls: a paragraph holds lines, a line holds blocks,
and a block holds segments, the last argument of a segment being the text itself. Only these five
names are looked at; every other call is passed over.
-/

namespace DrawScript

/-- What a call contributes to the text of a drawing. -/
inductive CallForm where
  /-- Everything below is one string. -/
  | paragraph
  /-- A container of lines. -/
  | lines
  /-- A single line. -/
  | line
  /-- A block of segments. -/
  | block
  /-- The last argument is the text. -/
  | segment
  deriving DecidableEq, Repr

namespace CallForm

/-- The form of a call to a name, if the name carries text. -/
def ofName? (name : String) : Option CallForm :=
  if name = "text" then some paragraph
  else if name = "minilines" then some lines
  else if name = "mini_line" then some line
  else if name = "str_block" then some block
  else if name = "str_seg" then some segment
  else none

/-- How data writes a form. -/
def tag : CallForm → String
  | paragraph => "Paragraph"
  | lines => "Lines"
  | line => "Line"
  | block => "Block"
  | segment => "Segment"

end CallForm

end DrawScript
