/-!
# Reading source text

Drawings are read line by line. A line ends at a line feed, a carriage return right before the line
feed belongs to the line ending, and every line must be text on its own. What is kept is the text of
the lines, each closed by a line feed, whether the last one had it or not.
-/

namespace DrawScript

/-- Why bytes could not be read. -/
inductive ReadFailure where
  | notFound
  | isDirectory
  | notADirectory
  /-- The bytes are not text. -/
  | invalidData
  deriving DecidableEq, Repr

/-- The failure in words. -/
def ReadFailure.message : ReadFailure → String
  | notFound => "No such file or directory (os error 2)"
  | isDirectory => "Is a directory (os error 21)"
  | notADirectory => "Not a directory (os error 20)"
  | invalidData => "stream did not contain valid UTF-8"

namespace Source

/-- The byte that ends a line. -/
def lineFeed : UInt8 := 0x0a

/-- The byte that may stand before the end of a line. -/
def carriageReturn : UInt8 := 0x0d

/-- A line as it was read. -/
structure Line where
  bytes : List UInt8
  /-- Did a line feed end it? Only the last line can lack one. -/
  terminated : Bool
  deriving DecidableEq, Repr

/-- The lines of a byte sequence. -/
def lines (bytes : List UInt8) : List Line :=
  match _h : bytes.dropWhile (· != lineFeed) with
  | [] => if bytes.isEmpty then [] else [⟨bytes, false⟩]
  | _ :: rest => ⟨bytes.takeWhile (· != lineFeed), true⟩ :: lines rest
termination_by bytes.length
decreasing_by
  have shorter := (List.dropWhile_suffix (l := bytes) (· != lineFeed)).length_le
  rw [_h] at shorter
  exact shorter

/-- The content of a line, without its line ending. -/
def Line.content (line : Line) : List UInt8 :=
  if line.terminated ∧ line.bytes.getLast? = some carriageReturn then line.bytes.dropLast
  else line.bytes

/-- The text of a line, if it is text. -/
def Line.text? (line : Line) : Option String :=
  String.fromUTF8? ⟨line.content.toArray⟩

/-- The text of a byte sequence, every line closed by a line feed. -/
def read (bytes : List UInt8) : Except ReadFailure String :=
  match (lines bytes).mapM Line.text? with
  | some texts => .ok (String.join (texts.map (· ++ "\n")))
  | none => .error .invalidData

end Source

end DrawScript
