import DrawScript.Document

/-!
# Output formats

A format turns a document into text under a name. Formats are values, so a registry can hold the
ones that come with the library and any others side by side.
-/

namespace DrawScript

/-- What a format produces. -/
structure Output where
  text : String
  /-- What was remarked while producing it. -/
  log : List LogRecord
  deriving DecidableEq, Repr

/-- Why a format produced nothing. -/
inductive FormatError where
  | formatNotFound (name : String)
  | serialization (reason : String)
  deriving DecidableEq, Repr

/-- The error in words. -/
def FormatError.message : FormatError → String
  | formatNotFound name => "Format '" ++ name ++ "' not found"
  | serialization reason => "Serialization error: " ++ reason

/-- A named way to write documents. -/
structure Formatter where
  name : String
  /-- One line for the list of formats. -/
  description : String
  serialize : Document → Except FormatError Output

end DrawScript
