import DrawScript.Format.Registry
import DrawScript.Settings.Basic
import DrawScript.Source

/-!
# Converting drawings

A converter reads drawings and writes them in one of its formats. If it is strict it refuses to
write a document that has diagnostics, whatever the format.
-/

namespace DrawScript

/-- Reads drawings and writes them in one of its formats. -/
structure Converter where
  registry : Registry
  strict : Bool

/-- Why a drawing was not read. -/
inductive InputError where
  /-- A named file could not be read. -/
  | file (path : String) (cause : ReadFailure)
  /-- The standard input could not be read. -/
  | stream (cause : ReadFailure)
  deriving DecidableEq, Repr

/-- The error in words. -/
def InputError.message : InputError → String
  | file path cause => "Failed to read " ++ path ++ ": " ++ cause.message
  | stream cause => "Failed to read input: " ++ cause.message

/-- Why a document was not written. -/
inductive WriteError where
  /-- The converter is strict and the document has these diagnostics. -/
  | rejected (diagnostics : List String)
  | format (error : FormatError)
  deriving DecidableEq, Repr

/-- The error in words. -/
def WriteError.message : WriteError → String
  | rejected diagnostics =>
    "Refusing to produce output: " ++ diagnostics.length.repr ++ " parse diagnostic(s)"
  | format error => error.message

namespace Converter

/-- The converter that is not strict and has the formats of the library. -/
def default : Converter := ⟨.default, false⟩

/-- The converter that settings ask for. -/
def ofSettings (settings : Settings) : Converter :=
  ⟨.withExtractor settings.extractor, settings.strict⟩

/-- Reads a drawing from the bytes of a stream. -/
def openStream (bytes : List UInt8) : Except InputError Document :=
  match Source.read bytes with
  | .ok source => .ok (.ofSource source)
  | .error cause => .error (.stream cause)

/-- Reads a drawing from the content of a file. -/
def openFile (path : String) (content : Except ReadFailure (List UInt8)) :
    Except InputError Document :=
  match content >>= Source.read with
  | .ok source => .ok (.ofSource source)
  | .error cause => .error (.file path cause)

/-- Writes a document in the named format. -/
def serialize (converter : Converter) (document : Document) (format : String) :
    Except WriteError Output :=
  if converter.strict && !document.isClean then .error (.rejected document.errors)
  else
    match converter.registry.serialize document format with
    | .ok output => .ok output
    | .error error => .error (.format error)

/-- Parses a source text and writes it in the named format. -/
def execute (converter : Converter) (source format : String) : Except WriteError Output :=
  converter.serialize (.ofSource source) format

end Converter

end DrawScript
