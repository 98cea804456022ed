import DrawScript.Format.Builtin

/-!
# The registry of formats

Formats are found by name. Registering a format under a name that is taken replaces the one before
it. The formatters are kept in the order of their names, which is the order in which they are
listed.
-/

namespace DrawScript

/-- Formats in the order of their names. -/
structure Registry where
  formatters : List Formatter

namespace Registry

/-- No formats. -/
def empty : Registry := ⟨[]⟩

/-- Inserts a formatter into an ordered list, in place of one with the same name. -/
def insert (formatter : Formatter) : List Formatter → List Formatter
  | [] => [formatter]
  | f :: fs =>
    if formatter.name < f.name then formatter :: f :: fs
    else if formatter.name = f.name then formatter :: fs
    else f :: insert formatter fs

/-- Adds a format, replacing any of the same name. -/
def register (registry : Registry) (formatter : Formatter) : Registry :=
  ⟨insert formatter registry.formatters⟩

/-- The format with a name. -/
def get? (registry : Registry) (name : String) : Option Formatter :=
  registry.formatters.find? fun formatter ↦ formatter.name == name

/-- Is there a format with this name? -/
def contains (registry : Registry) (name : String) : Bool :=
  (registry.get? name).isSome

/-- The names of all formats, in order. -/
def names (registry : Registry) : List String :=
  registry.formatters.map (·.name)

/-- Writes a document in the named format. -/
def serialize (registry : Registry) (document : Document) (name : String) :
    Except FormatError Output :=
  match registry.get? name with
  | some formatter => formatter.serialize document
  | none => .error (.formatNotFound name)

/-- The formats of the library, with text extracted in the given way. -/
def withExtractor (extractor : Extractor) : Registry :=
  [Format.json, Format.yaml, Format.tokens, Format.treeviz, Format.render,
    Format.strings extractor].foldl register empty

/-- The formats of the library. -/
def default : Registry :=
  withExtractor .default

end Registry

end DrawScript
