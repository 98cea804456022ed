import DrawScript.Settings.Layer
import DrawScript.Extraction.Basic

/-!
# Settings

What can be adjusted: the format of the output, whether faulty scripts are refused, and how text is
extracted. Settings come from three layers: the defaults, a file, and single keys that override
both. Values are converted as far as that makes sense, so `strict = 1` and `strict = "yes"` both
turn strictness on.
-/

namespace DrawScript

/-- Everything that can be adjusted. -/
structure Settings where
  /-- The name of the output format. -/
  format : String
  /-- Refuse output for scripts with diagnostics? -/
  strict : Bool
  extractor : Extractor
  deriving DecidableEq, Repr

namespace Settings

/-- Why settings could not be loaded. -/
inductive LoadError where
  /-- The key of an override is no path. -/
  | badPath
  | fileNotFound
  /-- The file is not well formed. -/
  | badFile
  /-- A value cannot be converted to what the setting needs. -/
  | badType
  /-- A section is no table. -/
  | badSection
  /-- A path leads to an element that a list cannot have. -/
  | badIndex (fault : IndexFault)
  deriving DecidableEq, Repr

/-- The fault in words. -/
def IndexFault.message : IndexFault → String
  | beforeStart => "attempt to subtract with overflow"
  | beyondCapacity => "capacity overflow"

/-- The error in words. -/
def LoadError.message : LoadError → String
  | badPath => "the key of an override is not a path"
  | fileNotFound => "the settings file was not found"
  | badFile => "the settings file is not well formed"
  | badType => "a setting has a value of the wrong type"
  | badSection => "a section of the settings is not a table"
  | badIndex fault => fault.message

/-! ## Conversions -/

namespace Value

/-- A value as text: strings, truth values and numbers. -/
def toText? : Value → Option String
  | text value => some value
  | boolean value => some (if value then "true" else "false")
  | integer value => some value.repr
  | real value => some value.setting
  | _ => none

/-- A value as a truth value: numbers by being zero or not, strings by the usual words in any case.
The words are ASCII, so ASCII case is all that counts. -/
def toBool? : Value → Option Bool
  | boolean value => some value
  | integer value => some (value != 0)
  | real value => some (!value.isZero)
  | text value =>
    let word := value.toLower
    if ["1", "true", "on", "yes"].contains word then some true
    else if ["0", "false", "off", "no"].contains word then some false
    else none
  | _ => none

/-- A part of a section, by its name if the section is a table and by its place if it is a list. -/
def part (root : Value) (sectionName name : String) (place : Nat) : Except LoadError Value :=
  let found := match root.get? sectionName with
    | some (.table entries) => entries.lookup name
    | some (.list items) => items[place]?
    | _ => none
  match found with
  | some value => .ok value
  | none => .error .badSection

/-- A part of a section as text. -/
def textPart (root : Value) (sectionName name : String) (place : Nat) :
    Except LoadError String := do
  match (← root.part sectionName name place).toText? with
  | some value => .ok value
  | none => .error .badType

/-- A part of a section as a truth value. -/
def boolPart (root : Value) (sectionName name : String) (place : Nat) : Except LoadError Bool := do
  match (← root.part sectionName name place).toBool? with
  | some value => .ok value
  | none => .error .badType

end Value

/-! ## Loading -/

/-- The values that hold if nothing else is said. -/
def defaults : Value :=
  .table [
    ("output", .table [("format", .text "json")]),
    ("parsing", .table [("strict", .boolean false)]),
    ("extraction", .table [("grouping_separator", .text " "), ("report_anomalies", .boolean true)])]

/-- The settings that a table of values describes. -/
def ofValue (root : Value) : Except LoadError Settings := do
  let format ← root.textPart "output" "format" 0
  let strict ← root.boolPart "parsing" "strict" 0
  let separator ← root.textPart "extraction" "grouping_separator" 0
  let report ← root.boolPart "extraction" "report_anomalies" 1
  return ⟨format, strict, ⟨separator, report⟩⟩

/-- The paths of overrides. -/
def readOverrides (overrides : List (String × Value)) : Except LoadError (List (KeyPath × Value)) :=
  overrides.mapM fun (key, value) ↦
    match KeyPath.ofString? key with
    | some path => .ok (path, value)
    | none => .error .badPath

/-- Lays the text of a file over what is set. -/
def addFile (root : Value) : Option String → Except LoadError Value
  | none => .error .fileNotFound
  | some text =>
    match Toml.parse text with
    | none => .error .badFile
    | some entries => (root.layer (Value.ofTomlEntries entries)).mapError .badIndex

/-- Loads settings from the texts of files, a file that is missing being `none`, and from overrides.
The paths of the overrides are checked first. -/
def load (files : List (Option String)) (overrides : List (String × Value)) :
    Except LoadError Settings := do
  let overrides ← readOverrides overrides
  let root ← files.foldlM addFile defaults
  let root ← overrides.foldlM
    (fun (root : Value) (path, value) ↦ (root.set path value).mapError LoadError.badIndex) root
  ofValue root

/-- The settings that hold if nothing else is said. -/
def default : Settings :=
  ⟨"json", false, .default⟩

end Settings

end DrawScript
