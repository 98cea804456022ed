import DrawScript.CommandLine.Arguments
import DrawScript.Converter

/-!
# The command line tool

The tool reads a drawing, reports what is wrong with it, and prints it in the requested format. It
touches the outside through two operations only, reading a file and reading the standard input, so
what it answers is a function of the arguments and of what those give.
-/

namespace DrawScript.CommandLine

/-- What the tool can ask its surroundings for. -/
structure World (m : Type → Type) where
  fileBytes : String → m (Except ReadFailure (List UInt8))
  inputBytes : m (List UInt8)

/-- The answer of the tool. -/
structure Response where
  code : UInt32
  stdout : String
  stderr : String
  deriving DecidableEq, Repr

/-- The name and version of the tool. -/
def versionText : String := "tgifer 0.1.0\n"

/-- Lines, each closed by a line feed. -/
def ofLines (lines : List String) : String :=
  String.join (lines.map (· ++ "\n"))

/-- How to use the tool. -/
def helpText : Command → String
  | .convert => ofLines [
    "A tool for inspecting tgif object files and extracting their text",
    "",
    "Usage: tgifer [OPTIONS] [path] [COMMAND]",
    "",
    "Commands:",
    "  strings  Print the literal text of every text object, one string per line",
    "  help     Print this message or the help of the given subcommand(s)",
    "",
    "Arguments:",
    "  [path]  Path to the tgif file (reads stdin when omitted)",
    "",
    "Options:",
    "  -f, --format <format>  Output format (e.g., 'json', 'treeviz', 'strings'); defaults to " ++
      "the configured one",
    "  -c, --config <config>  Configuration file layered over the built-in defaults",
    "      --strict           Refuse to produce output when the parser reports any diagnostic",
    "      --list-formats     List available output formats",
    "  -h, --help             Print help",
    "  -V, --version          Print version"]
  | .strings => ofLines [
    "Print the literal text of every text object, one string per line",
    "",
    "Usage: tgifer strings [OPTIONS] [path]",
    "",
    "Arguments:",
    "  [path]  Path to the tgif file (reads stdin when omitted)",
    "",
    "Options:",
    "  -c, --config <config>  Configuration file layered over the built-in defaults",
    "      --strict           Refuse to produce output when the parser reports any diagnostic",
    "  -h, --help             Print help"]

/-- What is said when the arguments make no sense. -/
def usageText : String :=
  ofLines [
    "error: invalid arguments",
    "",
    "Usage: tgifer [OPTIONS] [path] [COMMAND]",
    "",
    "For more information, try '--help'."]

/-- A log line. The lines of a message behind the first are indented. -/
def logLine (record : LogRecord) : String :=
  "[" ++ record.level.name ++ "  tgifer::tgif::extraction] " ++
    String.join (record.message.toList.map fun c ↦
      if c = '\n' then "\n    " else c.toString) ++ "\n"

/-- The log lines that are shown: warnings, but not the explanations of decisions. -/
def shownLog (log : List LogRecord) : String :=
  String.join ((log.filter fun record ↦ record.level == .warn).map logLine)

/-- What is wrong with a document. -/
def diagnosticReport (document : Document) : String :=
  if document.isClean then ""
  else
    "Parser has " ++ document.diagnostics.length.repr ++ " diagnostic(s)\n" ++
      String.join (document.errors.map fun message ↦ "\t" ++ message ++ "\n")

/-- The names of the formats, a line each. -/
def formatNames (registry : Registry) : String :=
  "\nAvailable formats:\n" ++ String.join (registry.names.map fun name ↦ "  " ++ name ++ "\n")

/-- The formats with their descriptions. -/
def formatList (registry : Registry) : String :=
  "Available formats:\n\n" ++
    String.join (registry.formatters.map fun formatter ↦
      "  " ++ formatter.name ++ "\n    " ++ formatter.description ++ "\n\n")

/-- Writes a document and what is to be said about it. -/
def present (converter : Converter) (format : String) (document : Document) : Response :=
  let report := diagnosticReport document
  match converter.serialize document format with
  | .ok output => ⟨0, output.text, report ++ shownLog output.log⟩
  | .error (.rejected _) => ⟨1, "", report⟩
  | .error error =>
    ⟨1, "", report ++ "Error: " ++ error.message ++ "\n" ++ formatNames converter.registry⟩

/-- Drops the slashes, and the dots that stand for the directory before them, from the end of a
path; the characters are given last first. -/
def dropSlashes : List Char → List Char
  | '/' :: rest => dropSlashes rest
  | '.' :: '/' :: rest => dropSlashes rest
  | rest => rest

/-- The path of a settings file with its extension added; none if the path does not end in a
name. -/
def withExtension? (path : String) : Option String :=
  match dropSlashes path.toList.reverse with
  | [] | ['.'] | ['.', '.'] | '.' :: '.' :: '/' :: _ => none
  | last => some (String.ofList last.reverse ++ ".toml")

section

variable {m : Type → Type} [Monad m]

/-- The text of a settings file, which may be named without its extension. -/
def readSettingsFile (world : World m) (path : String) : m (Option String) := do
  match ← world.fileBytes path with
  | .ok bytes => return String.fromUTF8? ⟨bytes.toArray⟩
  | .error _ =>
    match withExtension? path with
    | none => return none
    | some path =>
      match ← world.fileBytes path with
      | .ok bytes => return String.fromUTF8? ⟨bytes.toArray⟩
      | .error _ => return none

/-- The settings that the options ask for. -/
def loadSettings (world : World m) (options : Options) :
    m (Except Settings.LoadError Settings) := do
  let overrides : List (String × Settings.Value) :=
    if options.strict then [("parsing.strict", .boolean true)] else []
  match options.settingsFile with
  | none => return Settings.load [] overrides
  | some path => return Settings.load [← readSettingsFile world path] overrides

/-- Reads the drawing at a path, or from the standard input. -/
def readDocument (world : World m) (path : Option String) : m (Except InputError Document) := do
  match path with
  | some path => return Converter.openFile path (← world.fileBytes path)
  | none => return Converter.openStream (← world.inputBytes)

/-- Runs a command. Settings with a path that no list can follow break the run off, which has an
exit code of its own. -/
def runCommand (world : World m) (command : Command) (options : Options) : m Response := do
  match ← loadSettings world options with
  | .error (.badIndex fault) => return ⟨101, "", fault.message ++ "\n"⟩
  | .error error => return ⟨1, "", "Configuration error: " ++ error.message ++ "\n"⟩
  | .ok settings =>
    let converter := Converter.ofSettings settings
    if options.listFormats then return ⟨0, formatList converter.registry, ""⟩
    else
      let format := match command with
        | .strings => "strings"
        | .convert => options.format.getD settings.format
      match ← readDocument world options.path with
      | .error error => return ⟨1, "", "Error: " ++ error.message ++ "\n"⟩
      | .ok document => return present converter format document

/-- Answers a command line. -/
def run (world : World m) (arguments : List String) : m Response := do
  match readArguments arguments with
  | .help command => return ⟨0, helpText command, ""⟩
  | .version => return ⟨0, versionText, ""⟩
  | .mistake => return ⟨2, "", usageText⟩
  | .run command options => runCommand world command options

end

end DrawScript.CommandLine
