/-!
# Arguments

The command line names an input, the format of the output, a settings file and whether faulty
scripts are refused. Options may stand anywhere before `--`; behind it everything is a path. The
word `strings` starts a command of its own, which has its own path and shares only the settings
options.

Arguments are read from left to right and the first thing that decides the outcome wins: a request
for help or for the version, or a mistake.
-/

namespace DrawScript.CommandLine

/-- The commands that have options of their own. -/
inductive Command where
  | convert
  | strings
  deriving DecidableEq, Repr

/-- The options given to a command. -/
structure Options where
  path : Option String := none
  format : Option String := none
  settingsFile : Option String := none
  strict : Bool := false
  listFormats : Bool := false
  deriving DecidableEq, Repr

/-- What the command line asks for. -/
inductive Request where
  | help (command : Command)
  | version
  | run (command : Command) (options : Options)
  /-- The arguments make no sense. -/
  | mistake
  deriving DecidableEq, Repr

/-- The options that take a value. -/
inductive ValueOption where
  | format
  | settingsFile
  deriving DecidableEq, Repr

/-- What a single argument is. -/
inductive Word where
  /-- The mark that ends the options. -/
  | separator
  /-- An option with its value, which may be the next argument. -/
  | value (option : ValueOption) (attached : Option String)
  | strict
  | listFormats
  | help
  | version
  /-- Something that looks like an option and is none. -/
  | unknown
  | plain (text : String)
  deriving DecidableEq, Repr

/-- A long option, its value behind an equals sign. -/
def longWord (command : Command) (body : List Char) : Word :=
  let name := String.ofList (body.takeWhile (· != '='))
  let attached := match body.dropWhile (· != '=') with
    | [] => none
    | _ :: value => some (String.ofList value)
  match name, attached with
  | "config", _ => .value .settingsFile attached
  | "strict", none => .strict
  | "help", none => .help
  | "format", _ => if command = .convert then .value .format attached else .unknown
  | "list-formats", none => if command = .convert then .listFormats else .unknown
  | "version", none => if command = .convert then .version else .unknown
  | _, _ => .unknown

/-- The value that stands right behind the letter of an option. -/
def attachedValue : List Char → Option String
  | [] => none
  | '=' :: value => some (String.ofList value)
  | value => some (String.ofList value)

/-- A short option, its value right behind it. -/
def shortWord (command : Command) : List Char → Word
  | 'c' :: rest => .value .settingsFile (attachedValue rest)
  | 'h' :: _ => .help
  | 'f' :: rest => if command = .convert then .value .format (attachedValue rest) else .unknown
  | 'V' :: _ => if command = .convert then .version else .unknown
  | _ => .unknown

/-- What an argument is for a command. A single hyphen is no option. -/
def wordOf (command : Command) (argument : String) : Word :=
  match argument.toList with
  | ['-', '-'] => .separator
  | '-' :: '-' :: body => longWord command body
  | '-' :: c :: rest => shortWord command (c :: rest)
  | _ => .plain argument

namespace Options

/-- Sets the path, of which there is only one. -/
def addPath (options : Options) (path : String) : Option Options :=
  if options.path.isSome then none else some { options with path := some path }

/-- Sets the value of an option, which may be given once. -/
def addValue (options : Options) (option : ValueOption) (value : String) : Option Options :=
  match option with
  | .format =>
    if options.format.isSome then none else some { options with format := some value }
  | .settingsFile =>
    if options.settingsFile.isSome then none else some { options with settingsFile := some value }

/-- Turns strictness on, which may be done once. -/
def addStrict (options : Options) : Option Options :=
  if options.strict then none else some { options with strict := true }

/-- Asks for the list of formats, which may be done once. -/
def addListFormats (options : Options) : Option Options :=
  if options.listFormats then none else some { options with listFormats := true }

/-- The options of the inner command together with those given before it; of two settings files the
inner one counts. -/
def within (inner outer : Options) : Options :=
  { inner with
    settingsFile := inner.settingsFile <|> outer.settingsFile
    strict := inner.strict || outer.strict
    listFormats := inner.listFormats || outer.listFormats }

end Options

/-- Paths alone, behind the mark that ends the options. -/
def readPaths (options : Options) : List String → Option Options
  | [] => some options
  | path :: rest => do readPaths (← options.addPath path) rest

/-- What the word `help` and the words behind it ask for. -/
def helpRequest : List String → Request
  | [] => .help .convert
  | ["strings"] => .help .strings
  | _ => .mistake

/-- Reads the arguments of a command that has got some options already; `outer` are the options that
stood before the command. -/
def readWords (command : Command) (outer options : Options) : List String → Request
  | [] => .run command (options.within outer)
  | argument :: rest =>
    match wordOf command argument with
    | .unknown => .mistake
    | .help => .help command
    | .version => .version
    | .separator =>
      match readPaths options rest with
      | some options => .run command (options.within outer)
      | none => .mistake
    | .strict =>
      match options.addStrict with
      | some options => readWords command outer options rest
      | none => .mistake
    | .listFormats =>
      match options.addListFormats with
      | some options => readWords command outer options rest
      | none => .mistake
    | .value option (some value) =>
      match options.addValue option value with
      | some options => readWords command outer options rest
      | none => .mistake
    | .value option none =>
      match rest with
      | [] => .mistake
      | value :: rest =>
        match wordOf command value, options.addValue option value with
        | .plain _, some options => readWords command outer options rest
        | _, _ => .mistake
    | .plain text =>
      if command = .convert ∧ text = "strings" then readWords .strings options {} rest
      else if command = .convert ∧ text = "help" then helpRequest rest
      else
        match options.addPath text with
        | some options => readWords command outer options rest
        | none => .mistake

/-- What the arguments ask for. -/
def readArguments (arguments : List String) : Request :=
  readWords .convert {} {} arguments

end DrawScript.CommandLine
