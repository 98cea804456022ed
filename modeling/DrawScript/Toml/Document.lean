import DrawScript.Toml.Table
import DrawScript.Toml.Tagged

/-!
# Settings files

A file is a sequence of lines: blank, a comment, the header of a table, or a key with its value. A
value may span several lines if it is an array or a long string; comments and blanks may stand
between the parts of an array, but not inside an inline table.

`Toml.parse` gives the entries of the outermost table, or nothing if the file is not well formed.
-/

namespace DrawScript.Toml

/-- The number of collections that may be nested, and of parts that a key may have. -/
def depthLimit : Nat := 79

/-! ## Between values -/

/-- Drops blanks, line breaks and comments; `inComment` tells that a comment is being dropped. -/
def skipTrivia : (inComment : Bool) → List Char → Option (List Char)
  | _, [] => some []
  | _, '\r' :: '\n' :: rest => skipTrivia false rest
  | inComment, c :: rest =>
    if c == '\n' then skipTrivia false rest
    else if inComment then if isTextChar c then skipTrivia true rest else none
    else if isBlank c then skipTrivia false rest
    else if c == '#' then skipTrivia true rest
    else some (c :: rest)

/-- The end of a line: blanks, perhaps a comment, and a line break or the end of the file. -/
def lineEnd : (inComment : Bool) → List Char → Option (List Char)
  | _, [] => some []
  | _, '\n' :: rest | _, '\r' :: '\n' :: rest => some rest
  | inComment, c :: rest =>
    if inComment then if isTextChar c then lineEnd true rest else none
    else if isBlank c then lineEnd false rest
    else if c == '#' then lineEnd true rest
    else none

/-! ## Keys -/

/-- A character of a key without quotes. -/
def isKeyChar (c : Char) : Bool :=
  ('A' ≤ c && c ≤ 'Z') || ('a' ≤ c && c ≤ 'z') || isDigit c || c == '_' || c == '-'

/-- One part of a key. -/
def simpleKey : Reader String := fun text ↦
  match text with
  | '"' :: rest => (basicBody rest).map fun (cs, rest) ↦ (String.ofList cs, rest)
  | '\'' :: rest => (literalBody rest).map fun (cs, rest) ↦ (String.ofList cs, rest)
  | _ =>
    let name := text.takeWhile isKeyChar
    if name.isEmpty then none else some (String.ofList name, text.dropWhile isKeyChar)

/-- A key of at most `bound` parts with periods between them, blanks around each dropped. -/
def keyParts : (bound : Nat) → Reader (List String)
  | 0, _ => none
  | bound + 1, text => do
    let (name, text) ← simpleKey (text.dropWhile isBlank)
    match text.dropWhile isBlank with
    | '.' :: rest =>
      let (names, rest) ← keyParts bound rest
      some (name :: names, rest)
    | rest => some ([name], rest)

/-- A dotted key. -/
def key : Reader (List String) :=
  keyParts depthLimit

/-! ## Values -/

/-- The rest of an array: values with commas between them, the last of which may have one too. -/
def arrayItems (item : Reader Value) : (bound : Nat) → Reader (List Value)
  | 0, _ => none
  | bound + 1, text => do
    match ← skipTrivia false text with
    | ']' :: rest => some ([], rest)
    | text =>
      let (value, text) ← item text
      match ← skipTrivia false text with
      | ',' :: rest =>
        let (values, rest) ← arrayItems item bound rest
        some (value :: values, rest)
      | ']' :: rest => some ([value], rest)
      | _ => none

/-- A key, the equals sign and a value, blanks around them dropped. -/
def keyValue (item : Reader Value) : Reader (List String × Value) := fun text ↦ do
  let (path, text) ← key text
  let ((), text) ← expect '=' text
  let (value, text) ← item (text.dropWhile isBlank)
  some ((path, value), text.dropWhile isBlank)

/-- The rest of an inline table that has entries, added to those read already. -/
def tableItems (item : Reader Value) : (bound : Nat) → Table → Reader Table
  | 0, _, _ => none
  | bound + 1, table, text => do
    let ((path, value), text) ← keyValue item text
    let table ← table.addDotted path value
    match text with
    | ',' :: rest => tableItems item bound table rest
    | '\x7d' :: rest => some (table, rest)
    | _ => none

/-- The rest of an inline table. -/
def inlineTable (item : Reader Value) : Reader Value := fun text ↦
  match text.dropWhile isBlank with
  | '\x7d' :: rest => some (.table [], rest)
  | text => (tableItems item text.length .fresh text).map fun (table, rest) ↦
      (table.toItem.toValue, rest)

/-- A value in which collections are nested less than `room` deep. -/
def value : (room : Nat) → Reader Value
  | 0, text => scalar text
  | room + 1, text =>
    match text with
    | '[' :: rest => (arrayItems (value room) rest.length rest).map fun (vs, rest) ↦
        (.array vs, rest)
    | '\x7b' :: rest => inlineTable (value room) rest
    | _ => scalar text

/-! ## Files -/

/-- A file that has been read in part: the tables that are complete, and the one at work with the
path of its header. -/
structure Progress where
  root : Table
  current : Table
  path : List String
  /-- Is the table at work an element of an array? -/
  inSeries : Bool

namespace Progress

/-- Before the first line. -/
def start : Progress := ⟨.fresh, .fresh, [], false⟩

/-- Puts the table at work where it belongs. -/
def close (progress : Progress) : Option Table :=
  match progress.path.getLast? with
  | none => some progress.current
  | some key =>
    progress.root.modifyAt false
      (fun parent ↦
        match progress.inSeries, parent.get? key with
        | true, none => some (parent.put key (.series [progress.current.entries]))
        | true, some (.series tables) =>
          some (parent.put key (.series (progress.current.entries :: tables)))
        | false, none => some (parent.put key progress.current.toItem)
        | false, some (.table true _ _) => some (parent.put key progress.current.toItem)
        | _, _ => none)
      progress.path.dropLast

/-- Opens the table of a header. A table that was only implied keeps what it has. -/
def openTable (path : List String) (progress : Progress) : Option Progress := do
  let root ← progress.close
  let key ← path.getLast?
  let opened (parent : Table) : Option (List (String × Item)) :=
    match parent.get? key with
    | none => some []
    | some (.table true false entries) => some entries
    | _ => none
  let entries ← entriesAt opened path.dropLast root
  let root ← root.modifyAt false
    (fun parent ↦ (opened parent).map fun _ ↦ parent.erase key) path.dropLast
  some ⟨root, ⟨false, false, entries⟩, path, false⟩
where
  /-- What can be said of the table at the end of a path. -/
  entriesAt (view : Table → Option (List (String × Item))) :
      List String → Table → Option (List (String × Item))
    | [], table => view table
    | key :: path, table =>
      match table.get? key with
      | none => entriesAt view path ⟨true, false, []⟩
      | some (.series (latest :: _)) => entriesAt view path ⟨false, false, latest⟩
      | some (.table implied dotted entries) => entriesAt view path ⟨implied, dotted, entries⟩
      | _ => none

/-- Opens a new table of an array. -/
def openSeries (path : List String) (progress : Progress) : Option Progress := do
  let root ← progress.close
  let key ← path.getLast?
  let root ← root.modifyAt false
    (fun parent ↦
      match parent.get? key with
      | none => some (parent.put key (.series []))
      | some (.series _) => some parent
      | _ => none)
    path.dropLast
  some ⟨root, .fresh, path, true⟩

/-- Adds a key to the table at work. -/
def add (path : List String) (value : Value) (progress : Progress) : Option Progress := do
  some { progress with current := ← progress.current.addDotted path value }

end Progress

/-- One line that is not blank, and the progress it makes. -/
def line (progress : Progress) (text : List Char) : Option (Progress × List Char) := do
  match text with
  | '[' :: '[' :: rest =>
    let (path, rest) ← key rest
    let ((), rest) ← expect ']' rest
    let ((), rest) ← expect ']' rest
    some (← progress.openSeries path, ← lineEnd false rest)
  | '[' :: rest =>
    let (path, rest) ← key rest
    let ((), rest) ← expect ']' rest
    some (← progress.openTable path, ← lineEnd false rest)
  | _ =>
    let ((path, v), rest) ← keyValue (value depthLimit) text
    some (← progress.add path v, ← lineEnd false rest)

/-- The lines of a file, in at most `bound` rounds. -/
def linesWithin : (bound : Nat) → Progress → List Char → Option Progress
  | 0, progress, text => if text.isEmpty then some progress else none
  | bound + 1, progress, text => do
    match ← skipTrivia false text with
    | [] => some progress
    | text =>
      let (progress, rest) ← line progress text
      linesWithin bound progress rest

/-- The entries of a settings file, if it is well formed. A mark for the order of bytes in front of
the text is dropped. The file as a whole is a table and never a moment. -/
def parse (file : String) : Option (List (String × Value)) := do
  let text := match file.toList with
    | '\ufeff' :: rest => rest
    | text => text
  let progress ← linesWithin (text.length + 1) .start text
  let root ← progress.close
  let entries := Item.toEntries root.entries
  if (tagged? entries).isSome then none else Value.untagEntries entries

end DrawScript.Toml
