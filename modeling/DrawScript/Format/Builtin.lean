import DrawScript.Format.Basic
import DrawScript.Datum.Json
import DrawScript.Datum.Yaml
import DrawScript.Outline.Drawing
import DrawScript.Extraction.Basic

/-!
# The formats of the library

Three formats write the tree or the tokens as data, one draws the outline, and two write plain text:
the canonical text of the script, and the text of the drawing itself.
-/

namespace DrawScript.Format

/-- A format that cannot fail and has nothing to remark. -/
def quiet (name description : String) (write : Document → String) : Formatter :=
  ⟨name, description, fun document ↦ .ok ⟨write document, []⟩⟩

/-- The tree as JSON. -/
def json : Formatter :=
  quiet "json" "The syntax tree as indented JSON" fun document ↦ document.program.toDatum.toJson

/-- The tree as YAML. -/
def yaml : Formatter :=
  quiet "yaml" "The syntax tree as YAML" fun document ↦ document.program.toDatum.toYaml

/-- The tokens of a source as JSON, the end mark included. -/
def tokensText (source : String) : String :=
  (Datum.list ((Token.tokenize source).map Token.toDatum)).toJson

/-- The token stream as JSON. -/
def tokens : Formatter :=
  quiet "tokens" "The token stream as JSON" fun document ↦ tokensText document.source

/-- The drawing of the outline. -/
def treeviz : Formatter :=
  quiet "treeviz" "Visual tree representation with box drawing connectors and Unicode icons"
    fun document ↦ document.program.outline.draw

/-- A text with a line feed at its end, unless it is empty or has one. -/
def closeLine (text : String) : String :=
  if text.isEmpty || text.toList.getLast? == some '\n' then text else text ++ "\n"

/-- The canonical text. -/
def render : Formatter :=
  quiet "render" "Canonical, fully parenthesized source" fun document ↦
    closeLine document.program.render

/-- Strings, a line feed behind each. -/
def stringLines (strings : List String) : String :=
  String.join (strings.map (· ++ "\n"))

/-- The text of the drawing, a string a line. -/
def strings (extractor : Extractor) : Formatter where
  name := "strings"
  description := "Literal text of tgif text objects, one string per line"
  serialize document :=
    let extraction := extractor.extract document.program
    .ok ⟨stringLines extraction.strings, extraction.log⟩

end DrawScript.Format
