import DrawScript.Parser.Rules
import DrawScript.Tree.Render

/-!
# Documents

A document is a source text with its tree and everything that was remarked about it.
-/

namespace DrawScript

/-- A parsed source text. -/
structure Document where
  source : String
  program : Program
  diagnostics : List Diagnostic
  /-- What the parser remarked on the way. -/
  log : List LogRecord

namespace Document

/-- Parses a source text. This always gives a tree, if only of the sound parts. -/
def ofSource (source : String) : Document :=
  let (program, s) := Parser.program (.ofSource source)
  ⟨source, program, s.diagnostics.toList, s.log.toList⟩

theorem program_ofSource (source : String) :
    (ofSource source).program = (Parser.program (.ofSource source)).1 := rfl

theorem diagnostics_ofSource (source : String) :
    (ofSource source).diagnostics = (Parser.program (.ofSource source)).2.diagnostics.toList := rfl

/-- Was there nothing wrong? -/
def isClean (document : Document) : Bool :=
  document.diagnostics.isEmpty

/-- The diagnostics in words. -/
def errors (document : Document) : List String :=
  document.diagnostics.map (·.message)

end Document

end DrawScript
