import DrawScript.Extraction.Vocabulary
import DrawScript.Tree.Render
import DrawScript.Log

/-!
# Extracting the text of a drawing

The tree is walked from left to right and the text of its text objects collected: a segment gives
its last argument, a container the strings of its array arguments, and a paragraph joins the strings
of each array argument and gives all of them as one string. Literals outside segments are geometry
and style and give nothing.

The walk also tells what it came across: nodes that should never stand where text is looked for, and
calls whose name is not in the vocabulary. It never goes below such a node. A `Harvest` is what a
part of the tree yields, and the harvest of a sequence is the sum of the harvests of its parts, so
strings and findings come in the order of the walk.
-/

namespace DrawScript

/-- A node that has no place where text is looked for. -/
structure Anomaly where
  type : NodeType
  /-- The canonical text of the node. -/
  text : String
  deriving DecidableEq, Repr

/-- An anomaly in words. -/
def Anomaly.message (anomaly : Anomaly) : String :=
  "unsupported: " ++ anomaly.text ++ " [" ++ anomaly.type.name ++ "]"

/-- Something that the walk came across and did not look into. -/
inductive Finding where
  | anomaly (anomaly : Anomaly)
  /-- A call outside the vocabulary, by the canonical text of its callee. -/
  | skippedCall (callee : String)
  deriving DecidableEq, Repr

namespace Finding

/-- The anomaly, if the finding is one. -/
def anomaly? : Finding → Option Anomaly
  | anomaly a => some a
  | skippedCall _ => none

/-- What the log says of a finding. Anomalies are logged only if they are to be reported. -/
def record? (report : Bool) : Finding → Option LogRecord
  | anomaly a => if report then some ⟨.warn, a.message⟩ else none
  | skippedCall callee => some ⟨.debug, "skipping call to " ++ callee⟩

end Finding

/-- What a part of a tree yields. -/
structure Harvest where
  strings : List String
  findings : List Finding
  deriving DecidableEq, Repr

namespace Harvest

/-- Nothing at all. -/
def empty : Harvest := ⟨[], []⟩

/-- A single finding. -/
def finding (f : Finding) : Harvest := ⟨[], [f]⟩

/-- One harvest after the other. -/
def append (a b : Harvest) : Harvest :=
  ⟨a.strings ++ b.strings, a.findings ++ b.findings⟩

instance : Append Harvest := ⟨append⟩

/-- The harvests of a sequence, put together. -/
def concat (hs : List Harvest) : Harvest :=
  ⟨hs.flatMap (·.strings), hs.flatMap (·.findings)⟩

/-- The harvests of the arrays of a paragraph as one string: the separator stands between the
strings of an array, and nothing between two arrays. -/
def paragraph (separator : String) (hs : List Harvest) : Harvest :=
  ⟨[String.join (hs.map fun h ↦ separator.intercalate h.strings)], hs.flatMap (·.findings)⟩

end Harvest

mutual

/-- What an expression yields. -/
def Expr.harvest (separator : String) : Expr → Harvest
  | .integer _ _ | .real _ _ | .string _ _ | .boolean _ _ => .empty
  | .array _ elements => Expr.harvestList separator elements
  | .call token callee arguments =>
    match callee.identifier?.bind CallForm.ofName? with
    | none => .finding (.skippedCall callee.render)
    | some .paragraph => .paragraph separator (Expr.harvestArrays separator arguments)
    | some .lines | some .line | some .block =>
      .concat (Expr.harvestArrays separator arguments)
    | some .segment =>
      match arguments.getLast? with
      | some text => ⟨[text.plainText], []⟩
      | none => .finding (.anomaly ⟨.call, (Expr.call token callee arguments).render⟩)
  | e => .finding (.anomaly ⟨e.nodeType, e.render⟩)

/-- What the elements of an array yield. -/
def Expr.harvestList (separator : String) : List Expr → Harvest
  | [] => .empty
  | e :: es => e.harvest separator ++ Expr.harvestList separator es

/-- What each of the arrays among the arguments of a call yields; other arguments are passed
over. -/
def Expr.harvestArrays (separator : String) : List Expr → List Harvest
  | [] => []
  | .array _ elements :: es =>
    Expr.harvestList separator elements :: Expr.harvestArrays separator es
  | _ :: es => Expr.harvestArrays separator es

end

/-- What a statement yields. -/
def Stmt.harvest (separator : String) : Stmt → Harvest
  | .comment _ => .empty
  | .expression _ value => value.harvest separator

/-- What a script yields. -/
def Program.harvest (separator : String) (program : Program) : Harvest :=
  .concat (program.statements.map (Stmt.harvest separator))

/-! ## The extractor -/

/-- How text is extracted. -/
structure Extractor where
  /-- Stands between the strings of a paragraph. -/
  separator : String
  /-- Whether anomalies are logged; they are part of the result either way. -/
  report : Bool
  deriving DecidableEq, Repr

/-- The extractor used when nothing else is asked for. -/
def Extractor.default : Extractor := ⟨" ", true⟩

/-- The result of an extraction. -/
structure Extraction where
  strings : List String
  anomalies : List Anomaly
  log : List LogRecord
  deriving DecidableEq, Repr

/-- Extracts the text of a script. -/
def Extractor.extract (extractor : Extractor) (program : Program) : Extraction :=
  let harvest := program.harvest extractor.separator
  { strings := harvest.strings
    anomalies := harvest.findings.filterMap Finding.anomaly?
    log := harvest.findings.filterMap (Finding.record? extractor.report) }

end DrawScript
