import DrawScript.Token.Basic

/-!
# Diagnostics

What can be wrong with a script, and where. Parsing never stops at a fault, except that it gives up
when expressions are nested too deeply, so diagnostics are collected beside the tree.
-/

namespace DrawScript

/-- What is wrong. -/
inductive Fault where
  /-- Another token was needed here. -/
  | unexpectedToken (expected found : Token.Kind)
  /-- No expression begins with this token. -/
  | missingPrefixRule (found : Token.Kind)
  /-- A literal is outside the range of its type. -/
  | invalidLiteral (lexeme target : String)
  /-- Expressions are nested beyond the limit. -/
  | nestingTooDeep (limit : Nat)
  deriving DecidableEq, Repr

namespace Fault

/-- The fault in words. -/
def message : Fault → String
  | unexpectedToken expected found =>
    "expected next token to be " ++ expected.name ++ ", got " ++ found.name ++ " instead"
  | missingPrefixRule found => "no prefix parse rule for " ++ found.name ++ " found"
  | invalidLiteral lexeme target =>
    "could not parse " ++ Text.quoted lexeme ++ " as " ++ target
  | nestingTooDeep limit =>
    "expression nesting exceeds " ++ limit.repr ++ " levels, rest of input skipped"

/-- How data writes the sort of fault. -/
def tag : Fault → String
  | unexpectedToken _ _ => "UnexpectedToken"
  | missingPrefixRule _ => "MissingPrefixRule"
  | invalidLiteral _ _ => "InvalidLiteral"
  | nestingTooDeep _ => "NestingTooDeep"

end Fault

/-- A fault and the bytes of the source that show it. -/
structure Diagnostic where
  fault : Fault
  span : Span
  deriving DecidableEq, Repr

/-- A diagnostic in words. -/
def Diagnostic.message (diagnostic : Diagnostic) : String :=
  diagnostic.fault.message

end DrawScript
