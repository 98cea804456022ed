/-!
# Log records

Remarks made while working that are part of no result. A warning says that something in the drawing
was left out; a debug record explains a decision.
-/

namespace DrawScript

/-- How much a remark matters. -/
inductive LogLevel where
  | warn
  | debug
  deriving DecidableEq, Repr

/-- How a level is written. -/
def LogLevel.name : LogLevel → String
  | warn => "WARN"
  | debug => "DEBUG"

/-- A remark. -/
structure LogRecord where
  level : LogLevel
  message : String
  deriving DecidableEq, Repr

end DrawScript
