import DrawScript.Token.Scan
import DrawScript.Diagnostic
import DrawScript.Log

/-!
# The state of a parse

A parse walks over the tokens of a source. Its state is what lies ahead, the diagnostics and log
records so far, and whether the parse was given up because expressions were nested too deeply.

`current` is the token that the rule at work looks at and `peek` the one behind it. Behind the last
token stands the end mark, for ever: advancing at the end changes nothing, so no rule has to ask
whether there is a token left.
-/

namespace DrawScript.Parser

open Token (Kind)

/-- The deepest nesting of expressions that is parsed. -/
def nestingLimit : Nat := 128

/-- Where a parse stands. -/
structure State where
  /-- The tokens from the current one on, without the end mark. -/
  pending : List Token
  /-- The byte offset of the end mark. -/
  stop : Nat
  /-- Nothing more is parsed once this is set. -/
  abandoned : Bool
  diagnostics : Array Diagnostic
  log : Array LogRecord

namespace State

/-- The state before the first token of a source. -/
def ofSource (source : String) : State :=
  ⟨Token.scan 0 0 source.toList, source.utf8ByteSize, false, #[], #[]⟩

/-- The token at hand. -/
def current (s : State) : Token :=
  s.pending.headD (.eof s.stop)

/-- The token behind the one at hand. -/
def peek (s : State) : Token :=
  s.pending.tail.headD (.eof s.stop)

/-- Goes on to the next token. -/
def advance (s : State) : State :=
  { s with pending := s.pending.tail }

/-- Records a fault shown by a token. -/
def report (s : State) (fault : Fault) (token : Token) : State :=
  { s with diagnostics := s.diagnostics.push ⟨fault, token.span⟩ }

/-- Gives up at the current token, unless that has been done before. -/
def abandon (s : State) : State :=
  if s.abandoned then s
  else { s.report (.nestingTooDeep nestingLimit) s.current with abandoned := true }

/-- Goes on to the next token if it is of the expected kind, and reports it otherwise. A parse that
was given up expects nothing. -/
def expect (s : State) (kind : Kind) : Bool × State :=
  if s.abandoned then (false, s)
  else if s.peek.kind = kind then (true, s.advance)
  else (false, s.report (.unexpectedToken kind s.peek.kind) s.peek)

/-- Passes over the periods that follow, up to the last of them. -/
def skipPeriods (s : State) : State :=
  { s with pending := drop s.pending }
where
  /-- Moves forward as long as the token behind the head is a period. -/
  drop : List Token → List Token
    | a :: b :: rest => if b.kind = .period then drop (b :: rest) else a :: b :: rest
    | tokens => tokens

/-- Remarks that a list of expressions is not closed. -/
def logUnclosed (s : State) (close : Kind) : State :=
  { s with log := s.log.push ⟨.debug,
      "unterminated list, expected " ++ close.name ++ " but found " ++ s.peek.display⟩ }

@[simp] theorem pending_advance (s : State) : s.advance.pending = s.pending.tail := rfl

end State

end DrawScript.Parser
