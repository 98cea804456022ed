import DrawScript.Token.Kind
import DrawScript.Text.Quoted

/-!
# Tokens

A token is a kind, a lexeme and the range of source bytes it was read from. The lexeme is the
source text of that range, except that a string token carries its decoded content.
-/

namespace DrawScript

/-- A half-open range of byte offsets in the source. -/
structure Span where
  start : Nat
  stop : Nat
  deriving DecidableEq, Repr

/-- A classified piece of the source. -/
structure Token where
  kind : Token.Kind
  lexeme : String
  span : Span
  deriving DecidableEq, Repr

namespace Token

/-- The mark that ends every token stream, standing at a byte offset and covering nothing. -/
def eof (offset : Nat) : Token :=
  ⟨.eof, "", ⟨offset, offset⟩⟩

@[simp] theorem kind_eof (offset : Nat) : (eof offset).kind = .eof := rfl

/-- Is this the end mark? -/
def isEof (token : Token) : Bool :=
  token.kind == .eof

/-- How a log line shows a token: the name of its kind around its quoted lexeme. -/
def display (token : Token) : String :=
  token.kind.name ++ "(" ++ Text.quoted token.lexeme ++ ")"

end Token

end DrawScript
