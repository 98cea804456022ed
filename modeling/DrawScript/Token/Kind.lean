/-!
# Token kinds

The alphabet of the scripts that describe drawings: names, literals, three keywords, comments,
punctuation and operators, together with the end mark and the mark for text that belongs to no
token.

A kind has two spellings. `Kind.name` is how a diagnostic speaks of it (`)` for a closing
parenthesis, `IDENT` for a name), `Kind.tag` is how the data formats write it (`RParen`, `Ident`).
Both are injective, so either of them stands for the kind.
-/

namespace DrawScript.Token

/-- What a piece of source text is. -/
inductive Kind where
  | ident
  | int
  | float
  | string
  | trueWord
  | falseWord
  | function
  | comment
  | lparen
  | rparen
  | lbrace
  | rbrace
  | lbracket
  | rbracket
  | comma
  | period
  | bang
  | minus
  | plus
  | slash
  | asterisk
  | eq
  | notEq
  | lt
  | gt
  | eof
  | illegal
  deriving DecidableEq, Repr

namespace Kind

/-- How diagnostics speak of a kind: fixed texts by themselves, the rest in capitals. -/
def name : Kind → String
  | ident => "IDENT"
  | int => "INT"
  | float => "FLOAT"
  | string => "STRING"
  | trueWord => "TRUE"
  | falseWord => "FALSE"
  | function => "FUNCTION"
  | comment => "COMMENT"
  | lparen => "("
  | rparen => ")"
  | lbrace => "\x7b"
  | rbrace => "\x7d"
  | lbracket => "["
  | rbracket => "]"
  | comma => ","
  | period => "."
  | bang => "!"
  | minus => "-"
  | plus => "+"
  | slash => "/"
  | asterisk => "*"
  | eq => "=="
  | notEq => "!="
  | lt => "<"
  | gt => ">"
  | eof => "EOF"
  | illegal => "ILLEGAL"

/-- How the data formats write a kind. -/
def tag : Kind → String
  | ident => "Ident"
  | int => "Int"
  | float => "Float"
  | string => "String"
  | trueWord => "True"
  | falseWord => "False"
  | function => "Function"
  | comment => "Comment"
  | lparen => "LParen"
  | rparen => "RParen"
  | lbrace => "LBrace"
  | rbrace => "RBrace"
  | lbracket => "LBracket"
  | rbracket => "RBracket"
  | comma => "Comma"
  | period => "Period"
  | bang => "Bang"
  | minus => "Minus"
  | plus => "Plus"
  | slash => "Slash"
  | asterisk => "Asterisk"
  | eq => "Eq"
  | notEq => "NotEq"
  | lt => "Lt"
  | gt => "Gt"
  | eof => "Eof"
  | illegal => "Illegal"

/-- Every kind, once each. -/
def all : List Kind :=
  [ident, int, float, string, trueWord, falseWord, function, comment, lparen, rparen, lbrace,
    rbrace, lbracket, rbracket, comma, period, bang, minus, plus, slash, asterisk, eq, notEq, lt,
    gt, eof, illegal]

/-- The kind written `tag`, if there is one. -/
def ofTag? (tag : String) : Option Kind :=
  all.find? fun kind ↦ kind.tag == tag

theorem mem_all (kind : Kind) : kind ∈ all := by
  cases kind <;> decide

end Kind

end DrawScript.Token
