import DrawScript.Tree.Basic

/-!
# Canonical text

Every tree has one canonical text. Operator and index expressions are fully parenthesised, strings
stand between double quotes with quotes and backslashes escaped, and an expression statement that is
followed by another statement gets a period, so that the text reads back as the same number of
statements. A comment brings its own line break.
-/

namespace DrawScript

namespace StringLiteral

/-- The content of a string literal: a backslash before every double quote and every backslash. -/
def escape : List Char → List Char
  | [] => []
  | c :: cs => if c = '"' ∨ c = '\\' then '\\' :: c :: escape cs else c :: escape cs

/-- A string literal with the given value. -/
def render (value : String) : String :=
  "\"" ++ String.ofList (escape value.toList) ++ "\""

end StringLiteral

/-- The names of parameters, separated by commas. -/
def renderParameters (parameters : List Identifier) : String :=
  ", ".intercalate (parameters.map (·.value))

mutual

/-- The canonical text of an expression. -/
def Expr.render : Expr → String
  | .identifier name => name.value
  | .integer token _ => token.lexeme
  | .real token _ => token.lexeme
  | .string _ value => StringLiteral.render value
  | .boolean token _ => token.lexeme
  | .unary _ operator right => "(" ++ operator.text ++ right.render ++ ")"
  | .binary _ left operator right =>
    "(" ++ left.render ++ " " ++ operator.text ++ " " ++ right.render ++ ")"
  | .function token parameters _ body =>
    token.lexeme ++ "(" ++ renderParameters parameters ++ ") \x7b " ++ Stmt.renderList " " body ++
      (if body.isEmpty then "\x7d" else " \x7d")
  | .call _ callee arguments => callee.render ++ "(" ++ Expr.renderList arguments ++ ")"
  | .array _ elements => "[" ++ Expr.renderList elements ++ "]"
  | .index _ left position => "(" ++ left.render ++ "[" ++ position.render ++ "])"

/-- Canonical texts separated by commas. -/
def Expr.renderList : List Expr → String
  | [] => ""
  | [e] => e.render
  | e :: e' :: es => e.render ++ ", " ++ Expr.renderList (e' :: es)

/-- The canonical text of a statement that stands alone. -/
def Stmt.render : Stmt → String
  | .comment token => token.lexeme ++ "\n"
  | .expression _ value => value.render

/-- The canonical text of statements in a row: an expression that is not the last is closed with a
period and the separator. -/
def Stmt.renderList (separator : String) : List Stmt → String
  | [] => ""
  | [s] => s.render
  | .comment token :: s' :: ss => token.lexeme ++ "\n" ++ Stmt.renderList separator (s' :: ss)
  | .expression _ value :: s' :: ss =>
    value.render ++ "." ++ separator ++ Stmt.renderList separator (s' :: ss)

end

/-- The canonical text of a script, a statement a line. -/
def Program.render (program : Program) : String :=
  Stmt.renderList "\n" program.statements

/-- The text of an expression as content: the value of a string literal, the canonical text of
everything else. -/
def Expr.plainText : Expr → String
  | .string _ value => value
  | e => e.render

end DrawScript
