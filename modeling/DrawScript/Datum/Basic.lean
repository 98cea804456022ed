import DrawScript.Tree.Basic

/-!
# Trees as plain data

The data formats write a tree as nested records. `Datum` is their common ground: what a tree says is
decided here, once, and each format only decides how records, lists and leaves are spelled. Fields
keep the order in which they are given, and the sort of an expression or statement is its first
field.
-/

namespace DrawScript

/-- Plain data. -/
inductive Datum where
  | bool (value : Bool)
  | int (value : Int)
  | real (value : Binary64)
  | text (value : String)
  | list (items : List Datum)
  | record (fields : List (String × Datum))

/-- A range of bytes. -/
def Span.toDatum (span : Span) : Datum :=
  .record [("start", .int span.start), ("end", .int span.stop)]

/-- A token. -/
def Token.toDatum (token : Token) : Datum :=
  .record [("kind", .text token.kind.tag), ("lexeme", .text token.lexeme),
    ("span", token.span.toDatum)]

/-- A name. -/
def Identifier.fields (name : Identifier) : List (String × Datum) :=
  [("token", name.token.toDatum), ("value", .text name.value)]

mutual

/-- An expression. -/
def Expr.toDatum : Expr → Datum
  | .identifier name => .record (("type", .text "Identifier") :: name.fields)
  | .integer token value =>
    .record [("type", .text "Integer"), ("token", token.toDatum), ("value", .int value)]
  | .real token value =>
    .record [("type", .text "Float"), ("token", token.toDatum), ("value", .real value)]
  | .string token value =>
    .record [("type", .text "String"), ("token", token.toDatum), ("value", .text value)]
  | .boolean token value =>
    .record [("type", .text "Boolean"), ("token", token.toDatum), ("value", .bool value)]
  | .unary token operator right =>
    .record [("type", .text "Prefix"), ("token", token.toDatum),
      ("operator", .text operator.tag), ("right", right.toDatum)]
  | .binary token left operator right =>
    .record [("type", .text "Infix"), ("token", token.toDatum), ("left", left.toDatum),
      ("operator", .text operator.tag), ("right", right.toDatum)]
  | .function token parameters brace body =>
    .record [("type", .text "Function"), ("token", token.toDatum),
      ("parameters", .list (parameters.map fun name ↦ .record name.fields)),
      ("body", .record [("token", brace.toDatum), ("statements", .list (Stmt.toDataList body))])]
  | .call token callee arguments =>
    .record [("type", .text "Call"), ("token", token.toDatum), ("function", callee.toDatum),
      ("arguments", .list (Expr.toDataList arguments))]
  | .array token elements =>
    .record [("type", .text "Array"), ("token", token.toDatum),
      ("elements", .list (Expr.toDataList elements))]
  | .index token left position =>
    .record [("type", .text "Index"), ("token", token.toDatum), ("left", left.toDatum),
      ("index", position.toDatum)]

/-- Expressions in a row. -/
def Expr.toDataList : List Expr → List Datum
  | [] => []
  | e :: es => e.toDatum :: Expr.toDataList es

/-- A statement. -/
def Stmt.toDatum : Stmt → Datum
  | .comment token => .record [("type", .text "Comment"), ("token", token.toDatum)]
  | .expression token value =>
    .record [("type", .text "Expression"), ("token", token.toDatum),
      ("expression", value.toDatum)]

/-- Statements in a row. -/
def Stmt.toDataList : List Stmt → List Datum
  | [] => []
  | s :: ss => s.toDatum :: Stmt.toDataList ss

end

/-- A script. -/
def Program.toDatum (program : Program) : Datum :=
  .record [("statements", .list (Stmt.toDataList program.statements))]

end DrawScript
