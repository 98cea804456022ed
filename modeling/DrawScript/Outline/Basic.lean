import DrawScript.Tree.Render

/-!
# Outlines

The outline of a tree keeps what a reader wants to see of it: the sort of every node, a short label
and the children. Views that show a tree start from its outline and need not know the tree itself.

Labels are the canonical text of a leaf or a statement, the operator of an operator node, and a
count where a node is a list. A call shows its callee in the label, so that only its arguments are
children.
-/

namespace DrawScript

/-- A node with its label and the outlines of its children. -/
inductive Outline where
  | node (type : NodeType) (label : String) (children : List Outline)

namespace Outline

/-- The sort of node. -/
def type : Outline → NodeType
  | node type _ _ => type

/-- The short description of the node. -/
def label : Outline → String
  | node _ label _ => label

/-- The nodes below this one. -/
def children : Outline → List Outline
  | node _ _ children => children

/-- A number of things, in words. -/
def countLabel (count : Nat) (noun : String) : String :=
  if count = 1 then "1 " ++ noun else count.repr ++ " " ++ noun ++ "s"

end Outline

mutual

/-- The outline of an expression. -/
def Expr.outline : Expr → Outline
  | .identifier name => .node .identifier name.value []
  | .integer token _ => .node .integer token.lexeme []
  | .real token _ => .node .real token.lexeme []
  | .string _ value => .node .string (StringLiteral.render value) []
  | .boolean token _ => .node .boolean token.lexeme []
  | .unary _ operator right => .node .unary operator.text [right.outline]
  | .binary _ left operator right => .node .binary operator.text [left.outline, right.outline]
  | .function _ parameters _ body =>
    .node .function ("fn(" ++ renderParameters parameters ++ ")")
      [.node .block (Outline.countLabel body.length "statement") (Stmt.outlineList body)]
  | .call _ callee arguments =>
    .node .call (callee.render ++ "(…)") (Expr.outlineList arguments)
  | .array _ elements =>
    .node .array (Outline.countLabel elements.length "element") (Expr.outlineList elements)
  | .index _ left position => .node .index "[]" [left.outline, position.outline]

/-- The outlines of expressions in a row. -/
def Expr.outlineList : List Expr → List Outline
  | [] => []
  | e :: es => e.outline :: Expr.outlineList es

/-- The outline of a statement. -/
def Stmt.outline : Stmt → Outline
  | .comment token => .node .comment token.lexeme []
  | .expression _ value => .node .statement value.render [value.outline]

/-- The outlines of statements in a row. -/
def Stmt.outlineList : List Stmt → List Outline
  | [] => []
  | s :: ss => s.outline :: Stmt.outlineList ss

end

/-- The outline of a script. -/
def Program.outline (program : Program) : Outline :=
  .node .program (Outline.countLabel program.statements.length "statement")
    (Stmt.outlineList program.statements)

end DrawScript
