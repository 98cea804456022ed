import DrawScript.Outline.Basic

/-!
# Drawing an outline

An outline is drawn with one line per node, in the order of the tree. The line of a node shows an
icon for its sort and the first thirty characters of its label. Below the root, connectors show the
parent: a corner for the last child of its parent and a fork for the others, behind a column for
every ancestor that has further children.
-/

namespace DrawScript

/-- The icon of a sort of node. -/
def NodeType.icon : NodeType → String
  | program => "⧉"
  | comment => "%"
  | statement => "¶"
  | block => "▭"
  | identifier => "◦"
  | integer | real => "#"
  | string => "\""
  | boolean => "±"
  | unary | binary => "⊕"
  | function => "λ"
  | call => "ƒ"
  | array => "☰"
  | index => "⌷"

namespace Outline

/-- The number of characters of a label that are drawn. -/
def labelWidth : Nat := 30

/-- A label cut to its width, with three dots for what is missing. -/
def truncate (label : String) : String :=
  if labelWidth < label.length then String.ofList (label.toList.take labelWidth) ++ "..."
  else label

/-- The text of a node's own line, without the connectors before it. -/
def caption (type : NodeType) (label : String) : String :=
  type.icon ++ " " ++ truncate label ++ "\n"

mutual

/-- The lines of a node and what is below it. `margin` stands before every line; `last` tells
whether the node is the last child of its parent. -/
def drawBelow (margin : String) (last : Bool) : Outline → String
  | node type label children =>
    margin ++ (if last then "└─ " else "├─ ") ++ caption type label ++
      drawChildren (margin ++ if last then "  " else "│ ") children

/-- The lines of the children of a node. -/
def drawChildren (margin : String) : List Outline → String
  | [] => ""
  | [child] => drawBelow margin true child
  | child :: next :: rest =>
    drawBelow margin false child ++ drawChildren margin (next :: rest)

end

/-- The drawing of a whole outline. -/
def draw (outline : Outline) : String :=
  caption outline.type outline.label ++ drawChildren "" outline.children

end Outline

end DrawScript
