import DrawScript.Tree.Render

/-!
# Trees without places

Two sources with the same tokens give trees that differ in the spans of their tokens alone.
`unplaced` forgets what such trees differ in: every span, and the token of an expression statement,
which repeats the first token of the expression and is gone from the canonical text when that token
is a redundant parenthesis. The canonical text depends on nothing that is forgotten
(`Program.render_unplaced`).

`size` counts the nodes of a tree. A parse that gives up has lost a node somewhere, and the count
is what shows it.
-/

namespace DrawScript

/-- The token without its place in the source. -/
def Token.unplaced (token : Token) : Token :=
  { token with span := ⟨0, 0⟩ }

/-- The name without the place of its token. -/
def Identifier.unplaced (name : Identifier) : Identifier :=
  { name with token := name.token.unplaced }

mutual

/-- The expression without the places of its tokens. -/
def Expr.unplaced : Expr → Expr
  | .identifier name => .identifier name.unplaced
  | .integer token value => .integer token.unplaced value
  | .real token value => .real token.unplaced value
  | .string token value => .string token.unplaced value
  | .boolean token value => .boolean token.unplaced value
  | .unary token operator right => .unary token.unplaced operator right.unplaced
  | .binary token left operator right =>
    .binary token.unplaced left.unplaced operator right.unplaced
  | .function token parameters brace body =>
    .function token.unplaced (parameters.map (·.unplaced)) brace.unplaced (Stmt.unplacedList body)
  | .call token callee arguments =>
    .call token.unplaced callee.unplaced (Expr.unplacedList arguments)
  | .array token elements => .array token.unplaced (Expr.unplacedList elements)
  | .index token left position => .index token.unplaced left.unplaced position.unplaced

/-- The expressions without the places of their tokens. -/
def Expr.unplacedList : List Expr → List Expr
  | [] => []
  | e :: es => e.unplaced :: Expr.unplacedList es

/-- The statement without places. The token of an expression statement is forgotten as a whole. -/
def Stmt.unplaced : Stmt → Stmt
  | .comment token => .comment token.unplaced
  | .expression _ value => .expression (.eof 0) value.unplaced

/-- The statements without places. -/
def Stmt.unplacedList : List Stmt → List Stmt
  | [] => []
  | s :: ss => s.unplaced :: Stmt.unplacedList ss

end

/-- The script without places. -/
def Program.unplaced (program : Program) : Program :=
  ⟨Stmt.unplacedList program.statements⟩

/-! ## Canonical texts -/

theorem renderParameters_unplaced (parameters : List Identifier) :
    renderParameters (parameters.map (·.unplaced)) = renderParameters parameters := by
  rw [renderParameters, renderParameters, List.map_map]
  rfl

mutual

theorem Expr.render_unplaced : (e : Expr) → e.unplaced.render = e.render
  | .identifier _ | .integer _ _ | .real _ _ | .string _ _ | .boolean _ _ => by
    simp [Expr.unplaced, Expr.render, Identifier.unplaced, Token.unplaced]
  | .unary _ _ right => by simp [Expr.unplaced, Expr.render, Expr.render_unplaced right]
  | .binary _ left _ right => by
    simp [Expr.unplaced, Expr.render, Expr.render_unplaced left, Expr.render_unplaced right]
  | .function _ parameters _ body => by
    have hempty : (Stmt.unplacedList body).isEmpty = body.isEmpty := by
      cases body <;> rfl
    simp [Expr.unplaced, Expr.render, Token.unplaced, renderParameters_unplaced, hempty,
      Stmt.renderList_unplaced " " body]
  | .call _ callee arguments => by
    simp [Expr.unplaced, Expr.render, Expr.render_unplaced callee,
      Expr.renderList_unplaced arguments]
  | .array _ elements => by simp [Expr.unplaced, Expr.render, Expr.renderList_unplaced elements]
  | .index _ left position => by
    simp [Expr.unplaced, Expr.render, Expr.render_unplaced left, Expr.render_unplaced position]

theorem Expr.renderList_unplaced :
    (es : List Expr) → Expr.renderList (Expr.unplacedList es) = Expr.renderList es
  | [] => rfl
  | [e] => by simp [Expr.unplacedList, Expr.renderList, Expr.render_unplaced e]
  | e :: e' :: es => by
    have htail := Expr.renderList_unplaced (e' :: es)
    rw [Expr.unplacedList] at htail
    simp [Expr.unplacedList, Expr.renderList, Expr.render_unplaced e, htail]

theorem Stmt.render_unplaced : (s : Stmt) → s.unplaced.render = s.render
  | .comment _ => by simp [Stmt.unplaced, Stmt.render, Token.unplaced]
  | .expression _ value => by simp [Stmt.unplaced, Stmt.render, Expr.render_unplaced value]

theorem Stmt.renderList_unplaced (separator : String) :
    (ss : List Stmt) → Stmt.renderList separator (Stmt.unplacedList ss)
      = Stmt.renderList separator ss
  | [] => rfl
  | [s] => by simp [Stmt.unplacedList, Stmt.renderList, Stmt.render_unplaced s]
  | .comment _ :: s' :: ss => by
    have htail := Stmt.renderList_unplaced separator (s' :: ss)
    rw [Stmt.unplacedList] at htail
    simp [Stmt.unplacedList, Stmt.unplaced, Stmt.renderList, Token.unplaced, htail]
  | .expression _ value :: s' :: ss => by
    have htail := Stmt.renderList_unplaced separator (s' :: ss)
    rw [Stmt.unplacedList] at htail
    simp [Stmt.unplacedList, Stmt.unplaced, Stmt.renderList, Expr.render_unplaced value, htail]

end

/-- The canonical text does not depend on places. -/
theorem Program.render_unplaced (program : Program) : program.unplaced.render = program.render :=
  Stmt.renderList_unplaced "\n" program.statements

theorem Program.render_eq_of_unplaced_eq {p q : Program} (h : p.unplaced = q.unplaced) :
    p.render = q.render := by
  rw [← p.render_unplaced, h, q.render_unplaced]

/-! ## Sizes -/

mutual

/-- The number of nodes of an expression. -/
def Expr.size : Expr → Nat
  | .identifier _ | .integer _ _ | .real _ _ | .string _ _ | .boolean _ _ => 1
  | .unary _ _ right => right.size + 1
  | .binary _ left _ right => left.size + right.size + 1
  | .function _ _ _ body => Stmt.sizeList body + 1
  | .call _ callee arguments => callee.size + Expr.sizeList arguments + 1
  | .array _ elements => Expr.sizeList elements + 1
  | .index _ left position => left.size + position.size + 1

/-- The number of nodes of a list of expressions. -/
def Expr.sizeList : List Expr → Nat
  | [] => 0
  | e :: es => e.size + Expr.sizeList es

/-- The number of nodes of a statement. -/
def Stmt.size : Stmt → Nat
  | .comment _ => 1
  | .expression _ value => value.size + 1

/-- The number of nodes of a list of statements. -/
def Stmt.sizeList : List Stmt → Nat
  | [] => 0
  | s :: ss => s.size + Stmt.sizeList ss

end

theorem Expr.size_pos (e : Expr) : 0 < e.size := by
  cases e <;> simp [Expr.size]

mutual

theorem Expr.size_unplaced : (e : Expr) → e.unplaced.size = e.size
  | .identifier _ | .integer _ _ | .real _ _ | .string _ _ | .boolean _ _ => by
    simp [Expr.unplaced, Expr.size]
  | .unary _ _ right => by simp [Expr.unplaced, Expr.size, Expr.size_unplaced right]
  | .binary _ left _ right => by
    simp [Expr.unplaced, Expr.size, Expr.size_unplaced left, Expr.size_unplaced right]
  | .function _ _ _ body => by simp [Expr.unplaced, Expr.size, Stmt.sizeList_unplaced body]
  | .call _ callee arguments => by
    simp [Expr.unplaced, Expr.size, Expr.size_unplaced callee, Expr.sizeList_unplaced arguments]
  | .array _ elements => by simp [Expr.unplaced, Expr.size, Expr.sizeList_unplaced elements]
  | .index _ left position => by
    simp [Expr.unplaced, Expr.size, Expr.size_unplaced left, Expr.size_unplaced position]

theorem Expr.sizeList_unplaced :
    (es : List Expr) → Expr.sizeList (Expr.unplacedList es) = Expr.sizeList es
  | [] => rfl
  | e :: es => by
    simp [Expr.unplacedList, Expr.sizeList, Expr.size_unplaced e, Expr.sizeList_unplaced es]

theorem Stmt.size_unplaced : (s : Stmt) → s.unplaced.size = s.size
  | .comment _ => by simp [Stmt.unplaced, Stmt.size]
  | .expression _ value => by simp [Stmt.unplaced, Stmt.size, Expr.size_unplaced value]

theorem Stmt.sizeList_unplaced :
    (ss : List Stmt) → Stmt.sizeList (Stmt.unplacedList ss) = Stmt.sizeList ss
  | [] => rfl
  | s :: ss => by
    simp [Stmt.unplacedList, Stmt.sizeList, Stmt.size_unplaced s, Stmt.sizeList_unplaced ss]

end

/-- Trees that differ in places alone have as many nodes. -/
theorem Program.sizeList_eq_of_unplaced_eq {p q : Program} (h : p.unplaced = q.unplaced) :
    Stmt.sizeList p.statements = Stmt.sizeList q.statements := by
  have hsize := congrArg (fun r : Program ↦ Stmt.sizeList r.statements) h
  rwa [Program.unplaced, Program.unplaced, Stmt.sizeList_unplaced, Stmt.sizeList_unplaced] at hsize

end DrawScript
