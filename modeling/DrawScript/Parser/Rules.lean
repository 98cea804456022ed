import DrawScript.Parser.State
import DrawScript.Tree.Basic

/-!
# The rules of the grammar

Each rule starts at the current token and ends at the last token that it used. A rule that cannot
build its node reports why and yields nothing; its callers go on with what they have, so a damaged
script still gives the tree of its sound parts.

Nesting is bounded by `room`, the number of levels that may still be opened. Every expression opens
one level, and every operator, call or index that continues an expression opens one more, which
stays open until that expression ends. Both recursions of the grammar, into an operand and along a
chain of operators, therefore descend in `room`, and the rules for single constructs take the rule
for their parts (`sub`) as an argument. Lists and bodies repeat at the same level; they are bounded
by the number of pending tokens, since each round uses up at least one.
-/

namespace DrawScript.Parser

open Token (Kind)

/-- A step of the parse that yields a value. -/
abbrev Rule (α : Type) := State → α × State

/-- A rule for expressions that bind more tightly than a given level. -/
abbrev ExprRule := Precedence → Rule (Option Expr)

/-! ## Repetition -/

/-- The further items of a list, each behind a comma, in at most `bound` rounds. -/
def moreItems {α : Type} (item : Rule (Option α)) : (bound : Nat) → Rule (List α)
  | 0, s => ([], s)
  | bound + 1, s =>
    if s.peek.kind = .comma then
      let (x, s) := item s.advance.advance
      let (xs, s) := moreItems item bound s
      (x.toList ++ xs, s)
    else ([], s)

/-- One item or more, separated by commas. Items that could not be built are left out. -/
def items {α : Type} (item : Rule (Option α)) : Rule (List α) := fun s ↦
  let (x, s) := item s
  let (xs, s) := moreItems item s.pending.length s
  (x.toList ++ xs, s)

/-! ## Statements -/

/-- A comment, or an expression and the periods that close it. -/
def statement (sub : ExprRule) : Rule (Option Stmt) := fun s ↦
  if s.current.kind = .comment then (some (.comment s.current), s)
  else
    let (value, s') := sub .lowest s
    (value.map (.expression s.current), s'.skipPeriods)

/-- Statements up to a token whose kind ends them, in at most `bound` rounds. -/
def statementsUntil (sub : ExprRule) (ends : Kind → Bool) : (bound : Nat) → Rule (List Stmt)
  | 0, s => ([], s)
  | bound + 1, s =>
    if s.abandoned || ends s.current.kind then ([], s)
    else
      let (x, s) := statement sub s
      let (xs, s) := statementsUntil sub ends bound s.advance
      (x.toList ++ xs, s)

/-- The kinds that end the body of a function. -/
def endsBody (kind : Kind) : Bool :=
  kind == .rbrace || kind == .eof

/-- The body of a function, whose opening brace is the current token. A body that is not closed
keeps the statements read so far. -/
def body (sub : ExprRule) : Rule (List Stmt) := fun s ↦
  let s := s.advance
  let (statements, s) := statementsUntil sub endsBody s.pending.length s
  if s.current.kind = .eof ∧ !s.abandoned then
    (statements, s.report (.unexpectedToken .rbrace .eof) s.current)
  else (statements, s)

/-! ## Literals -/

/-- The value of a run of decimal digits. -/
def digitsValue (digits : List Char) : Nat :=
  digits.foldl (fun n c ↦ 10 * n + (c.toNat - '0'.toNat)) 0

/-- The value of an integer literal, if it is below the limit of the type. -/
def integerValue? (lexeme : String) : Option Int :=
  let n := digitsValue lexeme.toList
  if n < Nat.pow 2 63 then some n else none

/-- The value of a real literal, digits around a point, if it is finite. -/
def realValue? (lexeme : String) : Option Binary64 :=
  let whole := lexeme.toList.takeWhile (· != '.')
  let fraction := (lexeme.toList.dropWhile (· != '.')).tail
  let x := Binary64.ofScientific false (digitsValue (whole ++ fraction)) (-(fraction.length : Int))
  if x.isFinite then some x else none

/-- The value of a keyword that is a truth value. -/
def booleanValue? (lexeme : String) : Option Bool :=
  if lexeme = "true" then some true else if lexeme = "false" then some false else none

/-- The leaf for the current token, or a report that its lexeme has no value of the type. -/
def literal {α : Type} (target : String) (value : Option α) (leaf : Token → α → Expr) :
    Rule (Option Expr) := fun s ↦
  match value with
  | some v => (some (leaf s.current v), s)
  | none => (none, s.report (.invalidLiteral s.current.lexeme target) s.current)

/-! ## Expressions that a token begins -/

/-- An operator and its operand. -/
def unaryRule (sub : ExprRule) : Rule (Option Expr) := fun s ↦
  match UnaryOperator.ofKind? s.current.kind with
  | none => (none, s)
  | some operator =>
    let (right, s') := sub .unary s.advance
    (right.map (.unary s.current operator), s')

/-- An expression in parentheses. The expression is kept if the closing one is missing. -/
def groupRule (sub : ExprRule) : Rule (Option Expr) := fun s ↦
  let (e, s) := sub .lowest s.advance
  (e, (s.expect .rparen).2)

/-- A parameter of a function. -/
def parameter : Rule (Option Identifier) := fun s ↦
  if s.current.kind = .ident then (some (.ofToken s.current), s)
  else (none, s.report (.unexpectedToken .ident s.current.kind) s.current)

/-- The parameters of a function, whose opening parenthesis is the current token. -/
def parameters : Rule (Option (List Identifier)) := fun s ↦
  let s := s.advance
  if s.current.kind = .rparen then (some [], s)
  else
    let (names, s) := items parameter s
    let (closed, s) := s.expect .rparen
    (if closed then some names else none, s)

/-- A function: its keyword, parameters and body. -/
def functionRule (sub : ExprRule) : Rule (Option Expr) := fun s₀ ↦
  let (opened, s) := s₀.expect .lparen
  if !opened then (none, s)
  else
    match parameters s with
    | (none, s) => (none, s)
    | (some names, s) =>
      let (opened, s) := s.expect .lbrace
      if !opened then (none, s)
      else
        let (statements, s') := body sub s
        (some (.function s₀.current names s.current statements), s')

/-- Expressions separated by commas up to a closing token, behind the opening one. A list that is
not closed keeps the expressions read so far. -/
def expressionList (sub : ExprRule) (close : Kind) : Rule (List Expr) := fun s ↦
  let s := s.advance
  if s.current.kind = close then ([], s)
  else
    let (es, s) := items (sub .lowest) s
    let (closed, s) := s.expect close
    (es, if closed then s else s.logUnclosed close)

/-- An array. -/
def arrayRule (sub : ExprRule) : Rule (Option Expr) := fun s ↦
  let (es, s') := expressionList sub .rbracket s
  (some (.array s.current es), s')

/-- The expression that the current token begins, without what continues it. -/
def primary (sub : ExprRule) : Rule (Option Expr) := fun s ↦
  match s.current.kind with
  | .ident => (some (.identifier (.ofToken s.current)), s)
  | .int => literal "integer" (integerValue? s.current.lexeme) .integer s
  | .float => literal "float" (realValue? s.current.lexeme) .real s
  | .string => (some (.string s.current s.current.lexeme), s)
  | .trueWord | .falseWord => literal "boolean" (booleanValue? s.current.lexeme) .boolean s
  | .bang | .minus => unaryRule sub s
  | .lparen => groupRule sub s
  | .function => functionRule sub s
  | .lbracket => arrayRule sub s
  | kind => (none, s.report (.missingPrefixRule kind) s.current)

/-! ## Expressions that a token continues -/

/-- A call, at its opening parenthesis. -/
def callRule (sub : ExprRule) (callee : Expr) : Rule (Option Expr) := fun s ↦
  let (arguments, s') := expressionList sub .rparen s
  (some (.call s.current callee arguments), s')

/-- An index, at its opening bracket. The node is kept if the closing bracket is missing. -/
def indexRule (sub : ExprRule) (left : Expr) : Rule (Option Expr) := fun s ↦
  let (position, s') := sub .lowest s.advance
  (position.map (.index s.current left), (s'.expect .rbracket).2)

/-- An operator and its right operand, which binds more tightly than the operator. -/
def binaryRule (sub : ExprRule) (left : Expr) (operator : BinaryOperator) : Rule (Option Expr) :=
  fun s ↦
    let (right, s') := sub (.of s.current.kind) s.advance
    (right.map (.binary s.current left operator), s')

/-- What the current token makes of the expression on its left, if it continues expressions. -/
def continuation? (sub : ExprRule) (left : Expr) (kind : Kind) : Option (Rule (Option Expr)) :=
  match kind with
  | .lparen => some (callRule sub left)
  | .lbracket => some (indexRule sub left)
  | kind => (BinaryOperator.ofKind? kind).map (binaryRule sub left)

/-- Does the next token continue an expression at this level? A period never does. -/
def continues (level : Precedence) (s : State) : Bool :=
  s.peek.kind != .period && decide (level < Precedence.of s.peek.kind)

/-! ## Expressions -/

mutual

/-- An expression whose operators bind more tightly than `level`, with `room` for levels. -/
def expression : (room : Nat) → ExprRule
  | 0, _, s => (none, s.abandon)
  | room + 1, level, s =>
    if s.abandoned then (none, s)
    else
      match primary (expression room) s with
      | (none, s) => (none, s)
      | (some left, s) => chain room level left s

/-- Continues the expression `left` as far as the tokens that follow bind more tightly than
`level`. -/
def chain : (room : Nat) → Precedence → Expr → Rule (Option Expr)
  | 0, level, left, s => (some left, if continues level s then s.abandon else s)
  | room + 1, level, left, s =>
    if !continues level s || s.abandoned then (some left, s)
    else
      match continuation? (expression room) left s.advance.current.kind with
      | none => (some left, s.advance)
      | some rule =>
        match rule s.advance with
        | (none, s) => (none, s)
        | (some left, s) => chain room level left s

end

/-- Statements up to the end of the source. -/
def program : Rule Program := fun s ↦
  let (statements, s) :=
    statementsUntil (expression nestingLimit) (· == .eof) s.pending.length s
  (⟨statements⟩, s)

end DrawScript.Parser
