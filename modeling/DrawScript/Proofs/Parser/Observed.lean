import DrawScript.Proofs.Parser.Steps

/-!
# The parser under observation

A rule says what is built and where the parse stands then. It does not say how it comes to that: how
many expressions are being read one inside the other, at which tokens they begin, how often a loop
goes round. Here the rules are written once more for a parse that keeps record of this
(`Observed`).

Nesting is kept by a counter here, not by room. The counter is raised where an expression begins and
where it is continued (`descend`), the limit is looked up at that moment and nowhere else, and when
an expression has been read the counter is put back to where it stood before (`activation`). Each
loop is a `loop` that goes on as long as its condition holds. The bounds that loops and the
recursion still have are there for the recursion to be well-founded only; the record says whether
one of them ever broke anything off.

Taking the record away gives the rules of the parser (`observe_eq`), so what is observed is what the
parser does.
-/

namespace DrawScript.Parser

open Token (Kind)

/-! ## What is observed -/

/-- A moment of a parse. -/
structure Moment where
  /-- The expressions that are being read, one inside the other. -/
  active : Nat
  /-- The levels that are open. -/
  counter : Nat
  deriving DecidableEq, Repr

/-- The reading of an expression, from its first token to its end. -/
structure Activation where
  /-- Where the counter stood when the reading began. -/
  entry : Nat
  /-- How often what had been read was continued. -/
  folds : Nat
  value : Option Expr

/-- A round of a loop. -/
structure Round where
  /-- The tokens ahead at its beginning. -/
  before : List Token
  /-- The tokens ahead at its end. -/
  after : List Token
  deriving DecidableEq, Repr

/-- A parse, and the record of it so far. -/
structure Observed where
  state : State
  /-- The levels that are open. -/
  counter : Nat
  /-- The expressions that are being read. -/
  active : Nat
  /-- What the two numbers have been, the latest first. -/
  moments : List Moment
  /-- The tokens at hand when the reading of an expression began, the earliest first. -/
  starts : List Token
  /-- The expressions whose reading has ended, the latest first. -/
  ended : List Activation
  /-- The rounds of all loops, the latest first. -/
  rounds : List Round
  /-- Was a loop or the recursion broken off by its bound? -/
  brokenOff : Bool

namespace Observed

/-- The beginning of a parse. -/
def ofSource (source : String) : Observed where
  state := .ofSource source
  counter := 0
  active := 0
  moments := [⟨0, 0⟩]
  starts := []
  ended := []
  rounds := []
  brokenOff := false

/-- The reading of an expression begins. -/
def enter (m : Observed) : Observed :=
  { m with
    active := m.active + 1
    moments := ⟨m.active + 1, m.counter⟩ :: m.moments
    starts := m.starts ++ [m.state.current] }

/-- One more level is opened. -/
def raise (m : Observed) : Observed :=
  { m with
    counter := m.counter + 1
    moments := ⟨m.active, m.counter + 1⟩ :: m.moments }

/-- The reading of an expression ends, and the counter is put back. -/
def leave (m : Observed) (activation : Activation) : Observed :=
  { m with
    counter := activation.entry
    active := m.active - 1
    moments := ⟨m.active - 1, activation.entry⟩ :: m.moments
    ended := activation :: m.ended }

/-- A round of a loop ends. -/
def endRound (m : Observed) (before : State) : Observed :=
  { m with rounds := ⟨before.pending, m.state.pending⟩ :: m.rounds }

/-- A bound is reached. -/
def breakOff (m : Observed) : Observed :=
  { m with brokenOff := true }

end Observed

/-- A step of an observed parse that yields a value. -/
def ObservedRule (α : Type) := Observed → α × Observed

instance : Monad ObservedRule where
  pure x := fun m ↦ (x, m)
  bind rule next := fun m ↦ next (rule m).1 (rule m).2

/-- A rule for expressions, observed. -/
abbrev ObservedExprRule := Precedence → ObservedRule (Option Expr)

namespace Observed

variable {α β : Type}

theorem bind_apply (rule : ObservedRule α) (next : α → ObservedRule β) (m : Observed) :
    (rule >>= next) m = next (rule m).1 (rule m).2 := rfl

/-! ## Primitive rules -/

/-- Does what a rule does in which nothing is to be observed. -/
def lift (rule : Rule α) : ObservedRule α := fun m ↦
  ((rule m.state).1, { m with state := (rule m.state).2 })

/-- Looks at the state of the parse. -/
def look : ObservedRule State := lift fun s ↦ (s, s)

/-- Goes on to the next token. -/
def advance : ObservedRule Unit := lift fun s ↦ ((), s.advance)

/-- Changes the record. -/
def note (change : Observed → Observed) : ObservedRule Unit := fun m ↦ ((), change m)

/-- Opens one more level, unless the parse has been given up; beyond the limit it is given up. -/
def descend : ObservedRule Bool := fun m ↦
  if m.state.abandoned then (false, m)
  else if nestingLimit < m.raise.counter then
    (false, { m.raise with state := m.state.abandon })
  else (true, m.raise)

theorem look_bind (next : State → ObservedRule α) (m : Observed) :
    (look >>= next) m = next m.state m := rfl

theorem advance_bind (next : Unit → ObservedRule α) (m : Observed) :
    (advance >>= next) m = next () { m with state := m.state.advance } := rfl

/-- What opening a level comes to: nothing if the parse has been given up, giving it up at the
limit, and a raised counter otherwise. -/
theorem descend_cases (m : Observed) :
    (m.state.abandoned = true ∧ descend m = (false, m)) ∨
      (m.state.abandoned = false ∧ nestingLimit ≤ m.counter ∧
        descend m = (false, { m.raise with state := m.state.abandon })) ∨
      (m.state.abandoned = false ∧ m.counter < nestingLimit ∧ descend m = (true, m.raise)) := by
  rw [descend]
  split_ifs with hgone hlimit
  · exact .inl ⟨hgone, rfl⟩
  · exact .inr (.inl ⟨Bool.not_eq_true _ ▸ hgone, Nat.le_of_lt_succ hlimit, rfl⟩)
  · exact .inr (.inr ⟨Bool.not_eq_true _ ▸ hgone, Nat.not_lt.mp hlimit, rfl⟩)

/-- Goes round as long as the condition holds, in at most `bound` rounds. -/
def repeatWhile (goes : State → Bool) (round : ObservedRule (List α)) :
    (bound : Nat) → Observed → List α × Observed
  | 0, m => ([], if goes m.state then m.breakOff else m)
  | bound + 1, m =>
    if goes m.state then
      let (xs, m₁) := round m
      let (ys, m₂) := repeatWhile goes round bound (m₁.endRound m.state)
      (xs ++ ys, m₂)
    else ([], m)

/-- Goes round as long as the condition holds. -/
def loop (goes : State → Bool) (round : ObservedRule (List α)) : ObservedRule (List α) := fun m ↦
  repeatWhile goes round m.state.pending.length m

/-! ## The rules for single constructs -/

/-- A further item, behind the comma that follows. -/
def nextItem (item : ObservedRule (Option α)) : ObservedRule (List α) := do
  advance
  advance
  let x ← item
  return x.toList

/-- One item or more, separated by commas. -/
def items (item : ObservedRule (Option α)) : ObservedRule (List α) := do
  let x ← item
  let xs ← loop (·.peek.kind == .comma) (nextItem item)
  return x.toList ++ xs

/-- Passes over the periods that follow. -/
def skipPeriods : ObservedRule Unit := fun m ↦
  ((), (loop (·.peek.kind == .period) (lift fun s ↦ (([] : List Unit), s.advance)) m).2)

/-- A comment, or an expression and the periods that close it. -/
def statement (sub : ObservedExprRule) : ObservedRule (Option Stmt) := do
  let s ← look
  if s.current.kind = .comment then return some (.comment s.current)
  let value ← sub .lowest
  skipPeriods
  return value.map (.expression s.current)

/-- A statement, and on to the token behind it. -/
def nextStatement (sub : ObservedExprRule) : ObservedRule (List Stmt) := do
  let x ← statement sub
  advance
  return x.toList

/-- Statements up to a token whose kind ends them. -/
def statementsUntil (sub : ObservedExprRule) (ends : Kind → Bool) : ObservedRule (List Stmt) :=
  loop (fun s ↦ !(s.abandoned || ends s.current.kind)) (nextStatement sub)

/-- The body of a function. -/
def body (sub : ObservedExprRule) : ObservedRule (List Stmt) := do
  advance
  let statements ← statementsUntil sub endsBody
  lift fun s ↦
    if s.current.kind = .eof ∧ !s.abandoned then
      (statements, s.report (.unexpectedToken .rbrace .eof) s.current)
    else (statements, s)

/-- An operator and its operand. -/
def unaryRule (sub : ObservedExprRule) : ObservedRule (Option Expr) := do
  let s ← look
  match UnaryOperator.ofKind? s.current.kind with
  | none => return none
  | some operator =>
    advance
    let right ← sub .unary
    return right.map (.unary s.current operator)

/-- An expression in parentheses. -/
def groupRule (sub : ObservedExprRule) : ObservedRule (Option Expr) := do
  advance
  let e ← sub .lowest
  let _ ← lift (·.expect .rparen)
  return e

/-- The parameters of a function. -/
def parameters : ObservedRule (Option (List Identifier)) := do
  advance
  let s ← look
  if s.current.kind = .rparen then return some []
  let names ← items (lift parameter)
  let closed ← lift (·.expect .rparen)
  return if closed then some names else none

/-- A function: its keyword, parameters and body. -/
def functionRule (sub : ObservedExprRule) : ObservedRule (Option Expr) := do
  let s ← look
  let opened ← lift (·.expect .lparen)
  if !opened then return none
  match ← parameters with
  | none => return none
  | some names =>
    let opened ← lift (·.expect .lbrace)
    if !opened then return none
    let brace ← look
    let statements ← body sub
    return some (.function s.current names brace.current statements)

/-- Expressions separated by commas up to a closing token, behind the opening one. -/
def expressionList (sub : ObservedExprRule) (close : Kind) : ObservedRule (List Expr) := do
  advance
  let s ← look
  if s.current.kind = close then return []
  let es ← items (sub .lowest)
  lift fun s ↦
    let (closed, s) := s.expect close
    (es, if closed then s else s.logUnclosed close)

/-- An array. -/
def arrayRule (sub : ObservedExprRule) : ObservedRule (Option Expr) := do
  let s ← look
  let es ← expressionList sub .rbracket
  return some (.array s.current es)

/-- The expression that the current token begins. If no rule is needed for parts of it, there is
nothing to observe. -/
def primary (sub : ObservedExprRule) : ObservedRule (Option Expr) := do
  let s ← look
  match s.current.kind with
  | .bang | .minus => unaryRule sub
  | .lparen => groupRule sub
  | .function => functionRule sub
  | .lbracket => arrayRule sub
  | _ => lift (Parser.primary fun _ s ↦ (none, s))

theorem primary_apply (sub : ObservedExprRule) (m : Observed) :
    primary sub m = match m.state.current.kind with
      | .bang | .minus => unaryRule sub m
      | .lparen => groupRule sub m
      | .function => functionRule sub m
      | .lbracket => arrayRule sub m
      | _ => lift (Parser.primary fun _ s ↦ (none, s)) m := by
  rw [primary, look_bind]
  cases m.state.current.kind <;> rfl

/-- A call, at its opening parenthesis. -/
def callRule (sub : ObservedExprRule) (callee : Expr) : ObservedRule (Option Expr) := do
  let s ← look
  let arguments ← expressionList sub .rparen
  return some (.call s.current callee arguments)

/-- An index, at its opening bracket. -/
def indexRule (sub : ObservedExprRule) (left : Expr) : ObservedRule (Option Expr) := do
  let s ← look
  advance
  let position ← sub .lowest
  let _ ← lift (·.expect .rbracket)
  return position.map (.index s.current left)

/-- An operator and its right operand. -/
def binaryRule (sub : ObservedExprRule) (left : Expr) (operator : BinaryOperator) :
    ObservedRule (Option Expr) := do
  let s ← look
  advance
  let right ← sub (.of s.current.kind)
  return right.map (.binary s.current left operator)

/-- What the current token makes of the expression on its left. -/
def continuation? (sub : ObservedExprRule) (left : Expr) (kind : Kind) :
    Option (ObservedRule (Option Expr)) :=
  match kind with
  | .lparen => some (callRule sub left)
  | .lbracket => some (indexRule sub left)
  | kind => (BinaryOperator.ofKind? kind).map (binaryRule sub left)

/-! ## Expressions -/

/-- Reads an expression by a rule that may leave the counter raised, and puts the counter back. -/
def activation (rule : ObservedRule (Option Expr × Nat)) : ObservedRule (Option Expr) := fun m ↦
  let ((value, folds), m') := rule m.enter
  (value, m'.leave ⟨m.counter, folds, value⟩)

/-- Opens a level, reads what a token begins and goes on with it. -/
def nested (sub : ObservedExprRule) (more : Expr → ObservedRule (Option Expr × Nat)) :
    ObservedRule (Option Expr × Nat) := do
  let going ← descend
  if !going then return (none, 0)
  match ← primary sub with
  | none => return (none, 0)
  | some left => more left

mutual

/-- An expression whose operators bind more tightly than `level`. -/
def expression : (fuel : Nat) → ObservedExprRule
  | 0, _ => do
    note breakOff
    return none
  | fuel + 1, level =>
    activation (nested (expression fuel) fun left ↦ chain fuel level left 0)

/-- Continues the expression `left`, which has been continued `folds` times, as far as the tokens
that follow bind more tightly than `level`. -/
def chain : (fuel : Nat) → Precedence → Expr → (folds : Nat) → ObservedRule (Option Expr × Nat)
  | 0, _, left, folds => do
    note breakOff
    return (some left, folds)
  | fuel + 1, level, left, folds => do
    let s ← look
    if !continues level s then return (some left, folds)
    let going ← descend
    if !going then return (some left, folds)
    advance
    match continuation? (expression fuel) left s.advance.current.kind with
    | none => return (some left, folds)
    | some rule =>
      let value ← rule
      note (·.endRound s)
      match value with
      | none => return (none, folds + 1)
      | some left => chain fuel level left (folds + 1)

end

end Observed

/-- The parse of a source under observation. As many calls can be open as there are values of the
counter up to the limit, so the recursion needs no more fuel. -/
def observe (source : String) : Program × Observed :=
  let (statements, m) := Observed.statementsUntil
    (Observed.expression (nestingLimit + 1)) (· == .eof) (.ofSource source)
  (⟨statements⟩, m)

end DrawScript.Parser
