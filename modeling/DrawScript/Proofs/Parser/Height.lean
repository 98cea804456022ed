import DrawScript.Proofs.Canonical.RoundTrip

/-!
# How tall trees become

The nesting limit bounds the levels that are open at one time. It does not bound the height of the
trees by the same number: the levels of an operand are closed again behind it, and the operators,
calls and indices that follow grow the tree on top of it once more. What the limit does bound are
the ways down that never turn to a left side, so trees exceed it by less than the height of their
tallest left side (`overhangs_expression`).

A rule with room for `n` levels can put `n` further nodes on what a rule with room for `n - 1`
levels has built, so there is a bound for all trees as well, the sum `n + (n - 1) + ⋯ + 1`. It is
sharp (`exists_height_eq_tallest`). `tower` reaches it at every number of levels: an array around a
lower tower, called as often as there is room for.

Both bounds rest on one account of what the rules build (`Begun`, `Continued`) and one induction
over it (`forall_mem_expression`).
-/

namespace DrawScript

/-! ## Heights -/

mutual

/-- The number of nodes on the longest way down from an expression. The expressions of a function
are those of its body. -/
def Expr.height : Expr → Nat
  | .identifier _ | .integer _ _ | .real _ _ | .string _ _ | .boolean _ _ => 1
  | .unary _ _ right => right.height + 1
  | .binary _ left _ right => max left.height right.height + 1
  | .function _ _ _ body => Stmt.heightList body + 1
  | .call _ callee arguments => max callee.height (Expr.heightList arguments) + 1
  | .array _ elements => Expr.heightList elements + 1
  | .index _ left position => max left.height position.height + 1

/-- The height of the tallest expression of a list. -/
def Expr.heightList : List Expr → Nat
  | [] => 0
  | e :: es => max e.height (Expr.heightList es)

/-- The height of the expression of a statement. -/
def Stmt.height : Stmt → Nat
  | .comment _ => 0
  | .expression _ value => value.height

/-- The height of the tallest expression among statements. -/
def Stmt.heightList : List Stmt → Nat
  | [] => 0
  | s :: ss => max s.height (Stmt.heightList ss)

end

/-- The height of the tallest expression of a script. -/
def Program.height (program : Program) : Nat :=
  Stmt.heightList program.statements

theorem Expr.heightList_le_iff {es : List Expr} {n : Nat} :
    Expr.heightList es ≤ n ↔ ∀ e ∈ es, e.height ≤ n := by
  induction es with
  | nil => simp [Expr.heightList]
  | cons e es ih => simp [Expr.heightList, ih]

mutual

theorem Expr.height_unplaced : (e : Expr) → e.unplaced.height = e.height
  | .identifier _ | .integer _ _ | .real _ _ | .string _ _ | .boolean _ _ => by
    simp [Expr.unplaced, Expr.height]
  | .unary _ _ right => by simp [Expr.unplaced, Expr.height, Expr.height_unplaced right]
  | .binary _ left _ right => by
    simp [Expr.unplaced, Expr.height, Expr.height_unplaced left, Expr.height_unplaced right]
  | .function _ _ _ body => by simp [Expr.unplaced, Expr.height, Stmt.heightList_unplaced body]
  | .call _ callee arguments => by
    simp [Expr.unplaced, Expr.height, Expr.height_unplaced callee,
      Expr.heightList_unplaced arguments]
  | .array _ elements => by simp [Expr.unplaced, Expr.height, Expr.heightList_unplaced elements]
  | .index _ left position => by
    simp [Expr.unplaced, Expr.height, Expr.height_unplaced left, Expr.height_unplaced position]

theorem Expr.heightList_unplaced :
    (es : List Expr) → Expr.heightList (Expr.unplacedList es) = Expr.heightList es
  | [] => rfl
  | e :: es => by
    simp [Expr.unplacedList, Expr.heightList, Expr.height_unplaced e, Expr.heightList_unplaced es]

theorem Stmt.height_unplaced : (s : Stmt) → s.unplaced.height = s.height
  | .comment _ => by simp [Stmt.unplaced, Stmt.height]
  | .expression _ value => by simp [Stmt.unplaced, Stmt.height, Expr.height_unplaced value]

theorem Stmt.heightList_unplaced :
    (ss : List Stmt) → Stmt.heightList (Stmt.unplacedList ss) = Stmt.heightList ss
  | [] => rfl
  | s :: ss => by
    simp [Stmt.unplacedList, Stmt.heightList, Stmt.height_unplaced s, Stmt.heightList_unplaced ss]

end

/-- Trees that differ in places alone are as tall. -/
theorem Program.height_eq_of_unplaced_eq {p q : Program} (h : p.unplaced = q.unplaced) :
    p.height = q.height := by
  have hheight := congrArg Program.height h
  rwa [Program.unplaced, Program.unplaced, Program.height, Program.height,
    Stmt.heightList_unplaced, Stmt.heightList_unplaced] at hheight

/-! ## Left sides -/

mutual

/-- The height of the tallest left side among the operators, calls and indices of an expression. -/
def Expr.leftHeight : Expr → Nat
  | .identifier _ | .integer _ _ | .real _ _ | .string _ _ | .boolean _ _ => 0
  | .unary _ _ right => right.leftHeight
  | .binary _ left _ right => max left.height right.leftHeight
  | .function _ _ _ body => Stmt.leftHeightList body
  | .call _ callee arguments => max callee.height (Expr.leftHeightList arguments)
  | .array _ elements => Expr.leftHeightList elements
  | .index _ left position => max left.height position.leftHeight

@[inherit_doc Expr.leftHeight]
def Expr.leftHeightList : List Expr → Nat
  | [] => 0
  | e :: es => max e.leftHeight (Expr.leftHeightList es)

@[inherit_doc Expr.leftHeight]
def Stmt.leftHeight : Stmt → Nat
  | .comment _ => 0
  | .expression _ value => value.leftHeight

@[inherit_doc Expr.leftHeight]
def Stmt.leftHeightList : List Stmt → Nat
  | [] => 0
  | s :: ss => max s.leftHeight (Stmt.leftHeightList ss)

end

@[inherit_doc Expr.leftHeight]
def Program.leftHeight (program : Program) : Nat :=
  Stmt.leftHeightList program.statements

theorem Expr.height_pos (e : Expr) : 0 < e.height := by
  cases e <;> exact Nat.succ_pos _

/-- The height exceeds `n` by less than the height of a left side. -/
def Expr.Overhangs (n : Nat) (e : Expr) : Prop :=
  e.height ≤ n + (e.leftHeight - 1)

theorem Expr.heightList_le_of_overhangs {es : List Expr} {n : Nat} (h : ∀ e ∈ es, e.Overhangs n) :
    Expr.heightList es ≤ n + (Expr.leftHeightList es - 1) := by
  induction es with
  | nil => exact Nat.zero_le _
  | cons e es ih =>
    obtain ⟨he, hes⟩ := List.forall_mem_cons.mp h
    have hrest := ih hes
    rw [Overhangs] at he
    rw [heightList, leftHeightList]
    omega

/-- The expression of a statement, if it has one, has the property. -/
def Stmt.ValueHas (P : Expr → Prop) : Stmt → Prop
  | .comment _ => True
  | .expression _ value => P value

theorem Stmt.heightList_le_of_valueHas {ss : List Stmt} {n : Nat}
    (h : ∀ s ∈ ss, s.ValueHas (·.height ≤ n)) : Stmt.heightList ss ≤ n := by
  induction ss with
  | nil => exact Nat.zero_le _
  | cons s ss ih =>
    obtain ⟨hs, hss⟩ := List.forall_mem_cons.mp h
    refine Nat.max_le.mpr ⟨?_, ih hss⟩
    cases s with
    | comment => exact Nat.zero_le _
    | expression t value => exact hs

theorem Stmt.heightList_le_of_overhangs {ss : List Stmt} {n : Nat}
    (h : ∀ s ∈ ss, s.ValueHas (·.Overhangs n)) :
    Stmt.heightList ss ≤ n + (Stmt.leftHeightList ss - 1) := by
  induction ss with
  | nil => exact Nat.zero_le _
  | cons s ss ih =>
    obtain ⟨hs, hss⟩ := List.forall_mem_cons.mp h
    have hrest := ih hss
    rw [heightList, leftHeightList]
    cases s with
    | comment =>
      rw [height, leftHeight]
      omega
    | expression t value =>
      rw [ValueHas, Expr.Overhangs] at hs
      rw [height, leftHeight]
      omega

/-! ## What the rules build -/

namespace Parser

open Token (Kind)

variable {s : State} {sub : ExprRule} {P : Expr → Prop}

/-- What a token begins, of parts that have the property. -/
inductive Begun (P : Expr → Prop) : Expr → Prop
  | leaf {e : Expr} (height : e.height = 1) : Begun P e
  | unary {t : Token} {operator : UnaryOperator} {right : Expr} (part : P right) :
      Begun P (.unary t operator right)
  | group {e : Expr} (part : P e) : Begun P e
  | function {t brace : Token} {names : List Identifier} {body : List Stmt}
      (parts : ∀ x ∈ body, x.ValueHas P) : Begun P (.function t names brace body)
  | array {t : Token} {elements : List Expr} (parts : ∀ e ∈ elements, P e) :
      Begun P (.array t elements)

/-- What a token makes of an expression on its left and of parts that have the property. -/
inductive Continued (P : Expr → Prop) (left : Expr) : Expr → Prop
  | call {t : Token} {arguments : List Expr} (parts : ∀ e ∈ arguments, P e) :
      Continued P left (.call t left arguments)
  | index {t : Token} {position : Expr} (part : P position) :
      Continued P left (.index t left position)
  | binary {t : Token} {operator : BinaryOperator} {right : Expr} (part : P right) :
      Continued P left (.binary t left operator right)

/-- The expressions of the rule have the property. -/
def Yields (P : Expr → Prop) (rule : Rule (Option Expr)) : Prop :=
  ∀ s, ∀ e ∈ (rule s).1, P e

theorem valueHas_statement (hsub : Yields P (sub .lowest)) (s : State) :
    ∀ x ∈ (statement sub s).1, x.ValueHas P := by
  intro x hx
  rw [statement] at hx
  split_ifs at hx with hcomment
  · obtain rfl := Option.some.inj hx
    trivial
  · obtain ⟨value, hvalue, rfl⟩ := Option.map_eq_some_iff.mp hx
    exact hsub s value hvalue

theorem valueHas_statementsUntil (hsub : Yields P (sub .lowest)) (ends : Kind → Bool)
    (bound : Nat) : ∀ s, ∀ x ∈ (statementsUntil sub ends bound s).1, x.ValueHas P := by
  induction bound with
  | zero => exact fun _ x hx ↦ absurd hx List.not_mem_nil
  | succ bound ih =>
    intro s x hx
    rw [statementsUntil] at hx
    split_ifs at hx with hend
    · exact absurd hx List.not_mem_nil
    · rcases List.mem_append.mp hx with hx | hx
      · exact valueHas_statement hsub s x (Option.mem_toList.mp hx)
      · exact ih _ x hx

theorem valueHas_body (hsub : Yields P (sub .lowest)) (s : State) :
    ∀ x ∈ (body sub s).1, x.ValueHas P := by
  have hread := valueHas_statementsUntil hsub endsBody s.advance.pending.length s.advance
  simp only [body]
  split_ifs <;> exact hread

theorem forall_mem_expressionList (hsub : Yields P (sub .lowest)) (close : Kind) (s : State) :
    ∀ e ∈ (expressionList sub close s).1, P e := by
  have hitems : ∀ e ∈ (items (sub .lowest) s.advance).1, P e :=
    forall_mem_items (P := fun _ ↦ True) (fun _ _ ↦ trivial) (fun s _ ↦ ⟨hsub s, trivial⟩) trivial
  simp only [expressionList]
  split_ifs with hempty
  · exact fun e he ↦ absurd he List.not_mem_nil
  all_goals exact hitems

theorem begun_functionRule (hsub : Yields P (sub .lowest)) :
    Yields (Begun P) (functionRule sub) := by
  intro s e he
  simp only [functionRule] at he
  split_ifs at he with hfail
  · exact absurd he (Option.not_mem_none e)
  split at he
  · exact absurd he (Option.not_mem_none e)
  split_ifs at he with hfail'
  · exact absurd he (Option.not_mem_none e)
  obtain rfl := Option.some.inj he
  exact .function (valueHas_body hsub _)

theorem begun_literal {α : Type} {target : String} {value : Option α} {leaf : Token → α → Expr}
    (hleaf : ∀ t v, (leaf t v).height = 1) : Yields (Begun P) (literal target value leaf) := by
  intro s e he
  cases value with
  | none => exact absurd he (Option.not_mem_none e)
  | some v =>
    obtain rfl := Option.some.inj he
    exact .leaf (hleaf _ v)

theorem begun_unaryRule (hsub : Yields P (sub .unary)) : Yields (Begun P) (unaryRule sub) := by
  intro s e he
  rw [unaryRule] at he
  split at he
  · exact absurd he (Option.not_mem_none e)
  · obtain ⟨right, hright, rfl⟩ := Option.map_eq_some_iff.mp he
    exact .unary (hsub _ right hright)

theorem begun_primary (hsub : ∀ level, Yields P (sub level)) : Yields (Begun P) (primary sub) := by
  intro s
  rw [primary]
  split
  case h_1 => exact fun e he ↦ Option.some.inj he ▸ .leaf rfl
  case h_2 => exact begun_literal (fun _ _ ↦ rfl) s
  case h_3 => exact begun_literal (fun _ _ ↦ rfl) s
  case h_4 => exact fun e he ↦ Option.some.inj he ▸ .leaf rfl
  case h_5 => exact begun_literal (fun _ _ ↦ rfl) s
  case h_6 => exact begun_literal (fun _ _ ↦ rfl) s
  case h_7 => exact begun_unaryRule (hsub .unary) s
  case h_8 => exact begun_unaryRule (hsub .unary) s
  case h_9 => exact fun e he ↦ .group (hsub .lowest _ e he)
  case h_10 => exact begun_functionRule (hsub .lowest) s
  case h_11 =>
    exact fun e he ↦ Option.some.inj he ▸
      .array (forall_mem_expressionList (hsub .lowest) .rbracket s)
  case h_12 => exact fun e he ↦ absurd he (Option.not_mem_none e)

theorem continued_of_continuation (hsub : ∀ level, Yields P (sub level)) {left : Expr}
    {kind : Kind} {rule : Rule (Option Expr)}
    (hrule : continuation? sub left kind = some rule) : Yields (Continued P left) rule := by
  intro s e he
  unfold continuation? at hrule
  split at hrule
  · obtain rfl := Option.some.inj hrule
    obtain rfl := Option.some.inj he
    exact .call (forall_mem_expressionList (hsub .lowest) .rparen s)
  · obtain rfl := Option.some.inj hrule
    obtain ⟨position, hposition, rfl⟩ := Option.map_eq_some_iff.mp he
    exact .index (hsub .lowest _ position hposition)
  · obtain ⟨operator, -, rfl⟩ := Option.map_eq_some_iff.mp hrule
    obtain ⟨right, hright, rfl⟩ := Option.map_eq_some_iff.mp he
    exact .binary (hsub _ _ right hright)

/-- **Induction over what is built.** `P n` is shown of the expressions that are read with room for
`n` levels. On the way, `Q n m` holds of the left side of the loop, where `m` of the `n` levels
are not open yet. -/
theorem forall_mem_expression {P : Nat → Expr → Prop} {Q : Nat → Nat → Expr → Prop}
    (hbegun : ∀ room e, Begun (P room) e → Q (room + 1) room e)
    (hcontinued : ∀ total room left e, Q total (room + 1) left → Continued (P room) left e →
      Q total room e)
    (hdone : ∀ total room e, Q total room e → P total e) (room : Nat) (level : Precedence) :
    Yields (P room) (expression room level) := by
  -- the rule for expressions and its loop descend together
  suffices h : (∀ level, Yields (P room) (expression room level)) ∧
      ∀ total level left, Q total room left → Yields (P total) (chain room level left) from
    h.1 level
  clear level
  induction room with
  | zero =>
    refine ⟨fun level s e he ↦ absurd he (Option.not_mem_none e), fun total level left hleft ↦ ?_⟩
    exact fun s e he ↦ Option.some.inj he ▸ hdone _ _ _ hleft
  | succ room ih =>
    obtain ⟨hexpression, hchain⟩ := ih
    constructor
    · intro level s
      rw [expression]
      split_ifs with hgoing
      · exact fun e he ↦ absurd he (Option.not_mem_none e)
      have hprimary := begun_primary hexpression s
      split
      · exact fun e he ↦ absurd he (Option.not_mem_none e)
      next left s' heq =>
      rw [heq] at hprimary
      exact hchain _ level left (hbegun room left (hprimary left rfl)) s'
    · intro total level left hleft s
      have hstay : ∀ e ∈ some left, P total e := fun e he ↦
        Option.some.inj he ▸ hdone _ _ _ hleft
      rw [chain]
      split_ifs with hstop
      · exact hstay
      split
      · exact hstay
      next rule hrule =>
      have hround := continued_of_continuation hexpression hrule s.advance
      split
      · exact fun e he ↦ absurd he (Option.not_mem_none e)
      next left' s' heq =>
      rw [heq] at hround
      exact hchain total level left' (hcontinued _ _ _ _ hleft (hround left' rfl)) s'

/-! ## The bound for all trees -/

/-- The height that room for so many levels admits. -/
def tallest (room : Nat) : Nat :=
  room * (room + 1) / 2

theorem tallest_succ (room : Nat) : tallest (room + 1) = tallest room + (room + 1) := by
  have hsum : (room + 1) * (room + 1 + 1) = room * (room + 1) + (room + 1) * 2 := by ring
  rw [tallest, hsum, Nat.add_mul_div_right _ _ Nat.two_pos, tallest]

/-- What a token begins is one node higher than its parts. -/
theorem Begun.height_le {e : Expr} {h : Nat} (he : Begun (·.height ≤ h) e) : e.height ≤ h + 1 := by
  cases he with
  | leaf height => omega
  | unary part => exact Nat.succ_le_succ part
  | group part => exact Nat.le_succ_of_le part
  | function parts => exact Nat.succ_le_succ (Stmt.heightList_le_of_valueHas parts)
  | array parts => exact Nat.succ_le_succ (Expr.heightList_le_iff.mpr parts)

/-- What a token continues is one node higher than the higher of its parts. -/
theorem Continued.height_le {left e : Expr} {h : Nat} (he : Continued (·.height ≤ h) left e) :
    e.height ≤ max left.height h + 1 := by
  cases he with
  | call parts =>
    exact Nat.succ_le_succ (max_le_max (Nat.le_refl _) (Expr.heightList_le_iff.mpr parts))
  | index part => exact Nat.succ_le_succ (max_le_max (Nat.le_refl _) part)
  | binary part => exact Nat.succ_le_succ (max_le_max (Nat.le_refl _) part)

/-- Each round of the loop adds one node to a left side that is at least as tall as the right sides
can be. -/
theorem height_expression_le (room : Nat) (level : Precedence) :
    Yields (·.height ≤ tallest room) (expression room level) := by
  refine forall_mem_expression (P := fun room e ↦ e.height ≤ tallest room)
    (Q := fun total room e ↦ max e.height (tallest room) + room ≤ tallest total)
    (fun room e he ↦ ?_) (fun total room left e hleft he ↦ ?_) (fun total room e h ↦ ?_) room level
  · have hheight := he.height_le
    rw [tallest_succ]
    omega
  · have hheight := he.height_le
    rw [tallest_succ] at hleft
    omega
  · omega

/-! ## The bound by left sides -/

theorem Begun.overhangs {e : Expr} {n : Nat} (he : Begun (·.Overhangs n) e) :
    e.Overhangs (n + 1) := by
  rw [Expr.Overhangs]
  cases he with
  | leaf height => omega
  | @unary t operator right part =>
    rw [Expr.Overhangs] at part
    rw [Expr.height, Expr.leftHeight]
    omega
  | group part =>
    rw [Expr.Overhangs] at part
    omega
  | function parts =>
    have hbody := Stmt.heightList_le_of_overhangs parts
    rw [Expr.height, Expr.leftHeight]
    omega
  | array parts =>
    have helements := Expr.heightList_le_of_overhangs parts
    rw [Expr.height, Expr.leftHeight]
    omega

/-- A continued expression is higher than its left side by one, and that is less than two levels. -/
theorem Continued.overhangs {left e : Expr} {n total : Nat} (he : Continued (·.Overhangs n) left e)
    (htotal : n + 2 ≤ total) : e.Overhangs total := by
  have hleft := left.height_pos
  rw [Expr.Overhangs]
  cases he with
  | call parts =>
    have harguments := Expr.heightList_le_of_overhangs parts
    rw [Expr.height, Expr.leftHeight]
    omega
  | index part =>
    rw [Expr.Overhangs] at part
    rw [Expr.height, Expr.leftHeight]
    omega
  | binary part =>
    rw [Expr.Overhangs] at part
    rw [Expr.height, Expr.leftHeight]
    omega

theorem overhangs_expression (room : Nat) (level : Precedence) :
    Yields (·.Overhangs room) (expression room level) :=
  forall_mem_expression (P := fun room e ↦ e.Overhangs room)
    (Q := fun total room e ↦ room < total ∧ e.Overhangs total)
    (fun room _ he ↦ ⟨Nat.lt_succ_self room, he.overhangs⟩)
    (fun _ _ _ _ hleft he ↦ ⟨Nat.lt_of_succ_lt hleft.1, he.overhangs hleft.1⟩)
    (fun _ _ _ h ↦ h.2) room level

end Parser

/-! ## Towers -/

open Token (mark)

/-- An expression that is called so many times in a row, without arguments. -/
def Expr.calledTimes (e : Expr) : Nat → Expr
  | 0 => e
  | n + 1 => .call (mark .lparen) (e.calledTimes n) []

/-- The tallest expression whose canonical text takes `n + 1` levels. -/
def tower : Nat → Expr
  | 0 => .identifier (.ofToken ⟨.ident, "a", ⟨0, 0⟩⟩)
  | n + 1 => (Expr.array (mark .lbracket) [tower n]).calledTimes (n + 1)

theorem Expr.height_calledTimes (e : Expr) (n : Nat) :
    (e.calledTimes n).height = e.height + n := by
  induction n with
  | zero => rfl
  | succ n ih => rw [calledTimes, height, heightList, Nat.max_zero, ih, Nat.add_assoc]

theorem Expr.calls_calledTimes (e : Expr) (n : Nat) : (e.calledTimes n).calls = e.calls + n := by
  induction n with
  | zero => rfl
  | succ n ih => rw [calledTimes, calls, ih, Nat.add_assoc]

/-- Calls in a row take levels only as far as there are more of them than levels inside. -/
theorem Expr.depth_calledTimes_le {e : Expr} {n d : Nat} (hcalls : e.calls = 0)
    (hdepth : e.depth ≤ d) (hn : n < d) : (e.calledTimes n).depth ≤ d := by
  induction n with
  | zero => exact hdepth
  | succ n ih =>
    rw [calledTimes, depth, depthList, calls_calledTimes, hcalls]
    exact Nat.max_le.mpr ⟨ih (by omega), by omega⟩

theorem Expr.wellFormed_calledTimes {e : Expr} (he : e.WellFormed) (n : Nat) :
    (e.calledTimes n).WellFormed := by
  induction n with
  | zero => exact he
  | succ n ih => exact ⟨⟨rfl, rfl⟩, ih, trivial⟩

theorem height_tower (n : Nat) : (tower n).height = Parser.tallest (n + 1) := by
  induction n with
  | zero => rfl
  | succ n ih =>
    rw [tower, Expr.height_calledTimes, Expr.height, Expr.heightList, Expr.heightList,
      Nat.max_zero, ih, Parser.tallest_succ (n + 1)]
    omega

theorem depth_tower_le (n : Nat) : (tower n).depth ≤ n + 1 := by
  induction n with
  | zero => exact Nat.le_refl 1
  | succ n ih =>
    refine Expr.depth_calledTimes_le rfl ?_ (Nat.lt_succ_self _)
    rw [Expr.depth, Expr.depthList, Expr.depthList, Nat.max_zero]
    exact Nat.succ_le_succ ih

theorem wellFormed_tower (n : Nat) : (tower n).WellFormed := by
  induction n with
  | zero => exact ⟨⟨rfl, ⟨'a', [], rfl, rfl, fun _ h ↦ absurd h List.not_mem_nil⟩, by decide⟩, rfl⟩
  | succ n ih =>
    have harray : (Expr.array (mark .lbracket) [tower n]).WellFormed := ⟨⟨rfl, rfl⟩, ih, trivial⟩
    exact Expr.wellFormed_calledTimes harray (n + 1)

/-! ## Documents -/

open DrawScript.Parser (nestingLimit tallest)

/-- The canonical text of a tower that the limit admits is read without a remark. -/
theorem exists_height_eq_tallest {n : Nat} (hn : n + 1 ≤ nestingLimit) :
    ∃ source, (Document.ofSource source).isClean = true ∧
      (Document.ofSource source).program.height = tallest (n + 1) := by
  let p : Program := ⟨[.expression (.eof 0) (tower n)]⟩
  have hp : p.WellFormed := ⟨wellFormed_tower n, trivial⟩
  have hdeep : ¬(Document.ofSource p.render).IsTooDeep := by
    rw [Grammar.isTooDeep_render_iff hp, Nat.not_lt]
    exact Nat.max_le.mpr ⟨(depth_tower_le n).trans hn, Nat.zero_le _⟩
  obtain ⟨hclean, hunplaced⟩ := Grammar.document_eq_of_render hp hdeep
  refine ⟨p.render, hclean, ?_⟩
  calc (Document.ofSource p.render).program.height
      = p.height := Program.height_eq_of_unplaced_eq hunplaced
    _ = max (tower n).height 0 := rfl
    _ = tallest (n + 1) := by rw [Nat.max_zero, height_tower]

/-- **How far trees exceed the nesting limit.** An expression of a parsed source is higher than the
limit by less than the height of a left side in it, and never higher than the sum of the levels. -/
theorem height_document_le (source : String) :
    (Document.ofSource source).program.height
        ≤ nestingLimit + ((Document.ofSource source).program.leftHeight - 1) ∧
      (Document.ofSource source).program.height ≤ nestingLimit * (nestingLimit + 1) / 2 :=
  ⟨Stmt.heightList_le_of_overhangs
      (Parser.valueHas_statementsUntil (Parser.overhangs_expression nestingLimit .lowest) _ _ _),
    Stmt.heightList_le_of_valueHas
      (Parser.valueHas_statementsUntil (Parser.height_expression_le nestingLimit .lowest) _ _ _)⟩

/-- The limit itself is no bound: 127 signs before a name take all levels, and the sum that they are
a part of stands on top of them. -/
theorem height_document_above_limit :
    (Document.ofSource (String.ofList (List.replicate 127 '-' ++ ['a', '+', '1']))).isClean = true ∧
      nestingLimit < (Document.ofSource
        (String.ofList (List.replicate 127 '-' ++ ['a', '+', '1']))).program.height := by
  decide +kernel

end DrawScript
