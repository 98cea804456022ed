import DrawScript.Proofs.Parser.Steps
import DrawScript.Proofs.Token.Places
import DrawScript.Document

/-!
# Places do not matter to the parser

The rules of the parser look at the kinds and the lexemes of tokens. Spans are handed on, into the
tree and into diagnostics, and never decide anything. So a parse whose tokens have been moved to
other places gives the same tree and the same diagnostics, moved likewise (`carries_program`). What
was reported earlier decides nothing either. It stays where it is, and what the parse reports is put
behind it (`resumes_program`).

As for the other facts about rules, the rules for single constructs take the rule for expressions
as an argument, ask of it what is shown of them, and the recursion is closed at the end.
-/

namespace DrawScript

/-! ## Moving trees and diagnostics -/

/-- The same name at another place. -/
def Identifier.relocate (r : Relocation) (name : Identifier) : Identifier :=
  { name with token := name.token.relocate r }

mutual

/-- The same expression at other places. -/
def Expr.relocate (r : Relocation) : Expr → Expr
  | .identifier name => .identifier (name.relocate r)
  | .integer token value => .integer (token.relocate r) value
  | .real token value => .real (token.relocate r) value
  | .string token value => .string (token.relocate r) value
  | .boolean token value => .boolean (token.relocate r) value
  | .unary token operator right => .unary (token.relocate r) operator (right.relocate r)
  | .binary token left operator right =>
    .binary (token.relocate r) (left.relocate r) operator (right.relocate r)
  | .function token parameters brace body =>
    .function (token.relocate r) (parameters.map (·.relocate r)) (brace.relocate r)
      (Stmt.relocateList r body)
  | .call token callee arguments =>
    .call (token.relocate r) (callee.relocate r) (Expr.relocateList r arguments)
  | .array token elements => .array (token.relocate r) (Expr.relocateList r elements)
  | .index token left position =>
    .index (token.relocate r) (left.relocate r) (position.relocate r)

/-- The same expressions at other places. -/
def Expr.relocateList (r : Relocation) : List Expr → List Expr
  | [] => []
  | e :: es => e.relocate r :: Expr.relocateList r es

/-- The same statement at other places. -/
def Stmt.relocate (r : Relocation) : Stmt → Stmt
  | .comment token => .comment (token.relocate r)
  | .expression token value => .expression (token.relocate r) (value.relocate r)

/-- The same statements at other places. -/
def Stmt.relocateList (r : Relocation) : List Stmt → List Stmt
  | [] => []
  | s :: ss => s.relocate r :: Stmt.relocateList r ss

end

/-- The same script at other places. -/
def Program.relocate (r : Relocation) (program : Program) : Program :=
  ⟨Stmt.relocateList r program.statements⟩

/-- The same diagnostic at another place. -/
def Diagnostic.relocate (r : Relocation) (diagnostic : Diagnostic) : Diagnostic :=
  { diagnostic with span := r.place diagnostic.span }

variable {r : Relocation}

theorem Expr.relocateList_eq_map (es : List Expr) :
    Expr.relocateList r es = es.map (·.relocate r) := by
  induction es with
  | nil => rfl
  | cons e es ih => rw [Expr.relocateList, ih, List.map_cons]

theorem Stmt.relocateList_eq_map (ss : List Stmt) :
    Stmt.relocateList r ss = ss.map (·.relocate r) := by
  induction ss with
  | nil => rfl
  | cons s ss ih => rw [Stmt.relocateList, ih, List.map_cons]

namespace Parser

open Token (Kind)

variable {s : State} {sub : ExprRule} {room : Nat} {level : Precedence}

/-! ## Moving states -/

namespace State

/-- The same state with all tokens at other places. -/
def relocate (r : Relocation) (s : State) : State :=
  ⟨s.pending.map (·.relocate r), r.mark s.stop, s.abandoned,
    s.diagnostics.map (·.relocate r), s.log⟩

/-- The same state with all tokens at other places, behind what was reported earlier. -/
def resume (r : Relocation) (earlier : Array Diagnostic) (s : State) : State :=
  { s.relocate r with diagnostics := earlier ++ (s.relocate r).diagnostics }

variable {earlier : Array Diagnostic}

theorem resume_empty (s : State) : s.resume r #[] = s.relocate r := by
  rw [resume, Array.empty_append]

@[simp] theorem abandoned_resume (s : State) : (s.resume r earlier).abandoned = s.abandoned := rfl

theorem toList_diagnostics_resume (s : State) :
    (s.resume r earlier).diagnostics.toList
      = earlier.toList ++ s.diagnostics.toList.map (·.relocate r) := by
  rw [resume, relocate, Array.toList_append, Array.toList_map]

@[simp] theorem length_pending_resume (s : State) :
    (s.resume r earlier).pending.length = s.pending.length := List.length_map ..

@[simp] theorem current_resume (s : State) :
    (s.resume r earlier).current = s.current.relocate r := by
  obtain ⟨_ | ⟨t, ts⟩, stop, abandoned, diagnostics, log⟩ := s
  · exact (Token.relocate_eof r stop).symm
  · rfl

@[simp] theorem peek_resume (s : State) : (s.resume r earlier).peek = s.peek.relocate r := by
  obtain ⟨_ | ⟨t, _ | ⟨u, ts⟩⟩, stop, abandoned, diagnostics, log⟩ := s
  · exact (Token.relocate_eof r stop).symm
  · exact (Token.relocate_eof r stop).symm
  · rfl

@[simp] theorem advance_resume (s : State) :
    (s.resume r earlier).advance = s.advance.resume r earlier := by
  simp only [resume, relocate, advance, List.map_tail]

@[simp] theorem report_resume (s : State) (fault : Fault) (t : Token) :
    (s.resume r earlier).report fault (t.relocate r) = (s.report fault t).resume r earlier := by
  simp only [resume, relocate, report, Array.map_push, Array.append_push]
  rfl

@[simp] theorem abandon_resume (s : State) :
    (s.resume r earlier).abandon = s.abandon.resume r earlier := by
  rw [abandon, abandon, abandoned_resume, current_resume, report_resume]
  split_ifs <;> rfl

@[simp] theorem expect_resume (s : State) (kind : Kind) :
    (s.resume r earlier).expect kind
      = ((s.expect kind).1, (s.expect kind).2.resume r earlier) := by
  rw [expect, expect, abandoned_resume, peek_resume, Token.kind_relocate, advance_resume,
    report_resume]
  split_ifs <;> rfl

@[simp] theorem skipPeriods_resume (s : State) :
    (s.resume r earlier).skipPeriods = s.skipPeriods.resume r earlier := by
  have hdrop : ∀ ts : List Token, skipPeriods.drop (ts.map (·.relocate r))
      = (skipPeriods.drop ts).map (·.relocate r) := by
    intro ts
    fun_induction skipPeriods.drop ts with
    | case1 a b rest hb ih => simp [skipPeriods.drop, hb, ← ih]
    | case2 a b rest hb => simp [skipPeriods.drop, hb]
    | case3 ts hshort =>
      rcases ts with _ | ⟨a, _ | ⟨b, rest⟩⟩
      · rfl
      · rfl
      · exact absurd rfl (hshort a b rest)
  simp only [skipPeriods, resume, relocate, hdrop]

@[simp] theorem logUnclosed_resume (s : State) (close : Kind) :
    (s.resume r earlier).logUnclosed close = (s.logUnclosed close).resume r earlier := by
  rw [logUnclosed, peek_resume]
  rfl

end State

/-! ## Lists and statements -/

/-- The rule does at other places and behind other reports what it does here, and its values are
moved by `move`. -/
def Resumes {α : Type} (r : Relocation) (move : α → α) (rule : Rule α) : Prop :=
  ∀ earlier s, rule (s.resume r earlier) = (move (rule s).1, (rule s).2.resume r earlier)

/-- The rule does at other places what it does here, and its values are moved by `move`. -/
def Carries {α : Type} (r : Relocation) (move : α → α) (rule : Rule α) : Prop :=
  ∀ s, rule (s.relocate r) = (move (rule s).1, (rule s).2.relocate r)

theorem Resumes.carries {α : Type} {move : α → α} {rule : Rule α} (h : Resumes r move rule) :
    Carries r move rule := by
  intro s
  have hrun := h #[] s
  rwa [State.resume_empty, State.resume_empty] at hrun

section Lists

variable {α : Type} {item : Rule (Option α)} {move : α → α}

theorem toList_map_append (x : Option α) (xs : List α) :
    (x.map move).toList ++ xs.map move = (x.toList ++ xs).map move := by
  cases x <;> rfl

theorem resumes_moreItems (hitem : Resumes r (Option.map move) item) (bound : Nat) :
    Resumes r (List.map move) (moreItems item bound) := by
  induction bound with
  | zero => exact fun _ s ↦ rfl
  | succ bound ih =>
    intro earlier s
    rw [moreItems, moreItems]
    simp only [State.peek_resume, Token.kind_relocate, State.advance_resume, hitem _ _, ih _ _]
    split_ifs with hcomma
    · rw [toList_map_append]
    · rfl

theorem resumes_items (hitem : Resumes r (Option.map move) item) :
    Resumes r (List.map move) (items item) := by
  intro earlier s
  rw [items, items]
  simp only [hitem earlier s, State.length_pending_resume, resumes_moreItems hitem _ _ _,
    toList_map_append]

end Lists

/-- The rule for expressions moves what it builds. -/
def ResumesExpr (r : Relocation) (sub : ExprRule) : Prop :=
  ∀ level, Resumes r (Option.map (·.relocate r)) (sub level)

theorem resumes_statement (hsub : ResumesExpr r sub) :
    Resumes r (Option.map (·.relocate r)) (statement sub) := by
  intro earlier s
  rw [statement, statement]
  simp only [State.current_resume, Token.kind_relocate, hsub .lowest earlier s,
    State.skipPeriods_resume]
  split_ifs with hcomment
  · rfl
  · simp only [Option.map_map]
    rfl

theorem resumes_statementsUntil (hsub : ResumesExpr r sub) (ends : Kind → Bool) (bound : Nat) :
    Resumes r (List.map (·.relocate r)) (statementsUntil sub ends bound) := by
  induction bound with
  | zero => exact fun _ s ↦ rfl
  | succ bound ih =>
    intro earlier s
    rw [statementsUntil, statementsUntil]
    simp only [State.abandoned_resume, State.current_resume, Token.kind_relocate,
      resumes_statement hsub earlier s, State.advance_resume, ih _ _]
    split_ifs with hend
    · rfl
    · rw [toList_map_append]

theorem resumes_body (hsub : ResumesExpr r sub) :
    Resumes r (List.map (·.relocate r)) (body sub) := by
  intro earlier s
  rw [body, body]
  simp only [State.advance_resume, State.length_pending_resume,
    resumes_statementsUntil hsub endsBody _ _ _, State.current_resume, Token.kind_relocate,
    State.abandoned_resume, State.report_resume]
  split_ifs with hopen <;> rfl

/-! ## Expressions that a token begins -/

theorem resumes_parameter : Resumes r (Option.map (·.relocate r)) parameter := by
  intro earlier s
  rw [parameter, parameter]
  simp only [State.current_resume, Token.kind_relocate, State.report_resume]
  split_ifs with hident <;> rfl

theorem resumes_parameters :
    Resumes r (Option.map (List.map (·.relocate r))) parameters := by
  intro earlier s
  rw [parameters, parameters]
  simp only [State.advance_resume, State.current_resume, Token.kind_relocate,
    resumes_items resumes_parameter _ _, State.expect_resume]
  split_ifs with hempty hclosed <;> rfl

theorem resumes_functionRule (hsub : ResumesExpr r sub) :
    Resumes r (Option.map (·.relocate r)) (functionRule sub) := by
  intro earlier s
  rw [functionRule, functionRule]
  simp only [State.expect_resume, resumes_parameters _ _, State.current_resume]
  split_ifs with hfail
  · rfl
  rcases parameters (s.expect .lparen).2 with ⟨_ | names, s₁⟩
  · rfl
  simp only [Option.map_some, State.expect_resume, resumes_body hsub _ _,
    State.current_resume]
  split_ifs with hfail'
  · rfl
  · simp only [Option.map_some, Expr.relocate, Stmt.relocateList_eq_map]

theorem resumes_expressionList (hsub : ResumesExpr r sub) (close : Kind) :
    Resumes r (List.map (·.relocate r)) (expressionList sub close) := by
  intro earlier s
  rw [expressionList, expressionList]
  simp only [State.advance_resume, State.current_resume, Token.kind_relocate,
    resumes_items (hsub .lowest) _ _, State.expect_resume, State.logUnclosed_resume]
  split_ifs with hempty hclosed <;> rfl

theorem resumes_literal {α : Type} {target : String} {value : Option α} {leaf : Token → α → Expr}
    (hleaf : ∀ t v, (leaf t v).relocate r = leaf (t.relocate r) v) :
    Resumes r (Option.map (·.relocate r)) (literal target value leaf) := by
  intro earlier s
  cases value with
  | none =>
    simp only [literal, State.current_resume, Token.lexeme_relocate, State.report_resume]
    rfl
  | some v => simp only [literal, State.current_resume, Option.map_some, hleaf]

theorem resumes_unaryRule (hsub : ResumesExpr r sub) :
    Resumes r (Option.map (·.relocate r)) (unaryRule sub) := by
  intro earlier s
  rw [unaryRule, unaryRule]
  simp only [State.current_resume, Token.kind_relocate, State.advance_resume,
    hsub .unary earlier s.advance]
  split
  · rfl
  · simp only [Option.map_map]
    rfl

theorem resumes_groupRule (hsub : ResumesExpr r sub) :
    Resumes r (Option.map (·.relocate r)) (groupRule sub) := by
  intro earlier s
  simp only [groupRule, State.advance_resume, hsub .lowest earlier s.advance, State.expect_resume]

theorem resumes_arrayRule (hsub : ResumesExpr r sub) :
    Resumes r (Option.map (·.relocate r)) (arrayRule sub) := by
  intro earlier s
  simp only [arrayRule, resumes_expressionList hsub .rbracket earlier s, State.current_resume,
    Option.map_some, Expr.relocate, Expr.relocateList_eq_map]

theorem resumes_primary (hsub : ResumesExpr r sub) :
    Resumes r (Option.map (·.relocate r)) (primary sub) := by
  intro earlier s
  rw [primary, primary, State.current_resume, Token.kind_relocate, Token.lexeme_relocate]
  split
  case h_1 => rfl
  case h_2 => exact resumes_literal (fun _ _ ↦ rfl) earlier s
  case h_3 => exact resumes_literal (fun _ _ ↦ rfl) earlier s
  case h_4 => rfl
  case h_5 => exact resumes_literal (fun _ _ ↦ rfl) earlier s
  case h_6 => exact resumes_literal (fun _ _ ↦ rfl) earlier s
  case h_7 => exact resumes_unaryRule hsub earlier s
  case h_8 => exact resumes_unaryRule hsub earlier s
  case h_9 => exact resumes_groupRule hsub earlier s
  case h_10 => exact resumes_functionRule hsub earlier s
  case h_11 => exact resumes_arrayRule hsub earlier s
  case h_12 => rw [State.report_resume]; rfl

/-! ## Expressions that a token continues -/

/-- The rule that continues a moved expression is found at the same tokens, and it moves what it
builds. -/
theorem resumes_continuation (hsub : ResumesExpr r sub) (left : Expr) (kind : Kind) :
    (continuation? sub left kind = none ∧ continuation? sub (left.relocate r) kind = none) ∨
      ∃ rule rule', continuation? sub left kind = some rule ∧
        continuation? sub (left.relocate r) kind = some rule' ∧
        ∀ earlier s, rule' (s.resume r earlier)
          = ((rule s).1.map (·.relocate r), (rule s).2.resume r earlier) := by
  unfold continuation?
  split
  · refine .inr ⟨_, _, rfl, rfl, fun earlier s ↦ ?_⟩
    simp only [callRule, resumes_expressionList hsub .rparen earlier s, State.current_resume,
      Option.map_some, Expr.relocate, Expr.relocateList_eq_map]
  · refine .inr ⟨_, _, rfl, rfl, fun earlier s ↦ ?_⟩
    simp only [indexRule, State.advance_resume, hsub .lowest earlier s.advance, State.expect_resume,
      State.current_resume, Option.map_map]
    rfl
  · cases BinaryOperator.ofKind? kind with
    | none => exact .inl ⟨rfl, rfl⟩
    | some operator =>
      refine .inr ⟨_, _, rfl, rfl, fun earlier s ↦ ?_⟩
      simp only [binaryRule, State.current_resume, Token.kind_relocate, State.advance_resume,
        hsub _ earlier s.advance, Option.map_map]
      rfl

theorem continues_resume (level : Precedence) (earlier : Array Diagnostic) (s : State) :
    continues level (s.resume r earlier) = continues level s := by
  rw [continues, continues, State.peek_resume, Token.kind_relocate]

theorem resumes_expression_and_chain (r : Relocation) (room : Nat) :
    ResumesExpr r (expression room) ∧ ∀ level left earlier s,
      chain room level (left.relocate r) (s.resume r earlier)
        = ((chain room level left s).1.map (·.relocate r),
          (chain room level left s).2.resume r earlier) := by
  induction room with
  | zero =>
    constructor
    · intro level earlier s
      rw [expression, expression, State.abandon_resume]
      rfl
    · intro level left earlier s
      simp only [chain, continues_resume, State.abandon_resume, Option.map_some]
      split_ifs <;> rfl
  | succ room ih =>
    obtain ⟨hexpression, hchain⟩ := ih
    constructor
    · intro level earlier s
      rw [expression, expression, resumes_primary hexpression earlier s, State.abandoned_resume]
      split_ifs with hgoing
      · rfl
      rcases primary (expression room) s with ⟨_ | left, s'⟩
      · rfl
      · exact hchain level left earlier s'
    · intro level left earlier s
      rw [chain, chain, continues_resume, State.abandoned_resume, State.advance_resume,
        State.current_resume, Token.kind_relocate]
      split_ifs with hstop
      · rfl
      rcases resumes_continuation hexpression left s.advance.current.kind with
        ⟨hnone, hnone'⟩ | ⟨rule, rule', hrule, hrule', hrun⟩
      · rw [hnone, hnone']
        rfl
      · simp only [hrule, hrule', hrun]
        rcases rule s.advance with ⟨_ | left', s'⟩
        · rfl
        · exact hchain level left' earlier s'

theorem resumes_expression (r : Relocation) (room : Nat) : ResumesExpr r (expression room) :=
  (resumes_expression_and_chain r room).1

/-- The parser does with moved tokens, and behind other reports, what it does with the tokens, and
moves the outcome. -/
theorem resumes_program (r : Relocation) : Resumes r (·.relocate r) program := by
  intro earlier s
  simp only [program, State.length_pending_resume,
    resumes_statementsUntil (resumes_expression r nestingLimit) _ _ _ _, Program.relocate,
    Stmt.relocateList_eq_map]

theorem carries_program (r : Relocation) : Carries r (·.relocate r) program :=
  (resumes_program r).carries

end Parser

end DrawScript
