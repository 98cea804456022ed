import DrawScript.Proofs.Parser.Steps
import DrawScript.Document

/-!
# The tokens of a tree

A tree holds tokens of its source. Read from left to right they are its *yield*, and the yield is
what is left of the tokens of the source when some of them are struck out: brackets, commas and
periods always, and whatever belonged to a part that could not be built. No token is made up, none
is used twice and no two change places, however damaged the source is (`yield_program_sublist`).

A rule ends at the last token that it used, so what it leaves for later is behind the token at hand.
The invariant is therefore about the yield followed by the tokens behind the one at hand (`Within`),
and it needs nothing else: neither what was reported nor whether the parse has been given up matters
to it, because a state is only ever left by moving forward.
-/

namespace DrawScript

/-! ## Yields -/

mutual

/-- The tokens of an expression from left to right. -/
def Expr.yield : Expr → List Token
  | .identifier name => [name.token]
  | .integer token _ | .real token _ | .string token _ | .boolean token _ => [token]
  | .unary token _ right => token :: right.yield
  | .binary token left _ right => left.yield ++ token :: right.yield
  | .function token parameters brace body =>
    token :: (parameters.map (·.token) ++ brace :: Stmt.yieldList body)
  | .call token callee arguments => callee.yield ++ token :: Expr.yieldList arguments
  | .array token elements => token :: Expr.yieldList elements
  | .index token left position => left.yield ++ token :: position.yield

/-- The tokens of expressions from left to right. -/
def Expr.yieldList : List Expr → List Token
  | [] => []
  | e :: es => e.yield ++ Expr.yieldList es

/-- The tokens of a statement from left to right. The token that an expression statement keeps
repeats the first one of its source and is not counted. -/
def Stmt.yield : Stmt → List Token
  | .comment token => [token]
  | .expression _ value => value.yield

/-- The tokens of statements from left to right. -/
def Stmt.yieldList : List Stmt → List Token
  | [] => []
  | s :: ss => s.yield ++ Stmt.yieldList ss

end

/-- The tokens of a script from left to right. -/
def Program.yield (program : Program) : List Token :=
  Stmt.yieldList program.statements

theorem Expr.yieldList_eq_flatMap (es : List Expr) : Expr.yieldList es = es.flatMap (·.yield) := by
  induction es with
  | nil => rfl
  | cons e es ih => rw [Expr.yieldList, ih, List.flatMap_cons]

theorem Stmt.yieldList_eq_flatMap (ss : List Stmt) : Stmt.yieldList ss = ss.flatMap (·.yield) := by
  induction ss with
  | nil => rfl
  | cons s ss ih => rw [Stmt.yieldList, ih, List.flatMap_cons]

namespace Parser

open Token (Kind)
open scoped List

variable {s s' : State} {sub : ExprRule} {ts us vs : List Token}

/-! ## What is used and what is left -/

/-- The tokens `us` and then those behind the one at hand are among `ts`, in this order. -/
def Within (ts us : List Token) (s : State) : Prop :=
  us ++ s.pending.tail <+ ts

theorem Within.mono (h : Within ts us s) (hts : ts <+ vs) : Within vs us s :=
  List.Sublist.trans h hts

theorem Within.of_steps (h : Within ts us s) (hsteps : Steps s s') : Within ts us s' := by
  have htail : s'.pending.tail <+ s.pending.tail := hsteps.pending_suffix.sublist.tail
  exact (htail.append_left us).trans h

theorem Within.append (h : Within ts us s) (h' : Within s.pending.tail vs s') :
    Within ts (us ++ vs) s' := by
  rw [Within, List.append_assoc]
  exact (List.Sublist.append_left h' us).trans h

/-- Nothing is used, and the token at hand is left behind. -/
theorem within_nil (s : State) : Within s.pending [] s :=
  List.tail_sublist _

theorem pending_eq_cons (h : s.current.kind ≠ .eof) : s.pending = s.current :: s.pending.tail := by
  obtain ⟨pending, stop, abandoned, diagnostics, log⟩ := s
  cases pending with
  | nil => exact absurd rfl h
  | cons t ts => rfl

/-- The token at hand is used, and then some that are behind it. -/
theorem Within.cons (hkind : s.current.kind ≠ .eof) (h : Within s.pending.tail us s') :
    Within s.pending (s.current :: us) s' := by
  rw [pending_eq_cons hkind]
  exact List.Sublist.cons_cons _ h

theorem within_current (hkind : s.current.kind ≠ .eof) : Within s.pending [s.current] s :=
  .cons hkind (List.Sublist.refl _)

/-! ## Lists and statements -/

/-- What the rule builds holds tokens from the one at hand on, and none from behind the one at which
it ends. -/
def Reads {α : Type} (yield : α → List Token) (rule : Rule (Option α)) : Prop :=
  ∀ s, Within s.pending ((rule s).1.toList.flatMap yield) (rule s).2

section Lists

variable {α : Type} {item : Rule (Option α)} {yield : α → List Token}

theorem within_moreItems (hitem : Reads yield item) (bound : Nat) (s : State) :
    Within s.pending.tail ((moreItems item bound s).1.flatMap yield)
      (moreItems item bound s).2 := by
  induction bound generalizing s with
  | zero => exact List.Sublist.refl _
  | succ bound ih =>
    rw [moreItems]
    split_ifs with hcomma
    · have hnext := (hitem s.advance.advance).append (ih _)
      rw [← List.flatMap_append] at hnext
      exact hnext.mono (List.tail_sublist _)
    · exact List.Sublist.refl _

theorem within_items (hitem : Reads yield item) (s : State) :
    Within s.pending ((items item s).1.flatMap yield) (items item s).2 := by
  have hall := (hitem s).append (within_moreItems hitem (item s).2.pending.length _)
  rwa [← List.flatMap_append] at hall

end Lists

/-- A rule for expressions that moves by steps and uses the tokens that it moves over. -/
structure Collects (sub : ExprRule) : Prop where
  moves : ∀ level, Moves (sub level)
  reads : ∀ level, Reads (·.yield) (sub level)

theorem Collects.reads_statement (hsub : Collects sub) : Reads (·.yield) (statement sub) := by
  intro s
  rw [statement]
  split_ifs with hcomment
  · exact within_current (by rw [hcomment]; decide)
  · have hvalue := (hsub.reads .lowest s).of_steps (Steps.skipPeriods _)
    rcases hrun : sub .lowest s with ⟨_ | value, s'⟩ <;> rw [hrun] at hvalue <;> exact hvalue

/-- The token at which statements end is not used by them. -/
theorem Collects.sublist_statementsUntil (hsub : Collects sub) (ends : Kind → Bool) (bound : Nat)
    (s : State) :
    Stmt.yieldList (statementsUntil sub ends bound s).1
      ++ (statementsUntil sub ends bound s).2.pending <+ s.pending := by
  induction bound generalizing s with
  | zero => exact List.Sublist.refl _
  | succ bound ih =>
    rw [statementsUntil]
    split_ifs with hend
    · exact List.Sublist.refl _
    · have hfirst := hsub.reads_statement s
      have hrest := ih (statement sub s).2.advance
      dsimp only
      rw [Stmt.yieldList_eq_flatMap] at hrest ⊢
      rw [List.flatMap_append, List.append_assoc]
      exact (hrest.append_left _).trans hfirst

theorem Collects.within_body (hsub : Collects sub) (s : State) :
    Within s.pending.tail (Stmt.yieldList (body sub s).1) (body sub s).2 := by
  have hread := hsub.sublist_statementsUntil endsBody s.advance.pending.length s.advance
  have hstatements : Within s.pending.tail
      (Stmt.yieldList (statementsUntil sub endsBody s.advance.pending.length s.advance).1)
      (statementsUntil sub endsBody s.advance.pending.length s.advance).2 :=
    ((List.tail_sublist _).append_left _).trans hread
  simp only [body]
  split_ifs <;> exact hstatements

theorem Collects.within_expressionList (hsub : Collects sub) (close : Kind) (s : State) :
    Within s.pending.tail (Expr.yieldList (expressionList sub close s).1)
      (expressionList sub close s).2 := by
  have hitems := within_items (hsub.reads .lowest) s.advance
  have hexpect := hitems.of_steps (Steps.expect _ close)
  simp only [expressionList, Expr.yieldList_eq_flatMap]
  split_ifs with hempty hclosed
  · exact within_nil s.advance
  · exact hexpect
  · exact hexpect.of_steps (.single (.log _ close))

/-! ## Expressions that a token begins -/

theorem reads_parameter : Reads (fun name : Identifier ↦ [name.token]) parameter := by
  intro s
  rw [parameter]
  split_ifs with hident
  · exact within_current (by rw [hident]; decide)
  · exact within_nil s

theorem within_parameters (s : State) :
    Within s.pending.tail ((parameters s).1.toList.flatten.map (·.token)) (parameters s).2 := by
  have hnames := (within_items reads_parameter s.advance).of_steps (Steps.expect _ .rparen)
  rw [← List.map_eq_flatMap] at hnames
  simp only [parameters]
  split_ifs with hempty hclosed
  · exact within_nil s.advance
  · simpa using hnames
  · exact (List.sublist_append_right _ _).trans hnames

/-- The parts of a function follow each other: the keyword, the parameters, the brace and the
body. -/
theorem Collects.within_functionRule (hsub : Collects sub) (hgoing : s.abandoned = false)
    (hkind : s.current.kind = .function) :
    Within s.pending ((functionRule sub s).1.toList.flatMap (·.yield)) (functionRule sub s).2 := by
  have hnone : ∀ s', Steps s s' → Within s.pending [] s' := fun s' ↦ (within_nil s).of_steps
  have hmoves := moves_functionRule hsub.moves s hgoing
  simp only [functionRule] at hmoves ⊢
  split_ifs at hmoves ⊢ with hfail
  · exact hnone _ hmoves
  obtain ⟨-, hopened, -⟩ := State.abandoned_expect_of_opened (s := s) (by simpa using hfail)
  have hnames := within_parameters (s.expect .lparen).2
  rw [hopened] at hmoves hnames ⊢
  rcases hparameters : parameters s.advance with ⟨_ | names, s₁⟩
  · simp only [hparameters] at hmoves ⊢
    exact hnone _ hmoves
  simp only [hparameters] at hmoves hnames ⊢
  split_ifs at hmoves ⊢ with hfail'
  · exact hnone _ hmoves
  obtain ⟨-, hbraced, hbrace⟩ := State.abandoned_expect_of_opened (s := s₁) (by simpa using hfail')
  rw [hbraced]
  have hbody := Within.cons (s := s₁.advance) (by rw [State.current_advance, hbrace]; decide)
    (hsub.within_body s₁.advance)
  have hparts := (hnames.append hbody).mono (List.tail_sublist _)
  simpa [Expr.yield] using Within.cons (by rw [hkind]; decide) hparts

theorem within_literal {α : Type} {target : String} {value : Option α} {leaf : Token → α → Expr}
    (hkind : s.current.kind ≠ .eof) (hleaf : ∀ t v, (leaf t v).yield = [t]) :
    Within s.pending ((literal target value leaf s).1.toList.flatMap (·.yield))
      (literal target value leaf s).2 := by
  cases value with
  | none => exact within_nil s
  | some v => simpa [literal, hleaf] using within_current hkind

theorem Collects.within_unaryRule (hsub : Collects sub) (hkind : s.current.kind ≠ .eof) :
    Within s.pending ((unaryRule sub s).1.toList.flatMap (·.yield)) (unaryRule sub s).2 := by
  have hright := hsub.reads .unary s.advance
  rw [unaryRule]
  split
  · exact within_nil s
  rcases hrun : sub .unary s.advance with ⟨_ | right, s'⟩ <;> rw [hrun] at hright
  · exact hright.mono (List.tail_sublist _)
  · simpa [Expr.yield] using Within.cons hkind (by simpa using hright)

theorem Collects.within_primary (hsub : Collects sub) (hgoing : s.abandoned = false) :
    Within s.pending ((primary sub s).1.toList.flatMap (·.yield)) (primary sub s).2 := by
  have hcurrent : ∀ kind, s.current.kind = kind → kind ≠ .eof → s.current.kind ≠ .eof :=
    fun _ hkind hne ↦ hkind ▸ hne
  rw [primary]
  split
  case h_1 hkind =>
    simpa [Expr.yield, Identifier.ofToken] using within_current (hcurrent _ hkind (by decide))
  case h_2 hkind => exact within_literal (hcurrent _ hkind (by decide)) fun _ _ ↦ rfl
  case h_3 hkind => exact within_literal (hcurrent _ hkind (by decide)) fun _ _ ↦ rfl
  case h_4 hkind => simpa [Expr.yield] using within_current (hcurrent _ hkind (by decide))
  case h_5 hkind => exact within_literal (hcurrent _ hkind (by decide)) fun _ _ ↦ rfl
  case h_6 hkind => exact within_literal (hcurrent _ hkind (by decide)) fun _ _ ↦ rfl
  case h_7 hkind => exact hsub.within_unaryRule (hcurrent _ hkind (by decide))
  case h_8 hkind => exact hsub.within_unaryRule (hcurrent _ hkind (by decide))
  case h_9 =>
    exact ((hsub.reads .lowest s.advance).of_steps (Steps.expect _ .rparen)).mono
      (List.tail_sublist _)
  case h_10 hkind => exact hsub.within_functionRule hgoing hkind
  case h_11 hkind =>
    simpa [arrayRule, Expr.yield] using
      Within.cons (hcurrent _ hkind (by decide)) (hsub.within_expressionList .rbracket s)
  case h_12 => exact within_nil s

/-! ## Expressions that a token continues -/

/-- The token at hand and what follows it come behind the expression on the left. -/
theorem Collects.within_continuation (hsub : Collects sub) {left : Expr}
    (hleft : Within ts left.yield s) {rule : Rule (Option Expr)}
    (hrule : continuation? sub left s.advance.current.kind = some rule) :
    Within ts ((rule s.advance).1.toList.flatMap (·.yield)) (rule s.advance).2 := by
  have hkind : s.advance.current.kind ≠ .eof := by
    intro heof
    rw [heof] at hrule
    cases hrule
  have hbuilt : ∀ us s', Within s.advance.pending.tail us s' →
      Within ts (left.yield ++ s.advance.current :: us) s' :=
    fun us s' h ↦ hleft.append (.cons hkind h)
  -- if the right side is missing, the left one is lost with it
  have hlost : ∀ s', Steps s.advance s' → Within ts [] s' := fun s' hsteps ↦
    Within.of_steps ((List.sublist_append_right _ _).trans hleft)
      ((Steps.advance s).trans hsteps)
  have hmoves := moves_continuation hsub.moves hrule s.advance
  unfold continuation? at hrule
  split at hrule
  · obtain rfl := Option.some.inj hrule
    simpa [callRule, Expr.yield] using hbuilt _ _ (hsub.within_expressionList .rparen s.advance)
  · obtain rfl := Option.some.inj hrule
    have hposition := (hsub.reads .lowest s.advance.advance).of_steps (Steps.expect _ .rbracket)
    simp only [indexRule] at hmoves ⊢
    cases hrun : (sub .lowest s.advance.advance).1 with
    | none => exact hlost _ hmoves
    | some position =>
      rw [hrun] at hposition
      simpa [Expr.yield] using hbuilt _ _ (by simpa using hposition)
  · obtain ⟨operator, -, rfl⟩ := Option.map_eq_some_iff.mp hrule
    have hright := hsub.reads (.of s.advance.current.kind) s.advance.advance
    simp only [binaryRule] at hmoves ⊢
    cases hrun : (sub (.of s.advance.current.kind) s.advance.advance).1 with
    | none => exact hlost _ hmoves
    | some right =>
      rw [hrun] at hright
      simpa [Expr.yield] using hbuilt _ _ (by simpa using hright)

/-- The recursion of the rules is closed here: both of its branches descend in `room`. -/
theorem collects_expression_and_chain (room : Nat) :
    Collects (expression room) ∧ ∀ ts level left s, Within ts left.yield s →
      Within ts ((chain room level left s).1.toList.flatMap (·.yield))
        (chain room level left s).2 := by
  induction room with
  | zero =>
    refine ⟨⟨moves_expression 0, fun level s ↦ ?_⟩, fun ts level left s hleft ↦ ?_⟩
    · exact (within_nil s).of_steps (Steps.abandon s)
    · have hsome : Within ts ((some left).toList.flatMap (·.yield)) s := by simpa using hleft
      exact hsome.of_steps (moves_chain 0 level left s)
  | succ room ih =>
    obtain ⟨hexpression, hchain⟩ := ih
    refine ⟨⟨moves_expression (room + 1), fun level s ↦ ?_⟩, fun ts level left s hleft ↦ ?_⟩
    · rw [expression]
      split_ifs with hgoing
      · exact within_nil s
      have hprimary := hexpression.within_primary (Bool.not_eq_true _ ▸ hgoing)
      split
      · next s' heq => rw [heq] at hprimary; exact hprimary
      · next left s' heq =>
        rw [heq] at hprimary
        exact hchain _ level left s' (by simpa using hprimary)
    · have hsome : Within ts ((some left).toList.flatMap (·.yield)) s := by simpa using hleft
      rw [chain]
      split_ifs with hstop
      · exact hsome
      split
      · exact hsome.of_steps (Steps.advance s)
      next rule hrule =>
      have hround := hexpression.within_continuation hleft hrule
      split
      · next s' heq => rw [heq] at hround; exact hround
      · next left' s' heq =>
        rw [heq] at hround
        exact hchain ts level left' s' (by simpa using hround)

theorem collects_expression (room : Nat) : Collects (expression room) :=
  (collects_expression_and_chain room).1

/-- The yield of a script and then the tokens that are left are among the tokens ahead. -/
theorem yield_program_sublist (s : State) :
    (program s).1.yield ++ (program s).2.pending <+ s.pending :=
  (collects_expression nestingLimit).sublist_statementsUntil (· == .eof) s.pending.length s

/-- **No token is made up, repeated or moved.** The tokens of a tree, from left to right, are tokens
of its source in their order, whatever is wrong with the source. -/
theorem document_yield_sublist (source : String) :
    (Document.ofSource source).program.yield <+ Token.tokenize source := by
  have hprogram := yield_program_sublist (.ofSource source)
  exact ((List.sublist_append_left _ _).trans hprogram).trans (List.sublist_append_left _ _)

end Parser

end DrawScript
