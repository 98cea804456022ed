import DrawScript.Proofs.Parser.Steps
import DrawScript.Proofs.Tree.WellFormed
import DrawScript.Document

/-!
# Every tree of a parse is well formed

The rules recover from faults by leaving things out: an argument, a parameter, an operand, a whole
statement. What they do build is well formed all the same, for every source, because each node is
built from tokens at hand whose kind has just been looked at, and scanning spells every token as its
kind demands.

The rules for single constructs take the rule for expressions as an argument, and of that argument
they need that it leaves tokens behind only by steps and that its own trees are well formed
(`Grows`). Nothing is asked of the state but that the tokens ahead are spelled, so no distinction is
made between a parse that goes well, one that reports faults and one that has been given up.
-/

namespace DrawScript.Parser

open Token (Kind)

variable {s s' : State} {sub : ExprRule} {room : Nat} {level : Precedence}

/-! ## The tokens ahead -/

/-- The token at hand is spelled, unless it is the end mark. -/
theorem State.IsSpelled.current (hs : s.IsSpelled) (hkind : s.current.kind ≠ .eof) :
    s.current.Spelled := by
  obtain ⟨pending, stop, abandoned, diagnostics, log⟩ := s
  cases pending with
  | nil => exact absurd rfl hkind
  | cons t ts => exact hs t (List.mem_cons_self ..)

theorem State.IsSpelled.isA_current (hs : s.IsSpelled) {kind : Kind}
    (hkind : s.current.kind = kind) (hne : kind ≠ .eof) : s.current.IsA kind :=
  ⟨hkind, hs.current (hkind ▸ hne)⟩

/-! ## Lists -/

section Lists

variable {α : Type} {item : Rule (Option α)} {P : State → Prop} {Q : α → Prop}

/-- What holds of every item holds of every member of a list of items, if an item keeps what it
relies on. -/
theorem forall_mem_moreItems (hadvance : ∀ s, P s → P s.advance)
    (hitem : ∀ s, P s → (∀ x ∈ (item s).1, Q x) ∧ P (item s).2) (bound : Nat) :
    ∀ s, P s → ∀ x ∈ (moreItems item bound s).1, Q x := by
  induction bound with
  | zero => exact fun s _ x hx ↦ absurd hx List.not_mem_nil
  | succ bound ih =>
    intro s hs x hx
    rw [moreItems] at hx
    split_ifs at hx with hcomma
    · obtain ⟨hfirst, hrest⟩ := hitem _ (hadvance _ (hadvance s hs))
      rcases List.mem_append.mp hx with hx | hx
      · exact hfirst x (Option.mem_toList.mp hx)
      · exact ih _ hrest x hx
    · exact absurd hx List.not_mem_nil

theorem forall_mem_items (hadvance : ∀ s, P s → P s.advance)
    (hitem : ∀ s, P s → (∀ x ∈ (item s).1, Q x) ∧ P (item s).2) (hs : P s) :
    ∀ x ∈ (items item s).1, Q x := by
  intro x hx
  rw [items] at hx
  obtain ⟨hfirst, hrest⟩ := hitem s hs
  rcases List.mem_append.mp hx with hx | hx
  · exact hfirst x (Option.mem_toList.mp hx)
  · exact forall_mem_moreItems hadvance hitem _ _ hrest x hx

end Lists

/-! ## Parameters -/

theorem wellFormed_parameter (hs : s.IsSpelled) :
    (∀ name ∈ (parameter s).1, name.WellFormed) ∧ (parameter s).2.IsSpelled := by
  rw [parameter]
  split_ifs with hident
  · refine ⟨fun name hname ↦ ?_, hs⟩
    obtain rfl := Option.some.inj hname
    exact ⟨hs.isA_current hident (by decide), rfl⟩
  · exact ⟨fun name hname ↦ absurd hname (Option.not_mem_none name), hs⟩

theorem wellFormed_parameters (hs : s.IsSpelled) :
    ∀ names ∈ (parameters s).1, ∀ name ∈ names, name.WellFormed := by
  intro names hnames name hname
  simp only [parameters] at hnames
  split_ifs at hnames with hempty hclosed
  · obtain rfl := Option.some.inj hnames
    exact absurd hname List.not_mem_nil
  · obtain rfl := Option.some.inj hnames
    exact forall_mem_items (fun s h ↦ (Steps.advance s).isSpelled h)
      (fun _ ↦ wellFormed_parameter) ((Steps.advance s).isSpelled hs) name hname
  · exact absurd hnames (Option.not_mem_none _)

/-! ## Statements and lists of expressions -/

/-- A rule for expressions that moves by steps and builds well-formed trees. -/
structure Grows (sub : ExprRule) : Prop where
  moves : ∀ level, Moves (sub level)
  wellFormed : ∀ (level : Precedence) (s : State), s.IsSpelled →
    ∀ e ∈ (sub level s).1, e.WellFormed

theorem Grows.wellFormed_statement (hsub : Grows sub) (hs : s.IsSpelled) :
    ∀ x ∈ (statement sub s).1, x.WellFormed := by
  intro x hx
  rw [statement] at hx
  split_ifs at hx with hcomment
  · obtain rfl := Option.some.inj hx
    exact hs.isA_current hcomment (by decide)
  · obtain ⟨value, hvalue, rfl⟩ := Option.map_eq_some_iff.mp hx
    exact hsub.wellFormed .lowest s hs value hvalue

theorem Grows.wellFormed_statementsUntil (hsub : Grows sub) (ends : Kind → Bool) (bound : Nat) :
    ∀ s : State, s.IsSpelled → Stmt.WellFormedList (statementsUntil sub ends bound s).1 := by
  induction bound with
  | zero => exact fun _ _ ↦ trivial
  | succ bound ih =>
    intro s hs
    rw [statementsUntil]
    split_ifs with hend
    · trivial
    rw [Stmt.wellFormedList_iff]
    intro x hx
    rcases List.mem_append.mp hx with hx | hx
    · exact hsub.wellFormed_statement hs x (Option.mem_toList.mp hx)
    · have hnext := (Steps.advance _).isSpelled ((moves_statement hsub.moves s).isSpelled hs)
      exact Stmt.wellFormedList_iff.mp (ih _ hnext) x hx

theorem Grows.wellFormed_body (hsub : Grows sub) (hs : s.IsSpelled) :
    Stmt.WellFormedList (body sub s).1 := by
  have hread := hsub.wellFormed_statementsUntil endsBody s.advance.pending.length s.advance
    ((Steps.advance s).isSpelled hs)
  simp only [body]
  split_ifs <;> exact hread

theorem Grows.wellFormed_expressionList (hsub : Grows sub) (close : Kind) (hs : s.IsSpelled) :
    Expr.WellFormedList (expressionList sub close s).1 := by
  have hitems : Expr.WellFormedList (items (sub .lowest) s.advance).1 := by
    rw [Expr.wellFormedList_iff]
    refine forall_mem_items (fun s h ↦ (Steps.advance s).isSpelled h) (fun s h ↦ ?_)
      ((Steps.advance s).isSpelled hs)
    exact ⟨hsub.wellFormed .lowest s h, (hsub.moves .lowest s).isSpelled h⟩
  simp only [expressionList]
  split_ifs with hempty
  · trivial
  all_goals exact hitems

/-! ## Expressions that a token begins -/

theorem Grows.wellFormed_unaryRule (hsub : Grows sub) (hs : s.IsSpelled)
    (hkind : s.current.kind ≠ .eof) : ∀ e ∈ (unaryRule sub s).1, e.WellFormed := by
  intro e he
  rw [unaryRule] at he
  split at he
  · exact absurd he (Option.not_mem_none e)
  · next operator hoperator =>
    obtain ⟨right, hright, rfl⟩ := Option.map_eq_some_iff.mp he
    exact ⟨hs.current hkind, hoperator,
      hsub.wellFormed .unary _ ((Steps.advance s).isSpelled hs) right hright⟩

theorem Grows.wellFormed_functionRule (hsub : Grows sub) (hs : s.IsSpelled)
    (hkind : s.current.kind = .function) : ∀ e ∈ (functionRule sub s).1, e.WellFormed := by
  intro e he
  simp only [functionRule] at he
  split_ifs at he with hfail
  · exact absurd he (Option.not_mem_none e)
  -- an expectation that was met only moves on, so the tokens at hand are known at each point
  obtain ⟨hgoing, hopened, -⟩ := State.abandoned_expect_of_opened (s := s) (by simpa using hfail)
  have hopen : (s.expect .lparen).2.IsSpelled := (Steps.expect s .lparen).isSpelled hs
  have hnames := wellFormed_parameters hopen
  have hmoves := moves_parameters (s.expect .lparen).2 (by rw [hopened]; exact hgoing)
  split at he
  · exact absurd he (Option.not_mem_none e)
  next names s₁ heq =>
  rw [heq] at hnames hmoves
  split_ifs at he with hfail'
  · exact absurd he (Option.not_mem_none e)
  obtain ⟨-, hbraced, hbrace⟩ := State.abandoned_expect_of_opened (s := s₁) (by simpa using hfail')
  have hinner : s₁.advance.IsSpelled := (Steps.advance s₁).isSpelled (hmoves.isSpelled hopen)
  rw [hbraced] at he
  obtain rfl := Option.some.inj he
  exact ⟨hs.isA_current hkind (by decide), hnames names rfl,
    hinner.isA_current hbrace (by decide), hsub.wellFormed_body hinner⟩

/-- A literal that has a value is the leaf that its token denotes. -/
theorem wellFormed_literal {α : Type} {target : String} {value : Option α}
    {leaf : Token → α → Expr} (ht : s.current.Spelled)
    (h : ∀ v, value = some v → s.current.Denotes (leaf s.current v)) :
    ∀ e ∈ (literal target value leaf s).1, e.WellFormed := by
  intro e he
  cases value with
  | none => exact absurd he (Option.not_mem_none e)
  | some v =>
    obtain rfl := Option.some.inj he
    exact (h v rfl).wellFormed ht

theorem Grows.wellFormed_primary (hsub : Grows sub) (hs : s.IsSpelled) :
    ∀ e ∈ (primary sub s).1, e.WellFormed := by
  have hspelled : ∀ kind, s.current.kind = kind → kind ≠ .eof → s.current.Spelled :=
    fun kind hkind hne ↦ hs.current (hkind ▸ hne)
  rw [primary]
  split
  case h_1 hkind =>
    intro e he
    obtain rfl := Option.some.inj he
    exact ⟨hs.isA_current hkind (by decide), rfl⟩
  case h_2 hkind =>
    exact wellFormed_literal (hspelled _ hkind (by decide)) fun v ↦ denotes_integer hkind
  case h_3 hkind =>
    have ht := hspelled _ hkind (by decide)
    exact wellFormed_literal ht fun v ↦ denotes_real ht hkind
  case h_4 hkind =>
    intro e he
    obtain rfl := Option.some.inj he
    exact ⟨hspelled _ hkind (by decide), .string hkind⟩
  case h_5 hkind =>
    have ht := hspelled _ hkind (by decide)
    exact wellFormed_literal ht fun v ↦ denotes_boolean ht (.inl hkind)
  case h_6 hkind =>
    have ht := hspelled _ hkind (by decide)
    exact wellFormed_literal ht fun v ↦ denotes_boolean ht (.inr hkind)
  case h_7 hkind => exact hsub.wellFormed_unaryRule hs (by rw [hkind]; decide)
  case h_8 hkind => exact hsub.wellFormed_unaryRule hs (by rw [hkind]; decide)
  case h_9 => exact hsub.wellFormed .lowest _ ((Steps.advance s).isSpelled hs)
  case h_10 hkind => exact hsub.wellFormed_functionRule hs hkind
  case h_11 hkind =>
    intro e he
    obtain rfl := Option.some.inj he
    exact ⟨hs.isA_current hkind (by decide), hsub.wellFormed_expressionList .rbracket hs⟩
  case h_12 => exact fun e he ↦ absurd he (Option.not_mem_none e)

/-! ## Expressions that a token continues -/

theorem Grows.wellFormed_continuation (hsub : Grows sub) (hs : s.IsSpelled) {left : Expr}
    (hleft : left.WellFormed) {rule : Rule (Option Expr)}
    (hrule : continuation? sub left s.current.kind = some rule) :
    ∀ e ∈ (rule s).1, e.WellFormed := by
  intro e he
  have hnext : s.advance.IsSpelled := (Steps.advance s).isSpelled hs
  unfold continuation? at hrule
  split at hrule
  · next hkind =>
    obtain rfl := Option.some.inj hrule
    obtain rfl := Option.some.inj he
    exact ⟨hs.isA_current hkind (by decide), hleft, hsub.wellFormed_expressionList .rparen hs⟩
  · next hkind =>
    obtain rfl := Option.some.inj hrule
    obtain ⟨position, hposition, rfl⟩ := Option.map_eq_some_iff.mp he
    exact ⟨hs.isA_current hkind (by decide), hleft,
      hsub.wellFormed .lowest _ hnext position hposition⟩
  · obtain ⟨operator, hoperator, rfl⟩ := Option.map_eq_some_iff.mp hrule
    obtain ⟨right, hright, rfl⟩ := Option.map_eq_some_iff.mp he
    have hkind : s.current.kind ≠ .eof := fun heof ↦ by
      rw [heof] at hoperator
      cases hoperator
    exact ⟨hs.current hkind, hoperator, hleft, hsub.wellFormed _ _ hnext right hright⟩

/-- An operator, call or index is found for every token that continues an expression. -/
theorem exists_continuation (sub : ExprRule) (left : Expr) (h : continues level s = true) :
    ∃ rule, continuation? sub left s.advance.current.kind = some rule := by
  rw [continues, Bool.and_eq_true, decide_eq_true_eq] at h
  rw [State.current_advance]
  have hlowest : Precedence.of s.peek.kind ≠ .lowest := fun heq ↦ by
    rw [heq] at h
    exact Nat.not_lt_zero _ h.2
  -- every kind with a level above the lowest opens a list or an index or is an operator
  revert hlowest
  cases s.peek.kind <;> simp [Precedence.of, continuation?, BinaryOperator.ofKind?]

/-! ## Expressions -/

theorem grows_expression_and_chain (room : Nat) :
    Grows (expression room) ∧
      ∀ (level : Precedence) (left : Expr) (s : State), s.IsSpelled → left.WellFormed →
        ∀ e ∈ (chain room level left s).1, e.WellFormed := by
  induction room with
  | zero =>
    refine ⟨⟨moves_expression 0, fun level s _ e he ↦ absurd he (Option.not_mem_none e)⟩, ?_⟩
    intro level left s _ hleft e he
    obtain rfl := Option.some.inj he
    exact hleft
  | succ room ih =>
    obtain ⟨hsub, hchain⟩ := ih
    refine ⟨⟨moves_expression (room + 1), ?_⟩, ?_⟩
    · intro level s hs
      rw [expression]
      split_ifs with hgoing
      · exact fun e he ↦ absurd he (Option.not_mem_none e)
      have hprimary := hsub.wellFormed_primary hs
      have hmoves := moves_primary hsub.moves s (Bool.not_eq_true _ ▸ hgoing)
      split
      · exact fun e he ↦ absurd he (Option.not_mem_none e)
      · next left s' heq =>
        rw [heq] at hprimary hmoves
        exact hchain level left s' (hmoves.isSpelled hs) (hprimary left rfl)
    · intro level left s hs hleft
      rw [chain]
      split_ifs
      · intro e he
        obtain rfl := Option.some.inj he
        exact hleft
      split
      · intro e he
        obtain rfl := Option.some.inj he
        exact hleft
      next rule hrule =>
      have hnext : s.advance.IsSpelled := (Steps.advance s).isSpelled hs
      have hbuilt := hsub.wellFormed_continuation hnext hleft hrule
      have hmoves := moves_continuation hsub.moves hrule s.advance
      split
      · exact fun e he ↦ absurd he (Option.not_mem_none e)
      · next left' s' heq =>
        rw [heq] at hbuilt hmoves
        exact hchain level left' s' (hmoves.isSpelled hnext) (hbuilt left' rfl)

theorem grows_expression (room : Nat) : Grows (expression room) :=
  (grows_expression_and_chain room).1

theorem wellFormed_program (source : String) :
    (Document.ofSource source).program.WellFormed :=
  (grows_expression nestingLimit).wellFormed_statementsUntil (· == .eof) _ _
    (isSpelled_ofSource source)

/-! ## Branches that are never taken -/

/-- No fault says that a keyword could not be read as a truth value. -/
def State.ReadsBooleans (s : State) : Prop :=
  ∀ d ∈ s.diagnostics.toList, ∀ lexeme, d.fault ≠ .invalidLiteral lexeme "boolean"

theorem Finding.ne_invalidBoolean {fault : Fault} {t : Token} (h : Finding s fault t)
    (hs : s.IsSpelled) (lexeme : String) : fault ≠ .invalidLiteral lexeme "boolean" := by
  intro heq
  cases h with
  | boolean hkind hvalue =>
    have hne : s.current.kind ≠ .eof := by rcases hkind with h | h <;> rw [h] <;> decide
    obtain ⟨value, hsome, -⟩ := booleanValue?_of_spelled (hs.current hne) hkind
    rw [hvalue] at hsome
    cases hsome
  | integer => exact absurd (Fault.invalidLiteral.inj heq).2 (by decide)
  | real => exact absurd (Fault.invalidLiteral.inj heq).2 (by decide)
  | unexpected => cases heq
  | noParameter => cases heq
  | unclosedBody => cases heq
  | noRule => cases heq

theorem Step.readsBooleans (h : Step s s') (hs : s.IsSpelled) (hreads : s.ReadsBooleans) :
    s'.ReadsBooleans := by
  cases h with
  | advance => exact hreads
  | log => exact hreads
  | report going finding =>
    intro d hd lexeme
    simp only [State.report, Array.toList_push, List.mem_append, List.mem_singleton] at hd
    rcases hd with hd | rfl
    · exact hreads d hd lexeme
    · exact finding.ne_invalidBoolean hs lexeme
  | abandon going =>
    intro d hd lexeme
    simp only [State.abandon, going, Bool.false_eq_true, if_false, State.report,
      Array.toList_push, List.mem_append, List.mem_singleton] at hd
    rcases hd with hd | rfl
    · exact hreads d hd lexeme
    · exact Fault.noConfusion

theorem Steps.readsBooleans (h : Steps s s') (hs : s.IsSpelled) (hreads : s.ReadsBooleans) :
    s'.ReadsBooleans := by
  induction h with
  | refl => exact hreads
  | tail hsteps hstep ih => exact hstep.readsBooleans (Steps.isSpelled hsteps hs) ih

/-- At a sign the operator is found, so that its operand is read. -/
theorem primary_of_sign (sub : ExprRule) (h : s.current.kind = .bang ∨ s.current.kind = .minus) :
    ∃ operator, UnaryOperator.ofKind? s.current.kind = some operator ∧
      primary sub s = ((sub .unary s.advance).1.map (.unary s.current operator),
        (sub .unary s.advance).2) := by
  rcases h with h | h
  · exact ⟨.bang, by rw [h]; rfl, by simp [primary, unaryRule, h, UnaryOperator.ofKind?]⟩
  · exact ⟨.minus, by rw [h]; rfl, by simp [primary, unaryRule, h, UnaryOperator.ofKind?]⟩

/-- Where the loop goes on, the rule for the next token is found and run. -/
theorem chain_of_continues (room : Nat) (left : Expr) (hs : s.abandoned = false)
    (h : continues level s = true) :
    ∃ rule, continuation? (expression room) left s.advance.current.kind = some rule ∧
      chain (room + 1) level left s =
        match rule s.advance with
        | (none, s') => (none, s')
        | (some left', s') => chain room level left' s' := by
  obtain ⟨rule, hrule⟩ := exists_continuation (expression room) left h
  refine ⟨rule, hrule, ?_⟩
  rw [chain]
  rcases hrun : rule s.advance with ⟨_ | left', s'⟩ <;>
    simp only [h, hs, Bool.not_true, Bool.or_self, Bool.false_eq_true, if_false, hrule, hrun]

/-- **Every tree of a parse is well formed**, whatever the source. Neither a truth value nor an
operator is ever missing where one of their tokens stands: no fault names a truth value, a sign is
always read with its operand, and a token at which the loop goes on always has its rule. -/
theorem document_wellFormed (source : String) :
    (Document.ofSource source).program.WellFormed ∧
    (∀ d ∈ (Document.ofSource source).diagnostics, ∀ lexeme,
      d.fault ≠ .invalidLiteral lexeme "boolean") ∧
    (∀ (sub : ExprRule) (s : State), s.current.kind = .bang ∨ s.current.kind = .minus →
      ∃ operator, UnaryOperator.ofKind? s.current.kind = some operator ∧
        primary sub s = ((sub .unary s.advance).1.map (.unary s.current operator),
          (sub .unary s.advance).2)) ∧
    ∀ (room : Nat) (level : Precedence) (left : Expr) (s : State), s.abandoned = false →
      continues level s = true →
      ∃ rule, continuation? (expression room) left s.advance.current.kind = some rule ∧
        chain (room + 1) level left s =
          match rule s.advance with
          | (none, s') => (none, s')
          | (some left', s') => chain room level left' s' := by
  refine ⟨wellFormed_program source, ?_, fun sub _ ↦ primary_of_sign sub,
    fun room _ left _ ↦ chain_of_continues room left⟩
  exact (moves_program _).readsBooleans (isSpelled_ofSource source)
    fun d hd ↦ absurd hd List.not_mem_nil

theorem document_wellFormed_damaged :
    (Document.ofSource "fn(a, 1) \x7b b \x7d -99999999999999999999 [!c, true").isClean = false ∧
      (Document.ofSource
        "fn(a, 1) \x7b b \x7d -99999999999999999999 [!c, true").program.WellFormed :=
  ⟨by decide +kernel, (document_wellFormed _).1⟩

end DrawScript.Parser
