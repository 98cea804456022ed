import DrawScript.Proofs.Grammar.Basic
import DrawScript.Proofs.Parser.Steps

/-!
# What the grammar derives is read

The rules of the parser, run on the tokens of a derivation, give its tree and stop at its last
token, provided that there is room for the levels of the derivation.

The grammar is left recursive where the parser loops, so the statement about phrases cannot say
that the rule for expressions ends behind a phrase: a phrase may be the left part of a longer one.
It says that the rule gets to the point where the phrase is the left side of its loop and what
follows is still ahead (`Phrase.expression_eq_chain`). A phrase whose successor does not continue
it is then a loop that is over.
-/

namespace DrawScript.Grammar

open Token (Kind)
open DrawScript.Parser

variable {s s' s'' : State} {sub : ExprRule} {room : Nat} {level : Precedence}

/-! ## Strata and levels of binding -/

namespace Stratum

/-- The stratum of the expressions that are read at a level of binding. -/
def above : Precedence → Stratum
  | .lowest => equality
  | .equals => comparison
  | .lessGreater => sum
  | .sum => product
  | .product | .unary => signed
  | .call | .index => atom

/-- The stratum of the expressions that a token with this level of binding builds. -/
def ofLevel : Precedence → Stratum
  | .lowest | .equals => equality
  | .lessGreater => comparison
  | .sum => sum
  | .product => product
  | .unary => signed
  | .call | .index => applied

/-- A token of this kind does not continue expressions of tighter strata than `σ` only, so that an
expression of `σ` can stand before it. -/
def MeetsAt (σ : Stratum) (kind : Kind) : Prop :=
  (ofLevel (.of kind)).rank ≤ σ.rank

theorem MeetsAt.of_lowest (σ : Stratum) {kind : Kind} (h : Precedence.of kind = .lowest) :
    σ.MeetsAt kind := by
  rw [MeetsAt, h]
  exact Nat.zero_le _

theorem MeetsAt.mono {σ τ : Stratum} {kind : Kind} (h : σ.MeetsAt kind) (hle : σ.rank ≤ τ.rank) :
    τ.MeetsAt kind :=
  Nat.le_trans h hle

theorem meetsAt_applied (kind : Kind) : applied.MeetsAt kind := by
  rw [MeetsAt]
  cases Precedence.of kind <;> decide

theorem rank_le_rank_tighter (σ : Stratum) : σ.rank ≤ σ.tighter.rank := by
  cases σ <;> decide

theorem meetsAt_of_mem_operators {σ : Stratum} {kind : Kind} (h : kind ∈ σ.operators) :
    σ.MeetsAt kind := by
  cases σ <;> simp only [operators, List.mem_cons, List.not_mem_nil, or_false] at h
  all_goals rcases h with rfl | rfl <;> exact Nat.le_refl _

/-- The right operand of an operator is read at the stratum that the grammar takes it from. -/
theorem above_of_mem_operators {σ : Stratum} {kind : Kind} (h : kind ∈ σ.operators) :
    above (.of kind) = σ.tighter := by
  cases σ <;> simp only [operators, List.mem_cons, List.not_mem_nil, or_false] at h
  all_goals rcases h with rfl | rfl <;> rfl

/-- An operator continues whatever is read at a level that admits its stratum. -/
theorem lt_of_mem_operators {σ : Stratum} {kind : Kind} (h : kind ∈ σ.operators)
    (hlevel : (above level).rank ≤ σ.rank) : level < .of kind := by
  revert hlevel
  cases σ <;> simp only [operators, List.mem_cons, List.not_mem_nil, or_false] at h
  all_goals rcases h with rfl | rfl <;> cases level <;> decide

/-- Behind the right operand of an operator stands nothing that continues this operand. -/
theorem not_lt_of_meetsAt {σ : Stratum} {kind next : Kind} (h : kind ∈ σ.operators)
    (hnext : σ.MeetsAt next) : ¬Precedence.of kind < .of next := by
  rw [MeetsAt] at hnext
  revert hnext
  cases σ <;> simp only [operators, List.mem_cons, List.not_mem_nil, or_false] at h
  all_goals rcases h with rfl | rfl <;> cases Precedence.of next <;> decide

theorem not_unary_lt_of_meetsAt {next : Kind} (hnext : signed.MeetsAt next) :
    ¬Precedence.unary < .of next := by
  rw [MeetsAt] at hnext
  revert hnext
  cases Precedence.of next <;> decide

theorem lt_call_of_above (hlevel : (above level).rank ≤ applied.rank) :
    level < .call ∧ level < .index := by
  revert hlevel
  cases level <;> decide

end Stratum

/-! ## The tokens ahead -/

/-- The kind of the first token, or of the end mark if there is none. -/
def headKind : List Token → Kind
  | [] => .eof
  | t :: _ => t.kind

@[simp] theorem headKind_cons (t : Token) (ts : List Token) : headKind (t :: ts) = t.kind := rfl

@[simp] theorem kind_peek_facing (s : State) (t : Token) (ts : List Token) :
    (s.facing (t :: ts)).peek.kind = headKind ts := by
  cases ts <;> rfl

theorem kind_current_facing (s : State) (ts : List Token) :
    (s.facing ts).current.kind = headKind ts := by
  cases ts <;> rfl

/-- The loop for expressions looks at the binding of the next token alone. -/
theorem continues_facing (level : Precedence) (s : State) (t : Token) (ts : List Token) :
    continues level (s.facing (t :: ts)) = decide (level < .of (headKind ts)) := by
  rw [continues, kind_peek_facing]
  by_cases hperiod : headKind ts = .period
  · rw [hperiod]
    cases level <;> decide
  · simp [hperiod]

theorem chain_of_not_continues {left : Expr} (h : continues level s = false) :
    chain room level left s = (some left, s) := by
  cases room with
  | zero => simp [chain, h]
  | succ room => simp [chain, h]

theorem chain_of_not_lt {left : Expr} {t : Token} {ts : List Token}
    (h : ¬level < .of (headKind ts)) :
    chain room level left (s.facing (t :: ts)) = (some left, s.facing (t :: ts)) :=
  chain_of_not_continues (by rw [continues_facing, decide_eq_false h])

/-- One round of the loop, if the token that continues `left` makes a whole expression of it. -/
theorem chain_succ {left left' : Expr} {rule : Rule (Option Expr)} {t u : Token}
    {ts : List Token} (hs : s.abandoned = false) (hlevel : level < .of u.kind)
    (hrule : continuation? (expression room) left u.kind = some rule)
    (hrun : rule (s.facing (u :: ts)) = (some left', s')) :
    chain (room + 1) level left (s.facing (t :: u :: ts)) = chain room level left' s' := by
  have hgo : continues level (s.facing (t :: u :: ts)) = true := by
    rw [continues_facing, headKind_cons, decide_eq_true hlevel]
  rw [chain]
  simp [hgo, hs, hrule, hrun]

theorem expression_succ {left : Expr} (hs : s.abandoned = false)
    (h : primary (expression room) s = (some left, s')) :
    expression (room + 1) level s = chain room level left s' := by
  rw [expression]
  simp [hs, h]

theorem expect_facing {t u : Token} {ts : List Token} {kind : Kind} (hs : s.abandoned = false)
    (hu : u.kind = kind) :
    (s.facing (t :: u :: ts)).expect kind = (true, s.facing (u :: ts)) := by
  rw [State.expect]
  simp [hs, hu]

/-! ## Constructs

What a rule makes of the tokens of its construct, given what the rule for expressions makes of the
parts. -/

theorem primary_of_denotes {t : Token} {e : Expr} {ts : List Token} (h : t.Denotes e) :
    primary sub (s.facing (t :: ts)) = (some e, s.facing (t :: ts)) := by
  cases h with
  | identifier kind => simp [primary, kind]
  | integer kind small => simp [primary, kind, literal, integerValue?_of_lt small]
  | real kind lexeme point finite =>
    simp [primary, kind, literal, realValue?_eq lexeme point, finite]
  | string kind => simp [primary, kind]
  | @boolean value kind lexeme =>
    cases value <;>
      simp [primary, kind, Token.booleanKind, literal, lexeme, Token.booleanText, booleanValue?]

theorem primary_lparen {opening : Token} {ts : List Token} {e : Expr}
    (hopen : opening.kind = .lparen) (hsub : sub .lowest (s.facing ts) = (some e, s')) :
    primary sub (s.facing (opening :: ts)) = (some e, (s'.expect .rparen).2) := by
  simp [primary, hopen, groupRule, hsub]

theorem primary_group {opening close last : Token} {ts rest : List Token} {e : Expr}
    (hs : s.abandoned = false) (hopen : opening.kind = .lparen) (hclose : close.kind = .rparen)
    (hsub : sub .lowest (s.facing (ts ++ close :: rest))
      = (some e, s.facing (last :: close :: rest))) :
    primary sub (s.facing (opening :: (ts ++ close :: rest)))
      = (some e, s.facing (close :: rest)) := by
  rw [primary_lparen hopen hsub, expect_facing hs hclose]

theorem primary_array {opening : Token} {ts : List Token} {es : List Expr}
    (hopen : opening.kind = .lbracket)
    (hlist : expressionList sub .rbracket (s.facing (opening :: ts)) = (es, s')) :
    primary sub (s.facing (opening :: ts)) = (some (.array opening es), s') := by
  simp [primary, hopen, arrayRule, hlist]

theorem primary_of_unary {t : Token} {ts : List Token} {operator : UnaryOperator}
    (ht : UnaryOperator.ofKind? t.kind = some operator) :
    primary sub (s.facing (t :: ts)) = unaryRule sub (s.facing (t :: ts)) := by
  have hkind : t.kind = .bang ∨ t.kind = .minus := by
    revert ht
    cases t.kind <;> simp [UnaryOperator.ofKind?]
  rcases hkind with hkind | hkind <;> simp [primary, hkind]

theorem primary_unary {t : Token} {ts : List Token} {operator : UnaryOperator} {e : Expr}
    (ht : UnaryOperator.ofKind? t.kind = some operator)
    (hsub : sub .unary (s.facing ts) = (some e, s')) :
    primary sub (s.facing (t :: ts)) = (some (.unary t operator e), s') := by
  rw [primary_of_unary ht]
  simp [unaryRule, ht, hsub]

theorem primary_function {keyword opening close brace : Token} {ps ts : List Token}
    {names : List Identifier} {statements : List Stmt} (hs : s.abandoned = false)
    (hkeyword : keyword.kind = .function) (hopen : opening.kind = .lparen)
    (hbrace : brace.kind = .lbrace)
    (hnames : parameters (s.facing (opening :: ps))
      = (some names, s.facing (close :: brace :: ts)))
    (hbody : body sub (s.facing (brace :: ts)) = (statements, s')) :
    primary sub (s.facing (keyword :: opening :: ps))
      = (some (.function keyword names brace statements), s') := by
  simp [primary, hkeyword, functionRule, expect_facing hs hopen, hnames,
    expect_facing hs hbrace, hbody]

theorem callRule_eq {opening : Token} {ts : List Token} {callee : Expr} {es : List Expr}
    (hlist : expressionList sub .rparen (s.facing (opening :: ts)) = (es, s')) :
    callRule sub callee (s.facing (opening :: ts)) = (some (.call opening callee es), s') := by
  simp [callRule, hlist]

theorem indexRule_lbracket {opening : Token} {ts : List Token} {left e : Expr}
    (hsub : sub .lowest (s.facing ts) = (some e, s')) :
    indexRule sub left (s.facing (opening :: ts))
      = (some (.index opening left e), (s'.expect .rbracket).2) := by
  simp [indexRule, hsub]

theorem indexRule_eq {opening close last : Token} {ts rest : List Token} {left e : Expr}
    (hs : s.abandoned = false) (hclose : close.kind = .rbracket)
    (hsub : sub .lowest (s.facing (ts ++ close :: rest))
      = (some e, s.facing (last :: close :: rest))) :
    indexRule sub left (s.facing (opening :: (ts ++ close :: rest)))
      = (some (.index opening left e), s.facing (close :: rest)) := by
  rw [indexRule_lbracket hsub, expect_facing hs hclose]

theorem binaryRule_eq {t : Token} {ts : List Token} {left e : Expr} {operator : BinaryOperator}
    (hsub : sub (.of t.kind) (s.facing ts) = (some e, s')) :
    binaryRule sub left operator (s.facing (t :: ts))
      = (some (.binary t left operator e), s') := by
  simp [binaryRule, hsub]

theorem continuation?_of_operator {kind : Kind} {operator : BinaryOperator} {left : Expr}
    (h : BinaryOperator.ofKind? kind = some operator) :
    continuation? sub left kind = some (binaryRule sub left operator) := by
  have hmap : continuation? sub left kind
      = (BinaryOperator.ofKind? kind).map (binaryRule sub left) := by
    unfold continuation?
    split
    · cases h
    · cases h
    · rfl
  rw [hmap, h, Option.map_some]

/-! ## Lists -/

section Lists

variable {α : Type} {item : Rule (Option α)} {bound : Nat} {x : α} {xs : List α}

theorem moreItems_stop {t : Token} {rest : List Token} (h : headKind rest ≠ .comma) :
    moreItems item bound (s.facing (t :: rest)) = ([], s.facing (t :: rest)) := by
  cases bound with
  | zero => rfl
  | succ bound => rw [moreItems, kind_peek_facing, if_neg h]

theorem moreItems_step {last comma : Token} {ts : List Token} (hcomma : comma.kind = .comma)
    (hitem : item (s.facing ts) = (some x, s'))
    (hmore : moreItems item bound s' = (xs, s'')) :
    moreItems item (bound + 1) (s.facing (last :: comma :: ts)) = (x :: xs, s'') := by
  rw [moreItems]
  simp [hcomma, hitem, hmore]

theorem items_eq {ts : List Token} (hitem : item (s.facing ts) = (some x, s'))
    (hmore : moreItems item s'.pending.length s' = (xs, s'')) :
    items item (s.facing ts) = (x :: xs, s'') := by
  rw [items]
  simp [hitem, hmore]

end Lists

theorem expressionList_nil {opening close : Token} {rest : List Token} {kind : Kind}
    (hclose : close.kind = kind) :
    expressionList sub kind (s.facing (opening :: close :: rest))
      = ([], s.facing (close :: rest)) := by
  simp [expressionList, hclose]

theorem expressionList_items {opening close last : Token} {ts rest : List Token} {kind : Kind}
    {es : List Expr} (hs : s.abandoned = false) (hclose : close.kind = kind)
    (hfirst : headKind ts ≠ kind)
    (hitems : items (sub .lowest) (s.facing ts) = (es, s.facing (last :: close :: rest))) :
    expressionList sub kind (s.facing (opening :: ts)) = (es, s.facing (close :: rest)) := by
  simp [expressionList, kind_current_facing, hfirst, hitems, expect_facing hs hclose]

theorem parameter_eq (name : TokenOf .ident) (rest : List Token) :
    parameter (s.facing (name.1 :: rest))
      = (some (.ofToken name.1), s.facing (name.1 :: rest)) := by
  simp [parameter, name.2]

theorem MoreNames.moreItems_eq {rest : List Token} (hrest : headKind rest ≠ .comma) :
    ∀ {ts : List Token} (d : MoreNames ts) (bound : Nat) (last : Token), ts.length ≤ bound →
      ∃ last', moreItems parameter bound (s.facing (last :: (ts ++ rest)))
        = (d.identifiers, s.facing (last' :: rest))
  | _, .done, _, last, _ => ⟨last, moreItems_stop hrest⟩
  | _, .item comma name more, bound + 1, _, hbound => by
    obtain ⟨last', hmore⟩ := more.moreItems_eq hrest bound name.1 (by simp at hbound; omega)
    exact ⟨last', moreItems_step comma.2 (parameter_eq name _) hmore⟩

theorem Names.parameters_eq {ts : List Token} (d : Names ts) (opening : Token) {close : Token}
    (rest : List Token) (hs : s.abandoned = false) (hclose : close.kind = .rparen) :
    parameters (s.facing (opening :: (ts ++ close :: rest)))
      = (some d.identifiers, s.facing (close :: rest)) := by
  cases d with
  | empty => simp [parameters, hclose, Names.identifiers]
  | @items us name more =>
    have hcomma : headKind (close :: rest) ≠ .comma := by rw [headKind_cons, hclose]; decide
    obtain ⟨last', hmore⟩ := more.moreItems_eq (s := s) hcomma ((us ++ close :: rest).length + 1)
      name.1 (by simp; omega)
    have hitems := items_eq (parameter_eq name _) hmore
    simp [parameters, name.2, hitems, expect_facing hs hclose, Names.identifiers]

/-! ## Statements -/

theorem skipPeriods_facing (t : Token) {rest : List Token} (hrest : headKind rest ≠ .period) :
    (s.facing (t :: rest)).skipPeriods = s.facing (t :: rest) := by
  rw [State.skipPeriods_eq, kind_peek_facing, if_neg hrest]

theorem exists_skipPeriods_eq (last : Token) (periods : List (TokenOf .period)) {rest : List Token}
    (hrest : headKind rest ≠ .period) :
    ∃ last', (s.facing (last :: (periods.map (·.1) ++ rest))).skipPeriods
      = s.facing (last' :: rest) := by
  induction periods generalizing last with
  | nil => exact ⟨last, skipPeriods_facing last hrest⟩
  | cons period periods ih =>
    obtain ⟨last', h⟩ := ih period.1
    refine ⟨last', ?_⟩
    rw [← h, State.skipPeriods_eq, kind_peek_facing]
    exact if_pos period.2

theorem statement_comment (t : TokenOf .comment) (ts : List Token) :
    statement sub (s.facing (t.1 :: ts)) = (some (.comment t.1), s.facing (t.1 :: ts)) := by
  simp [statement, t.2]

theorem statement_expression {t : Token} {ts : List Token} {e : Expr}
    (ht : t.kind ≠ .comment) (hsub : sub .lowest (s.facing (t :: ts)) = (some e, s'))
    (hskip : s'.skipPeriods = s'') :
    statement sub (s.facing (t :: ts)) = (some (.expression t e), s'') := by
  simp [statement, ht, hsub, hskip]

section Statements

variable {ends : Kind → Bool} {bound : Nat} {statements : List Stmt}

theorem statementsUntil_stop {ts : List Token} (hend : ends (headKind ts) = true) :
    statementsUntil sub ends bound (s.facing ts) = ([], s.facing ts) := by
  cases bound with
  | zero => rfl
  | succ bound => simp [statementsUntil, kind_current_facing, hend]

theorem statementsUntil_step {ts : List Token} {x : Stmt} (hs : s.abandoned = false)
    (hend : ends (headKind ts) = false) (hstatement : statement sub (s.facing ts) = (some x, s'))
    (hmore : statementsUntil sub ends bound s'.advance = (statements, s'')) :
    statementsUntil sub ends (bound + 1) (s.facing ts) = (x :: statements, s'') := by
  simp [statementsUntil, kind_current_facing, hs, hend, hstatement, hmore]

/-- Statements that end at kinds for which `ends` holds do end before a token of this kind, and not
earlier: it neither begins a statement nor continues or closes one. -/
structure EndsAt (ends : Kind → Bool) (kind : Kind) : Prop where
  here : ends kind = true
  not_comment : ends .comment = false
  not_starter : ∀ k ∈ starters, ends k = false
  not_period : kind ≠ .period
  not_continuer : kind ∉ continuers

theorem endsAt_rbrace : EndsAt endsBody .rbrace := by
  constructor <;> decide

theorem endsAt_eof : EndsAt (· == .eof) .eof := by
  constructor <;> decide

theorem body_eq {brace close : Token} {ts rest : List Token} (hclose : close.kind = .rbrace)
    (hread : statementsUntil sub endsBody ts.length (s.facing ts)
      = (statements, s.facing (close :: rest))) :
    body sub (s.facing (brace :: ts)) = (statements, s.facing (close :: rest)) := by
  simp [body, hread, hclose]

end Statements

theorem of_eq_lowest {kind : Kind} (h : kind ∉ continuers) : Precedence.of kind = .lowest := by
  revert h
  cases kind <;> decide

theorem kind_ne_comment_of_mem_starters {kind : Kind} (h : kind ∈ starters) : kind ≠ .comment := by
  rintro rfl
  revert h
  decide

/-- No statement begins with a period. -/
theorem Body.headKind_append_ne_period {ts rest : List Token} (d : Body ts)
    (hrest : headKind rest ≠ .period) : headKind (ts ++ rest) ≠ .period := by
  cases d with
  | done => exact hrest
  | comment t _ => rw [List.cons_append, headKind_cons, t.2]; decide
  | expression value _ _ _ =>
    have hfirst := value.kind_mem_starters
    simp only [List.cons_append, headKind_cons]
    rintro hperiod
    rw [hperiod] at hfirst
    revert hfirst
    decide

/-- Behind an expression statement comes nothing that would continue the expression. -/
theorem Body.of_headKind_eq_lowest {us rest : List Token} (periods : List (TokenOf .period))
    (hsplit : periods = [] → ∀ u ∈ us.head?, u.kind ∉ continuers)
    (hrest : periods = [] → us = [] → headKind rest ∉ continuers) :
    Precedence.of (headKind (periods.map (·.1) ++ (us ++ rest))) = .lowest := by
  cases periods with
  | cons period periods =>
    rw [List.map_cons, List.cons_append, headKind_cons, period.2]
    rfl
  | nil =>
    cases us with
    | nil => exact of_eq_lowest (hrest rfl rfl)
    | cons u us => exact of_eq_lowest (hsplit rfl u rfl)

theorem More.of_headKind_append {us rest : List Token} (d : More us)
    (h : Precedence.of (headKind rest) = .lowest) :
    Precedence.of (headKind (us ++ rest)) = .lowest := by
  cases d with
  | done => exact h
  | item comma _ _ => rw [List.cons_append, List.cons_append, headKind_cons, comma.2]; rfl

/-- A token that closes a list continues nothing. -/
theorem of_headKind_close {close : Token} {kind : Kind} (rest : List Token)
    (hclose : close.kind = kind) (hkind : kind = .rparen ∨ kind = .rbracket) :
    Precedence.of (headKind (close :: rest)) = .lowest := by
  rw [headKind_cons, hclose]
  rcases hkind with rfl | rfl <;> rfl

/-- No expression begins with a token that closes a list. -/
theorem Phrase.headKind_ne_close {σ : Stratum} {ts rest : List Token} {kind : Kind}
    (d : Phrase σ ts) (hkind : kind = .rparen ∨ kind = .rbracket) :
    headKind (ts ++ rest) ≠ kind := by
  obtain ⟨t, us, rfl, ht⟩ := d.exists_first
  rw [List.cons_append, headKind_cons]
  rintro rfl
  revert ht
  rcases hkind with h | h <;> rw [h] <;> decide

/-! ## Phrases -/

/-- A phrase that its successor does not continue is read as a whole. -/
theorem read_of_eq_chain {ts rest : List Token} {left : Expr} {last : Token} {room' : Nat}
    (h : expression room level (s.facing ts) = chain room' level left (s.facing (last :: rest)))
    (hrest : ¬level < .of (headKind rest)) :
    expression room level (s.facing ts) = (some left, s.facing (last :: rest)) := by
  rw [h, chain_of_not_lt hrest]

theorem not_lowest_lt_of_kind {t : Token} {ts : List Token} {kind : Kind} (ht : t.kind = kind)
    (h : Precedence.of kind = .lowest) : ¬Precedence.lowest < .of (headKind (t :: ts)) := by
  rw [headKind_cons, ht, h]
  decide

/-- One more round of the loop, at a token that continues the phrase on the left. -/
theorem expression_eq_chain_of_continued {ts us : List Token} {left e : Expr}
    {last t : Token} {folds : Nat} {rule : Rule (Option Expr)} (hs : s.abandoned = false)
    (hroom : folds + 2 ≤ room) (hlevel : level < .of t.kind)
    (hleft : expression room level (s.facing ts)
      = chain (room - 1 - folds) level left (s.facing (last :: t :: us)))
    (hrule : continuation? (expression (room - 2 - folds)) left t.kind = some rule)
    (hrun : rule (s.facing (t :: us)) = (some e, s')) :
    expression room level (s.facing ts) = chain (room - 1 - (folds + 1)) level e s' := by
  have hround : room - 1 - folds = room - 2 - folds + 1 := by omega
  have hleftover : room - 1 - (folds + 1) = room - 2 - folds := by omega
  rw [hleft, hround, chain_succ hs hlevel hrule hrun, hleftover]

mutual

/-- **Phrases are read.** With room for its levels, the rule for expressions gets from the first
token of a phrase to the round of its loop in which the phrase is on the left. -/
theorem Phrase.expression_eq_chain {σ : Stratum} {ts : List Token} :
    (d : Phrase σ ts) → ∀ (room : Nat) (level : Precedence) (s : State) (rest : List Token),
      s.abandoned = false → (Stratum.above level).rank ≤ σ.rank → σ.MeetsAt (headKind rest) →
      d.levels ≤ room →
      expression room level (s.facing (ts ++ rest))
        = chain (room - 1 - d.folds) level d.tree (s.facing (d.last :: rest))
  | .leaf e h => by
    rintro (_ | room) level s rest hs - - hroom
    · cases hroom
    · exact expression_succ hs (primary_of_denotes h)
  | .group opening inner close => by
    rintro (_ | room) level s rest hs - - hroom
    · cases hroom
    have hinner := inner.expression_eq_chain room .lowest s (close.1 :: rest) hs (Nat.zero_le _)
      (.of_lowest _ (by rw [headKind_cons, close.2]; rfl)) (Nat.le_of_succ_le_succ hroom)
    have hread := read_of_eq_chain hinner (not_lowest_lt_of_kind close.2 rfl)
    simp only [List.cons_append, List.append_assoc, List.nil_append]
    exact expression_succ hs (primary_group hs opening.2 close.2 hread)
  | .array opening elements close => by
    rintro (_ | room) level s rest hs - - hroom
    · cases hroom
    have hlist := elements.expressionList_eq room s opening.1 close.1 rest .rbracket hs close.2
      (.inr rfl) (Nat.le_of_succ_le_succ hroom)
    simp only [List.cons_append, List.append_assoc, List.nil_append]
    exact expression_succ hs (primary_array opening.2 hlist)
  | @Phrase.function ps ts keyword opening parameters close brace body unbrace => by
    rintro (_ | room) level s rest hs - - hroom
    · cases hroom
    have hends : EndsAt endsBody (headKind (unbrace.1 :: rest)) := by
      rw [headKind_cons, unbrace.2]
      exact endsAt_rbrace
    have hread := body.statementsUntil_eq room (ts ++ unbrace.1 :: rest).length s endsBody
      (unbrace.1 :: rest) hs hends (by simp) (Nat.le_of_succ_le_succ hroom)
    have hnames := parameters.parameters_eq opening.1 (brace.1 :: (ts ++ unbrace.1 :: rest)) hs
      close.2
    simp only [List.cons_append, List.append_assoc, List.nil_append]
    exact expression_succ hs (primary_function hs keyword.2 opening.2 brace.2 hnames
      (body_eq unbrace.2 hread))
  | @Phrase.call fs ts callee opening arguments close => by
    intro room level s rest hs hlevel _ hroom
    rw [Phrase.levels] at hroom
    -- the callee has its own rounds of the loop, and the call is one more
    have hcallee := callee.expression_eq_chain room level s (opening.1 :: (ts ++ close.1 :: rest))
      hs hlevel (Stratum.meetsAt_applied _) (by omega)
    have hlist := arguments.expressionList_eq (room - 2 - callee.folds) s opening.1 close.1 rest
      .rparen hs close.2 (.inl rfl) (by omega)
    have hcall : level < .of opening.1.kind := by
      rw [opening.2]; exact (Stratum.lt_call_of_above hlevel).1
    simp only [List.cons_append, List.append_assoc, List.nil_append]
    exact expression_eq_chain_of_continued hs (by omega) hcall hcallee (by rw [opening.2]; rfl)
      (callRule_eq hlist)
  | @Phrase.index ls ts left opening position close => by
    intro room level s rest hs hlevel _ hroom
    rw [Phrase.levels] at hroom
    have hleft := left.expression_eq_chain room level s (opening.1 :: (ts ++ close.1 :: rest))
      hs hlevel (Stratum.meetsAt_applied _) (by omega)
    have hposition := position.expression_eq_chain (room - 2 - left.folds) .lowest s
      (close.1 :: rest) hs (Nat.zero_le _) (.of_lowest _ (by rw [headKind_cons, close.2]; rfl))
      (by omega)
    have hread := read_of_eq_chain hposition (not_lowest_lt_of_kind close.2 rfl)
    have hindex : level < .of opening.1.kind := by
      rw [opening.2]; exact (Stratum.lt_call_of_above hlevel).2
    simp only [List.cons_append, List.append_assoc, List.nil_append]
    exact expression_eq_chain_of_continued hs (by omega) hindex hleft (by rw [opening.2]; rfl)
      (indexRule_eq hs close.2 hread)
  | .unary t operator ht right => by
    rintro (_ | room) level s rest hs - hrest hroom
    · cases hroom
    have hright := right.expression_eq_chain room .unary s rest hs (Nat.le_refl _) hrest
      (Nat.le_of_succ_le_succ hroom)
    have hread := read_of_eq_chain hright (Stratum.not_unary_lt_of_meetsAt hrest)
    exact expression_succ hs (primary_unary ht hread)
  | @Phrase.binary σ ls rs left t operator hσ ht right => by
    intro room level s rest hs hlevel hrest hroom
    rw [Phrase.levels] at hroom
    have hleft := left.expression_eq_chain room level s (t :: (rs ++ rest)) hs hlevel
      (Stratum.meetsAt_of_mem_operators hσ) (by omega)
    -- an operator of the same stratum may follow, and the right operand stops before it
    have hright := right.expression_eq_chain (room - 2 - left.folds) (.of t.kind) s rest hs
      (by rw [Stratum.above_of_mem_operators hσ])
      (hrest.mono (Stratum.rank_le_rank_tighter σ)) (by omega)
    have hread := read_of_eq_chain hright (Stratum.not_lt_of_meetsAt hσ hrest)
    simp only [List.cons_append, List.append_assoc]
    exact expression_eq_chain_of_continued hs (by omega) (Stratum.lt_of_mem_operators hσ hlevel)
      hleft (continuation?_of_operator ht) (binaryRule_eq hread)
  | .tighter _ inner => by
    intro room level s rest hs hlevel hrest hroom
    exact inner.expression_eq_chain room level s rest hs
      (hlevel.trans (Stratum.rank_le_rank_tighter _))
      (hrest.mono (Stratum.rank_le_rank_tighter _)) hroom

theorem Listing.expressionList_eq {ts : List Token} :
    (d : Listing ts) → ∀ (room : Nat) (s : State) (opening close : Token) (rest : List Token)
      (kind : Kind), s.abandoned = false → close.kind = kind →
      kind = .rparen ∨ kind = .rbracket → d.levels ≤ room →
      expressionList (expression room) kind (s.facing (opening :: (ts ++ close :: rest)))
        = (d.trees, s.facing (close :: rest))
  | .empty => fun _ _ _ _ _ _ _ hclose _ _ ↦ expressionList_nil hclose
  | @Listing.items ts us first more => by
    intro room s opening close rest kind hs hclose hkind hroom
    rw [Listing.levels] at hroom
    have hlowest := of_headKind_close rest hclose hkind
    have hcomma : headKind (close :: rest) ≠ .comma := by
      rw [headKind_cons, hclose]
      rcases hkind with rfl | rfl <;> decide
    have hnext := more.of_headKind_append hlowest
    have hfirst := first.expression_eq_chain room .lowest s (us ++ close :: rest) hs
      (Nat.zero_le _) (.of_lowest _ hnext) (by omega)
    have hread := read_of_eq_chain hfirst (by rw [hnext]; decide)
    obtain ⟨last, hmore⟩ := more.moreItems_eq room ((us ++ close :: rest).length + 1) s first.last
      (close :: rest) hs hlowest hcomma (by simp; omega) (by omega)
    rw [List.append_assoc]
    exact expressionList_items hs hclose (first.headKind_ne_close hkind) (items_eq hread hmore)

theorem More.moreItems_eq {ts : List Token} :
    (d : More ts) → ∀ (room bound : Nat) (s : State) (last : Token) (rest : List Token),
      s.abandoned = false → Precedence.of (headKind rest) = .lowest → headKind rest ≠ .comma →
      ts.length ≤ bound → d.levels ≤ room →
      ∃ last', moreItems (expression room .lowest) bound (s.facing (last :: (ts ++ rest)))
        = (d.trees, s.facing (last' :: rest))
  | .done => fun _ _ _ last _ _ _ hcomma _ _ ↦ ⟨last, moreItems_stop hcomma⟩
  | @More.item ts us comma next more => by
    rintro room (_ | bound) s last rest hs hlowest hcomma hbound hroom
    · simp at hbound
    rw [More.levels] at hroom
    have hnext := more.of_headKind_append hlowest
    have hitem := next.expression_eq_chain room .lowest s (us ++ rest) hs (Nat.zero_le _)
      (.of_lowest _ hnext) (by omega)
    have hread := read_of_eq_chain hitem (by rw [hnext]; decide)
    obtain ⟨last', hmore⟩ := more.moreItems_eq room bound s next.last rest hs hlowest hcomma
      (by simp at hbound; omega) (by omega)
    simp only [List.cons_append, List.append_assoc]
    exact ⟨last', moreItems_step comma.2 hread hmore⟩

theorem Body.statementsUntil_eq {ts : List Token} :
    (d : Body ts) → ∀ (room bound : Nat) (s : State) (ends : Kind → Bool) (rest : List Token),
      s.abandoned = false → EndsAt ends (headKind rest) → ts.length ≤ bound → d.levels ≤ room →
      statementsUntil (expression room) ends bound (s.facing (ts ++ rest))
        = (d.statements, s.facing rest)
  | .done => fun _ _ _ _ _ _ hends _ _ ↦ statementsUntil_stop hends.here
  | @Body.comment ts t more => by
    rintro room (_ | bound) s ends rest hs hends hbound hroom
    · simp at hbound
    have hmore := more.statementsUntil_eq room bound s ends rest hs hends
      (Nat.le_of_succ_le_succ hbound) hroom
    have hend : ends (headKind (t.1 :: ts ++ rest)) = false := by
      rw [List.cons_append, headKind_cons, t.2]
      exact hends.not_comment
    exact statementsUntil_step hs hend (statement_comment t _) hmore
  | @Body.expression t ts us value periods split more => by
    rintro room (_ | bound) s ends rest hs hends hbound hroom
    · simp at hbound
    rw [Body.levels] at hroom
    -- whether there are periods or not, the loop ends behind the expression
    have hfollow := Body.of_headKind_eq_lowest periods split fun _ _ ↦ hends.not_continuer
    have hvalue := value.expression_eq_chain room .lowest s (periods.map (·.1) ++ (us ++ rest)) hs
      (Nat.zero_le _) (.of_lowest _ hfollow) (by omega)
    have hread := read_of_eq_chain hvalue (by rw [hfollow]; decide)
    obtain ⟨last, hskip⟩ := exists_skipPeriods_eq (s := s) value.last periods
      (more.headKind_append_ne_period hends.not_period)
    have hmore := more.statementsUntil_eq room bound s ends rest hs hends
      (by simp at hbound; omega) (by omega)
    have hstarter := value.kind_mem_starters
    simp only [List.cons_append, List.append_assoc] at hread ⊢
    exact statementsUntil_step hs (hends.not_starter _ hstarter)
      (statement_expression (kind_ne_comment_of_mem_starters hstarter) hread hskip) hmore

end

/-- An expression statement is read, and then the statements that follow its periods. -/
theorem Phrase.statementsUntil_step {t : Token} {ts us : List Token} {ends : Kind → Bool}
    {bound : Nat} {statements : List Stmt} (value : Phrase .equality (t :: ts))
    (periods : List (TokenOf .period)) (hs : s.abandoned = false) (hroom : value.levels ≤ room)
    (hends : ∀ k ∈ starters, ends k = false)
    (hfollow : Precedence.of (headKind (periods.map (·.1) ++ us)) = .lowest)
    (hperiod : headKind us ≠ .period)
    (hmore : statementsUntil (expression room) ends bound (s.facing us) = (statements, s')) :
    statementsUntil (expression room) ends (bound + 1)
        (s.facing (t :: ts ++ (periods.map (·.1) ++ us)))
      = (.expression t value.tree :: statements, s') := by
  have hvalue := value.expression_eq_chain room .lowest s (periods.map (·.1) ++ us) hs
    (Nat.zero_le _) (.of_lowest _ hfollow) hroom
  have hread := read_of_eq_chain hvalue (by rw [hfollow]; decide)
  obtain ⟨last, hskip⟩ := exists_skipPeriods_eq (s := s) value.last periods hperiod
  have hstarter := value.kind_mem_starters
  exact Grammar.statementsUntil_step hs (hends _ hstarter)
    (statement_expression (kind_ne_comment_of_mem_starters hstarter) hread hskip) hmore

/-- **The grammar is unambiguous.** With room for both of them, each of two derivations of the same
tokens is what the parser reads. -/
theorem Body.statements_unique {ts : List Token} (d d' : Body ts) :
    d.statements = d'.statements := by
  have hread := d.statementsUntil_eq (max d.levels d'.levels) ts.length ⟨[], 0, false, #[], #[]⟩
    (· == .eof) [] rfl endsAt_eof (Nat.le_refl _) (Nat.le_max_left _ _)
  have hread' := d'.statementsUntil_eq (max d.levels d'.levels) ts.length ⟨[], 0, false, #[], #[]⟩
    (· == .eof) [] rfl endsAt_eof (Nat.le_refl _) (Nat.le_max_right _ _)
  exact congrArg Prod.fst (hread.symm.trans hread')

end DrawScript.Grammar
