import DrawScript.Proofs.Grammar.Nesting
import DrawScript.Proofs.Parser.Height
import DrawScript.Proofs.Parser.Observed

/-!
# The counter bounds the recursion

The parser keeps a counter of open levels, and goes down only as far as the counter admits. That
this bounds how many expressions are read one inside the other is a matter of two numbers: an
expression is begun only where at least as many levels are open as expressions are being read, and a
level is opened only up to the limit.

The induction is on both numbers at once. `AtLevel d k` is what holds while the counter stands at
`d` and `k` expressions are being read, and a rule for a single construct keeps it if the rule for
its parts does (`Mirrors`). The loop that continues an expression is the exception, since it leaves
the counter raised by one for each round; the expression that runs it puts the counter back.

The same induction shows that the observed rules do what the rules of the parser do, where the room
of an expression is what the counter leaves up to the limit. What an activation yields is therefore
as tall as the room at its beginning admits (`Activation.Faithful`).
-/

namespace DrawScript.Parser

open Token (Kind)

variable {α β : Type} {d k fuel : Nat} {m : Observed} {sub : ExprRule} {sub' : ObservedExprRule}

/-! ## The invariant -/

/-- The activation was continued at most as often as the limit left room for, and yields what the
rule for expressions yields with that room. -/
def Activation.Faithful (a : Activation) : Prop :=
  a.folds ≤ nestingLimit - 1 - a.entry ∧
    ∃ level s, a.value = (expression (nestingLimit - a.entry) level s).1

theorem Activation.Faithful.value_eq_none {a : Activation} (h : a.Faithful)
    (hentry : nestingLimit ≤ a.entry) : a.value = none := by
  obtain ⟨-, level, s, hvalue⟩ := h
  rw [hvalue, Nat.sub_eq_zero_of_le hentry, expression]

theorem Activation.Faithful.height_le {a : Activation} (h : a.Faithful) :
    ∀ e ∈ a.value, e.height ≤ tallest (nestingLimit - a.entry) := by
  obtain ⟨-, level, s, hvalue⟩ := h
  rw [hvalue]
  exact height_expression_le _ level s

/-- The counter stands at `d`, and `k` of the expressions that have begun are being read. Neither
number has exceeded the limit by more than one, and all activations that have ended are faithful. -/
structure AtLevel (d k : Nat) (m : Observed) : Prop where
  counter_eq : m.counter = d
  active_eq : m.active = k
  begun_eq : m.starts.length = m.ended.length + k
  moments_le : ∀ x ∈ m.moments, x.active ≤ nestingLimit + 1 ∧ x.counter ≤ nestingLimit + 1
  faithful : ∀ a ∈ m.ended, a.Faithful

namespace AtLevel

theorem ofSource (source : String) : AtLevel 0 0 (.ofSource source) where
  counter_eq := rfl
  active_eq := rfl
  begun_eq := rfl
  moments_le x hx := by
    obtain rfl := List.mem_singleton.mp hx
    exact ⟨Nat.zero_le _, Nat.zero_le _⟩
  faithful _ ha := absurd ha List.not_mem_nil

/-- The state of the parse, the rounds of loops and the bounds have no part in it. -/
theorem congr (h : AtLevel d k m) (state : State) (rounds : List Round) (brokenOff : Bool) :
    AtLevel d k { m with state, rounds, brokenOff } :=
  ⟨h.counter_eq, h.active_eq, h.begun_eq, h.moments_le, h.faithful⟩

theorem endRound (h : AtLevel d k m) (before : State) : AtLevel d k (m.endRound before) :=
  h.congr _ _ _

theorem enter (h : AtLevel d k m) (hd : d ≤ nestingLimit + 1) (hk : k ≤ nestingLimit) :
    AtLevel d (k + 1) m.enter where
  counter_eq := h.counter_eq
  active_eq := congrArg (· + 1) h.active_eq
  begun_eq := by
    have hlength : m.enter.starts.length = m.starts.length + 1 := List.length_append
    rw [hlength, h.begun_eq]
    rfl
  moments_le x hx := by
    rcases List.mem_cons.mp hx with rfl | hx
    · exact ⟨h.active_eq ▸ Nat.succ_le_succ hk, h.counter_eq ▸ hd⟩
    · exact h.moments_le x hx
  faithful := h.faithful

theorem raise (h : AtLevel d k m) (hd : d ≤ nestingLimit) (hk : k ≤ nestingLimit + 1) :
    AtLevel (d + 1) k m.raise where
  counter_eq := congrArg (· + 1) h.counter_eq
  active_eq := h.active_eq
  begun_eq := h.begun_eq
  moments_le x hx := by
    rcases List.mem_cons.mp hx with rfl | hx
    · exact ⟨h.active_eq ▸ hk, h.counter_eq ▸ Nat.succ_le_succ hd⟩
    · exact h.moments_le x hx
  faithful := h.faithful

theorem leave {c : Nat} (h : AtLevel c (k + 1) m) {a : Activation} (ha : a.Faithful)
    (hd : a.entry ≤ nestingLimit + 1) (hk : k ≤ nestingLimit) : AtLevel a.entry k (m.leave a) where
  counter_eq := rfl
  active_eq := congrArg (· - 1) h.active_eq
  begun_eq := h.begun_eq.trans (Nat.add_right_comm _ k 1)
  moments_le x hx := by
    rcases List.mem_cons.mp hx with rfl | hx
    · have hactive : m.active = k + 1 := h.active_eq
      exact ⟨by dsimp only; omega, hd⟩
    · exact h.moments_le x hx
  faithful b hb := by
    rcases List.mem_cons.mp hb with rfl | hb
    · exact ha
    · exact h.faithful b hb

end AtLevel

/-! ## Rules that leave the counter as it was -/

/-- While the counter stands at `d` and `k` expressions are being read, the observed rule does what
the rule does, and leaves both numbers as they were. -/
def Mirrors (d k : Nat) (rule' : ObservedRule α) (rule : Rule α) : Prop :=
  ∀ m, AtLevel d k m →
    (rule' m).1 = (rule m.state).1 ∧ (rule' m).2.state = (rule m.state).2 ∧ AtLevel d k (rule' m).2

namespace Mirrors

/-- Both rules yield one value, and the rule ends where the parse stands under observation. -/
theorem exists_eq {rule' : ObservedRule α} {rule : Rule α} (h : Mirrors d k rule' rule)
    (hm : AtLevel d k m) :
    ∃ x m₁, rule' m = (x, m₁) ∧ rule m.state = (x, m₁.state) ∧ AtLevel d k m₁ := by
  obtain ⟨hvalue, hstate, hlevel⟩ := h m hm
  exact ⟨_, _, rfl, Prod.ext hvalue.symm hstate.symm, hlevel⟩

theorem pure (x : α) : Mirrors d k (Pure.pure x) fun s ↦ (x, s) :=
  fun _ hm ↦ ⟨rfl, rfl, hm⟩

theorem bind {rule' : ObservedRule α} {rule : Rule α} {next' : α → ObservedRule β}
    {next : α → Rule β} (h : Mirrors d k rule' rule)
    (hnext : ∀ x, Mirrors d k (next' x) (next x)) :
    Mirrors d k (rule' >>= next') fun s ↦ next (rule s).1 (rule s).2 := by
  intro m hm
  obtain ⟨hvalue, hstate, hlevel⟩ := h m hm
  have h' := hnext (rule' m).1 (rule' m).2 hlevel
  dsimp only
  rwa [← hvalue, ← hstate]

theorem lift (rule : Rule α) : Mirrors d k (Observed.lift rule) rule :=
  fun m hm ↦ ⟨rfl, rfl, hm.congr _ m.rounds m.brokenOff⟩

theorem look : Mirrors d k Observed.look fun s ↦ (s, s) :=
  lift _

theorem advance : Mirrors d k Observed.advance fun s ↦ ((), s.advance) :=
  lift _

theorem expect (kind : Kind) : Mirrors d k (Observed.lift (·.expect kind)) (·.expect kind) :=
  lift _

/-- What is given up if a token is missing. -/
theorem guarded {x : α} {next' : ObservedRule α} {next : Rule α} (h : Mirrors d k next' next)
    (opened : Bool) :
    Mirrors d k (if !opened then Pure.pure x else next') fun s ↦
      if !opened then (x, s) else next s := by
  cases opened with
  | true => exact h
  | false => exact .pure x

end Mirrors

/-! ### Loops -/

/-- A loop of the parser is told from what it does when the bound is reached and from a round. -/
theorem mirrors_repeatWhile {goes : State → Bool} {round' : ObservedRule (List α)}
    {round : Rule (List α)} {rounds : Nat → Rule (List α)} (hround : Mirrors d k round' round)
    (hzero : ∀ s, rounds 0 s = ([], s))
    (hsucc : ∀ bound s, rounds (bound + 1) s =
      if goes s then
        ((round s).1 ++ (rounds bound (round s).2).1, (rounds bound (round s).2).2)
      else ([], s)) (bound : Nat) :
    Mirrors d k (Observed.repeatWhile goes round' bound) (rounds bound) := by
  induction bound with
  | zero =>
    intro m hm
    rw [Observed.repeatWhile, hzero]
    split_ifs
    · exact ⟨rfl, rfl, hm.congr m.state m.rounds true⟩
    · exact ⟨rfl, rfl, hm⟩
  | succ bound ih =>
    intro m hm
    rw [Observed.repeatWhile, hsucc]
    split_ifs with hgoes
    · obtain ⟨hvalue, hstate, hlevel⟩ := hround m hm
      have hmore := ih ((round' m).2.endRound m.state) (hlevel.endRound _)
      have hend : ((round' m).2.endRound m.state).state = (round m.state).2 := hstate
      rw [hend] at hmore
      exact ⟨congrArg₂ _ hvalue hmore.1, hmore.2⟩
    · exact ⟨rfl, rfl, hm⟩

theorem mirrors_items {item' : ObservedRule (Option α)} {item : Rule (Option α)}
    (hitem : Mirrors d k item' item) : Mirrors d k (Observed.items item') (items item) := by
  have hnext : Mirrors d k (Observed.nextItem item')
      fun s ↦ ((item s.advance.advance).1.toList, (item s.advance.advance).2) :=
    Mirrors.advance.bind fun _ ↦ Mirrors.advance.bind fun _ ↦ hitem.bind fun x ↦ .pure x.toList
  have hmore : Mirrors d k (Observed.loop (·.peek.kind == .comma) (Observed.nextItem item'))
      fun s ↦ moreItems item s.pending.length s := fun m hm ↦
    mirrors_repeatWhile hnext (fun _ ↦ rfl) (fun _ _ ↦ by simp only [moreItems, beq_iff_eq]) _ m hm
  exact hitem.bind fun x ↦ hmore.bind fun xs ↦ .pure (x.toList ++ xs)

/-- The loop over periods with a bound. -/
def passPeriods : (bound : Nat) → Rule (List Unit)
  | 0, s => ([], s)
  | bound + 1, s => if s.peek.kind = .period then passPeriods bound s.advance else ([], s)

theorem passPeriods_eq (bound : Nat) (s : State) (hbound : s.pending.length ≤ bound) :
    passPeriods bound s = ([], s.skipPeriods) := by
  induction bound generalizing s with
  | zero =>
    have hpeek : ¬s.peek.kind = .period := by
      rw [State.peek, List.eq_nil_of_length_eq_zero (Nat.le_zero.mp hbound)]
      exact Kind.noConfusion
    rw [passPeriods, State.skipPeriods_eq, if_neg hpeek]
  | succ bound ih =>
    have hshorter : s.advance.pending.length ≤ bound := by
      rw [State.pending_advance, List.length_tail]
      omega
    rw [passPeriods, State.skipPeriods_eq, ih _ hshorter]
    split_ifs <;> rfl

theorem mirrors_skipPeriods :
    Mirrors d k Observed.skipPeriods fun s ↦ ((), s.skipPeriods) := by
  intro m hm
  have hloop : Mirrors d k (Observed.repeatWhile (·.peek.kind == .period)
      (Observed.lift fun s ↦ (([] : List Unit), s.advance)) m.state.pending.length)
      (passPeriods m.state.pending.length) :=
    mirrors_repeatWhile (.lift _) (fun _ ↦ rfl)
      (fun _ _ ↦ by simp only [passPeriods, beq_iff_eq]; rfl) _
  obtain ⟨-, hstate, hlevel⟩ := hloop m hm
  exact ⟨rfl, hstate.trans (congrArg Prod.snd (passPeriods_eq _ _ (Nat.le_refl _))), hlevel⟩

/-! ### Single constructs -/

section

variable (hsub : ∀ level, Mirrors d k (sub' level) (sub level))

include hsub

theorem mirrors_statement : Mirrors d k (Observed.statement sub') (statement sub) := by
  intro m hm
  rw [Observed.statement, Observed.look_bind, statement]
  split_ifs with hcomment
  · exact ⟨rfl, rfl, hm⟩
  · exact ((hsub .lowest).bind fun value ↦ mirrors_skipPeriods.bind fun _ ↦ .pure _) m hm

theorem mirrors_statementsUntil (ends : Kind → Bool) :
    Mirrors d k (Observed.statementsUntil sub' ends)
      fun s ↦ statementsUntil sub ends s.pending.length s := by
  have hnext : Mirrors d k (Observed.nextStatement sub')
      fun s ↦ ((statement sub s).1.toList, (statement sub s).2.advance) :=
    (mirrors_statement hsub).bind fun x ↦ Mirrors.advance.bind fun _ ↦ .pure x.toList
  intro m hm
  refine mirrors_repeatWhile hnext (fun _ ↦ rfl) (fun bound s ↦ ?_) _ m hm
  rw [statementsUntil]
  cases s.abandoned || ends s.current.kind <;> rfl

theorem mirrors_body : Mirrors d k (Observed.body sub') (body sub) :=
  Mirrors.advance.bind fun _ ↦ (mirrors_statementsUntil hsub endsBody).bind fun _ ↦ .lift _

theorem mirrors_unaryRule : Mirrors d k (Observed.unaryRule sub') (unaryRule sub) := by
  intro m hm
  rw [Observed.unaryRule, Observed.look_bind, unaryRule]
  cases UnaryOperator.ofKind? m.state.current.kind with
  | none => exact ⟨rfl, rfl, hm⟩
  | some operator =>
    exact (Mirrors.advance.bind fun _ ↦ (hsub .unary).bind fun right ↦ .pure _) m hm

theorem mirrors_groupRule : Mirrors d k (Observed.groupRule sub') (groupRule sub) :=
  Mirrors.advance.bind fun _ ↦ (hsub .lowest).bind fun e ↦
    (Mirrors.expect .rparen).bind fun _ ↦ .pure e

omit hsub in
theorem mirrors_parameters : Mirrors d k Observed.parameters parameters := by
  intro m hm
  rw [Observed.parameters, Observed.advance_bind, Observed.look_bind, parameters]
  dsimp only
  have hlevel := hm.congr m.state.advance m.rounds m.brokenOff
  by_cases hempty : m.state.advance.current.kind = .rparen
  · rw [if_pos hempty, if_pos hempty]
    exact ⟨rfl, rfl, hlevel⟩
  · rw [if_neg hempty, if_neg hempty]
    exact ((mirrors_items (.lift parameter)).bind fun names ↦
      (Mirrors.expect .rparen).bind fun closed ↦ .pure _) _ hlevel

theorem mirrors_functionRule : Mirrors d k (Observed.functionRule sub') (functionRule sub) := by
  intro m hm
  have hbody (names : List Identifier) := (Mirrors.expect .lbrace).bind (.guarded (x := none)
    (Mirrors.look.bind fun brace ↦ (mirrors_body hsub).bind fun statements ↦
      .pure (some (Expr.function m.state.current names brace.current statements))))
  obtain ⟨opened, m₁, hopen', hopen, hm₁⟩ := (Mirrors.expect .lparen).exists_eq hm
  rw [Observed.functionRule, Observed.look_bind, Observed.bind_apply, hopen', functionRule, hopen]
  cases opened with
  | false => exact ⟨rfl, rfl, hm₁⟩
  | true =>
    obtain ⟨names, m₂, hnames', hnames, hm₂⟩ := mirrors_parameters.exists_eq hm₁
    simp only [Bool.not_true, Bool.false_eq_true, if_false, Observed.bind_apply, hnames', hnames]
    cases names with
    | none => exact ⟨rfl, rfl, hm₂⟩
    | some names => exact hbody names m₂ hm₂

theorem mirrors_expressionList (close : Kind) :
    Mirrors d k (Observed.expressionList sub' close) (expressionList sub close) := by
  intro m hm
  rw [Observed.expressionList, Observed.advance_bind, Observed.look_bind, expressionList]
  dsimp only
  have hlevel := hm.congr m.state.advance m.rounds m.brokenOff
  by_cases hempty : m.state.advance.current.kind = close
  · rw [if_pos hempty, if_pos hempty]
    exact ⟨rfl, rfl, hlevel⟩
  · rw [if_neg hempty, if_neg hempty]
    exact ((mirrors_items (hsub .lowest)).bind fun es ↦ .lift _) _ hlevel

theorem mirrors_arrayRule : Mirrors d k (Observed.arrayRule sub') (arrayRule sub) := fun m hm ↦
  ((mirrors_expressionList hsub .rbracket).bind fun es ↦
    .pure (some (Expr.array m.state.current es))) m hm

theorem mirrors_primary : Mirrors d k (Observed.primary sub') (primary sub) := by
  intro m hm
  rw [Observed.primary_apply]
  split
  case h_1 hkind => rw [primary, hkind]; exact mirrors_unaryRule hsub m hm
  case h_2 hkind => rw [primary, hkind]; exact mirrors_unaryRule hsub m hm
  case h_3 hkind => rw [primary, hkind]; exact mirrors_groupRule hsub m hm
  case h_4 hkind => rw [primary, hkind]; exact mirrors_functionRule hsub m hm
  case h_5 hkind => rw [primary, hkind]; exact mirrors_arrayRule hsub m hm
  case h_6 =>
    -- the remaining rules have no parts
    have hleaf : primary sub m.state = primary (fun _ s ↦ (none, s)) m.state := by
      rw [primary, primary]
      split <;> first | rfl | contradiction
    rw [hleaf]
    exact Mirrors.lift _ m hm

theorem mirrors_callRule (callee : Expr) :
    Mirrors d k (Observed.callRule sub' callee) (callRule sub callee) := fun m hm ↦
  ((mirrors_expressionList hsub .rparen).bind fun es ↦
    .pure (some (Expr.call m.state.current callee es))) m hm

theorem mirrors_indexRule (left : Expr) :
    Mirrors d k (Observed.indexRule sub' left) (indexRule sub left) := fun m hm ↦
  (Mirrors.advance.bind fun _ ↦ (hsub .lowest).bind fun position ↦
    (Mirrors.expect .rbracket).bind fun _ ↦
      .pure (position.map (Expr.index m.state.current left))) m hm

theorem mirrors_binaryRule (left : Expr) (operator : BinaryOperator) :
    Mirrors d k (Observed.binaryRule sub' left operator) (binaryRule sub left operator) :=
  fun m hm ↦
    (Mirrors.advance.bind fun _ ↦ (hsub _).bind fun right ↦
      .pure (right.map (Expr.binary m.state.current left operator))) m hm

/-- A token continues an expression under observation exactly if it does without. -/
theorem mirrors_continuation (left : Expr) (kind : Kind) :
    Option.Rel (Mirrors d k) (Observed.continuation? sub' left kind)
      (continuation? sub left kind) := by
  unfold Observed.continuation?
  split
  · exact .some (mirrors_callRule hsub left)
  · exact .some (mirrors_indexRule hsub left)
  · rw [continuation?]
    · cases BinaryOperator.ofKind? kind with
      | none => exact .none
      | some operator => exact .some (mirrors_binaryRule hsub left operator)
    all_goals assumption

end

/-! ## Rules that leave the counter raised -/

/-- The result under observation is the result without. The counter may be raised, but the
expression whose reading began at `d` has not been continued more often than the limit leaves room
for. -/
def EndsLike (d k : Nat) (result' : (Option Expr × Nat) × Observed)
    (result : Option Expr × State) : Prop :=
  result = (result'.1.1, result'.2.state) ∧ result'.1.2 ≤ nestingLimit - 1 - d ∧
    ∃ c, AtLevel c k result'.2

/-- The counter is put back, so that an expression is mirrored by the activation that reads it. -/
theorem mirrors_activation {rule' : ObservedRule (Option Expr × Nat)} {level : Precedence}
    (hd : d ≤ nestingLimit) (hk : k ≤ nestingLimit)
    (h : ∀ m, AtLevel d (k + 1) m →
      EndsLike d (k + 1) (rule' m) (expression (nestingLimit - d) level m.state)) :
    Mirrors d k (Observed.activation rule') (expression (nestingLimit - d) level) := by
  intro m hm
  obtain ⟨hresult, hfolds, c, hlevel⟩ := h m.enter (hm.enter (Nat.le_succ_of_le hd) hk)
  have hresult : expression (nestingLimit - d) level m.state
      = ((rule' m.enter).1.1, (rule' m.enter).2.state) := hresult
  have hentry : m.counter = d := hm.counter_eq
  rw [hresult]
  refine ⟨rfl, rfl, ?_⟩
  have hfaithful : Activation.Faithful ⟨m.counter, (rule' m.enter).1.2, (rule' m.enter).1.1⟩ :=
    ⟨hentry ▸ hfolds, level, m.state, by rw [hentry, hresult]⟩
  exact hentry ▸ hlevel.leave hfaithful (hentry ▸ Nat.le_succ_of_le hd) hk

/-- Room for the levels above `d`. -/
theorem nestingLimit_sub_eq (hd : d < nestingLimit) :
    nestingLimit - d = nestingLimit - (d + 1) + 1 := by
  omega

theorem endsLike_nested {more : Expr → ObservedRule (Option Expr × Nat)} {level : Precedence}
    (hd : d ≤ nestingLimit) (hk : k ≤ nestingLimit + 1)
    (hsub : d < nestingLimit → ∀ level,
      Mirrors (d + 1) k (sub' level) (expression (nestingLimit - (d + 1)) level))
    (hmore : d < nestingLimit → ∀ left m, AtLevel (d + 1) k m →
      EndsLike d k (more left m) (chain (nestingLimit - (d + 1)) level left m.state))
    (hm : AtLevel d k m) :
    EndsLike d k (Observed.nested sub' more m) (expression (nestingLimit - d) level m.state) := by
  rw [Observed.nested, Observed.bind_apply]
  have hraised := hm.raise hd hk
  rcases m.descend_cases with ⟨hgone, hrun⟩ | ⟨hgoing, hlimit, hrun⟩ | ⟨hgoing, hlt, hrun⟩ <;>
    rw [hrun]
  · exact ⟨Grammar.expression_of_abandoned hgone, Nat.zero_le _, d, hm⟩
  · rw [hm.counter_eq] at hlimit
    refine ⟨?_, Nat.zero_le _, _, hraised.congr m.state.abandon m.rounds m.brokenOff⟩
    rw [Nat.sub_eq_zero_of_le hlimit, expression]
    rfl
  · rw [hm.counter_eq] at hlt
    obtain ⟨left, m₂, hread', hread, hm₂⟩ := (mirrors_primary (hsub hlt)).exists_eq hraised
    rw [nestingLimit_sub_eq hlt, expression, hgoing, if_neg Bool.false_ne_true]
    simp only [Bool.not_true, Bool.false_eq_true, if_false, Observed.bind_apply, hread']
    rw [show primary _ m.state = _ from hread]
    cases left with
    | none => exact ⟨rfl, Nat.zero_le _, _, hm₂⟩
    | some left => exact hmore hlt left m₂ hm₂

/-- One round of the loop that continues an expression, and what comes behind it. -/
theorem endsLike_chain {c folds : Nat} {level : Precedence} {left : Expr}
    (hc : c ≤ nestingLimit) (hk : k ≤ nestingLimit + 1) (hfolds : d + 1 + folds = c)
    (hsub : c < nestingLimit → ∀ level, Mirrors (c + 1) k (Observed.expression fuel level)
      (expression (nestingLimit - (c + 1)) level))
    (hmore : c < nestingLimit → ∀ left m, AtLevel (c + 1) k m →
      EndsLike d k (Observed.chain fuel level left (folds + 1) m)
        (chain (nestingLimit - (c + 1)) level left m.state))
    (hm : AtLevel c k m) :
    EndsLike d k (Observed.chain (fuel + 1) level left folds m)
      (chain (nestingLimit - c) level left m.state) := by
  have hfits : folds ≤ nestingLimit - 1 - d := by omega
  rw [Observed.chain, Observed.look_bind]
  cases hcontinues : continues level m.state with
  | false => exact ⟨Grammar.chain_of_not_continues hcontinues, hfits, c, hm⟩
  | true =>
  rw [Bool.not_true, if_neg Bool.false_ne_true, Observed.bind_apply]
  have hraised := hm.raise hc hk
  rcases m.descend_cases with ⟨hgone, hrun⟩ | ⟨hgoing, hlimit, hrun⟩ | ⟨hgoing, hlt, hrun⟩ <;>
    rw [hrun]
  · exact ⟨Grammar.chain_of_abandoned hgone, hfits, c, hm⟩
  · rw [hm.counter_eq] at hlimit
    refine ⟨?_, hfits, _, hraised.congr m.state.abandon m.rounds m.brokenOff⟩
    rw [Nat.sub_eq_zero_of_le hlimit, chain, if_pos hcontinues]
    rfl
  · rw [hm.counter_eq] at hlt
    have hstate : m.raise.state = m.state := rfl
    have hrule := mirrors_continuation (hsub hlt) left m.raise.state.advance.current.kind
    rw [nestingLimit_sub_eq hlt, chain, hcontinues, hgoing, ← hstate]
    simp only [Bool.not_true, Bool.false_eq_true, Bool.or_false, if_false, Observed.advance_bind]
    generalize m.raise = m₁ at hraised hrule ⊢
    generalize Observed.continuation? _ left m₁.state.advance.current.kind = rule' at hrule ⊢
    generalize continuation? _ left m₁.state.advance.current.kind = rule at hrule ⊢
    have hahead := hraised.congr m₁.state.advance m₁.rounds m₁.brokenOff
    cases hrule with
    | none => exact ⟨rfl, hfits, _, hahead⟩
    | some hrule =>
      obtain ⟨value, m₂, hround', hround, hm₂⟩ := hrule.exists_eq hahead
      simp only [Observed.bind_apply, hround', hround]
      have hended := hm₂.endRound m₁.state
      have hfits : folds + 1 ≤ nestingLimit - 1 - d := by omega
      cases value with
      | none => exact ⟨rfl, hfits, _, hended⟩
      | some left => exact hmore hlt left _ hended

/-- The recursion is closed here: both of its branches are taken with the counter raised. -/
theorem mirrors_expression_and_chain (fuel : Nat) :
    (∀ d k level, nestingLimit < fuel + d → k ≤ d → d ≤ nestingLimit →
      Mirrors d k (Observed.expression fuel level) (expression (nestingLimit - d) level)) ∧
      ∀ c d k level left folds m, nestingLimit < fuel + c → k ≤ c → c ≤ nestingLimit →
        d + 1 + folds = c → AtLevel c k m →
          EndsLike d k (Observed.chain fuel level left folds m)
            (chain (nestingLimit - c) level left m.state) := by
  induction fuel with
  | zero => exact ⟨by omega, by omega⟩
  | succ fuel ih =>
    obtain ⟨hexpression, hchain⟩ := ih
    constructor
    · intro d k level hfuel hk hd
      rw [Observed.expression]
      refine mirrors_activation hd (by omega) fun m hm ↦ endsLike_nested hd (by omega) ?_ ?_ hm
      · exact fun hlt level ↦ hexpression _ _ level (by omega) (by omega) hlt
      · exact fun hlt left m hm ↦
          hchain _ _ _ level left 0 m (by omega) (by omega) hlt rfl hm
    · intro c d k level left folds m hfuel hk hc hfolds hm
      refine endsLike_chain hc (by omega) hfolds ?_ ?_ hm
      · exact fun hlt level ↦ hexpression _ _ level (by omega) (by omega) hlt
      · exact fun hlt left m hm ↦
          hchain _ _ _ level left _ m (by omega) (by omega) hlt (by omega) hm

/-! ## Whole sources -/

theorem atLevel_observe (source : String) :
    (observe source).1 = (program (.ofSource source)).1 ∧
      (observe source).2.state = (program (.ofSource source)).2 ∧
      AtLevel 0 0 (observe source).2 := by
  have hexpression (level : Precedence) :=
    (mirrors_expression_and_chain (nestingLimit + 1)).1 0 0 level (by omega) (Nat.le_refl 0)
      (Nat.zero_le _)
  obtain ⟨hvalue, hstate, hlevel⟩ :=
    mirrors_statementsUntil hexpression (· == .eof) _ (AtLevel.ofSource source)
  exact ⟨congrArg Program.mk hvalue, hstate, hlevel⟩

/-- What is observed is the parse of the source. -/
theorem observe_eq (source : String) :
    ((observe source).1, (observe source).2.state) = program (.ofSource source) :=
  Prod.ext (atLevel_observe source).1 (atLevel_observe source).2.1

end DrawScript.Parser
