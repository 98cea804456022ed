import DrawScript.Parser.Rules
import DrawScript.Proofs.Token.Spelling
import Mathlib.Logic.Relation
import Mathlib.Tactic.SplitIfs

/-!
# The steps of a parse

Whatever rule is at work, it changes the state of a parse in one of four ways: it advances, it
reports a fault that the two tokens at hand show, it gives up, or it writes to the log. `Step` lists
them, with everything that is known at the moment of each, and the theorems of this file show that
every rule takes the state through such steps and nothing else.

What holds along a parse is then shown for single steps and not for rules: tokens are only left
behind, diagnostics are only added, and a parse has given up exactly if a diagnostic says so.

The rules for single constructs take the rule for expressions as an argument, so each theorem here
asks of that argument what it shows of the rule, and the recursion is closed once, at the end.
-/

namespace DrawScript.Parser

open Token (Kind)

variable {s s' s'' : State} {sub : ExprRule}

/-! ## States that face given tokens -/

namespace State

/-- The same state with other tokens ahead. -/
def facing (s : State) (tokens : List Token) : State :=
  { s with pending := tokens }

@[simp] theorem pending_facing (s : State) (ts : List Token) : (s.facing ts).pending = ts := rfl

theorem facing_ofSource (source : String) :
    (ofSource source).facing (Token.scan 0 0 source.toList) = ofSource source := rfl

@[simp] theorem abandoned_facing (s : State) (ts : List Token) :
    (s.facing ts).abandoned = s.abandoned := rfl

@[simp] theorem advance_facing (s : State) (ts : List Token) :
    (s.facing ts).advance = s.facing ts.tail := rfl

@[simp] theorem current_facing_cons (s : State) (t : Token) (ts : List Token) :
    (s.facing (t :: ts)).current = t := rfl

@[simp] theorem current_advance (s : State) : s.advance.current = s.peek := rfl

@[simp] theorem abandoned_report (s : State) (fault : Fault) (t : Token) :
    (s.report fault t).abandoned = s.abandoned := rfl

@[simp] theorem abandoned_abandon (s : State) : s.abandon.abandoned = true := by
  rw [abandon]
  split_ifs with h
  · exact h
  · rfl

/-- Periods are passed over one by one. -/
theorem skipPeriods_eq (s : State) :
    s.skipPeriods = if s.peek.kind = .period then s.advance.skipPeriods else s := by
  obtain ⟨_ | ⟨a, _ | ⟨b, rest⟩⟩, stop, abandoned, diagnostics, log⟩ := s
  · rfl
  · rfl
  · by_cases hb : b.kind = .period <;>
      simp [skipPeriods, skipPeriods.drop, peek, advance, hb]

end State

/-! ## Single steps -/

/-- What can be wrong at a state, and the token that shows it. -/
inductive Finding (s : State) : Fault → Token → Prop
  | unexpected {expected : Kind} (h : s.peek.kind ≠ expected) :
      Finding s (.unexpectedToken expected s.peek.kind) s.peek
  | noParameter (h : s.current.kind ≠ .ident) :
      Finding s (.unexpectedToken .ident s.current.kind) s.current
  | unclosedBody (h : s.current.kind = .eof) :
      Finding s (.unexpectedToken .rbrace .eof) s.current
  | noRule : Finding s (.missingPrefixRule s.current.kind) s.current
  | integer (kind : s.current.kind = .int) (h : integerValue? s.current.lexeme = none) :
      Finding s (.invalidLiteral s.current.lexeme "integer") s.current
  | real (kind : s.current.kind = .float) (h : realValue? s.current.lexeme = none) :
      Finding s (.invalidLiteral s.current.lexeme "float") s.current
  | boolean (kind : s.current.kind = .trueWord ∨ s.current.kind = .falseWord)
      (h : booleanValue? s.current.lexeme = none) :
      Finding s (.invalidLiteral s.current.lexeme "boolean") s.current

/-- One change of the state of a parse. Faults are reported and the parse is given up only as long
as it has not been given up before. -/
inductive Step : State → State → Prop
  | advance (s : State) : Step s s.advance
  | report {s : State} {fault : Fault} {t : Token} (going : s.abandoned = false)
      (finding : Finding s fault t) : Step s (s.report fault t)
  | abandon {s : State} (going : s.abandoned = false) : Step s s.abandon
  | log (s : State) (close : Kind) : Step s (s.logUnclosed close)

/-- Any number of changes, one after another. -/
abbrev Steps : State → State → Prop :=
  Relation.ReflTransGen Step

theorem Steps.advance (s : State) : Steps s s.advance := .single (.advance s)

theorem Steps.abandon (s : State) : Steps s s.abandon := by
  cases h : s.abandoned with
  | false => exact .single (.abandon h)
  | true => rw [State.abandon, if_pos h]

theorem Steps.expect (s : State) (kind : Kind) : Steps s (s.expect kind).2 := by
  rw [State.expect]
  split_ifs with ha hk
  · exact .refl
  · exact .advance s
  · exact .single (.report (Bool.not_eq_true _ ▸ ha) (.unexpected hk))

theorem Steps.skipPeriods (s : State) : Steps s s.skipPeriods := by
  have hdrop : ∀ ts, Steps (s.facing ts) (s.facing (State.skipPeriods.drop ts)) := by
    intro ts
    fun_induction State.skipPeriods.drop ts with
    | case1 a b rest hb ih => exact (Steps.advance (s.facing (a :: b :: rest))).trans ih
    | case2 a b rest hb => exact .refl
    | case3 ts hts => exact .refl
  exact hdrop s.pending

/-! ## What steps keep -/

theorem Step.pending_suffix (h : Step s s') : s'.pending <:+ s.pending := by
  cases h with
  | advance => exact List.tail_suffix _
  | report => exact List.suffix_refl _
  | abandon going => rw [State.abandon, going]; exact List.suffix_refl _
  | log => exact List.suffix_refl _

/-- Tokens are only left behind. -/
theorem Steps.pending_suffix (h : Steps s s') : s'.pending <:+ s.pending := by
  induction h with
  | refl => exact List.suffix_refl _
  | tail _ hstep ih => exact hstep.pending_suffix.trans ih

theorem Step.diagnostics_prefix (h : Step s s') :
    s.diagnostics.toList <+: s'.diagnostics.toList := by
  cases h with
  | advance => exact List.prefix_refl _
  | report => simp [State.report]
  | abandon going => simp [State.abandon, going, State.report]
  | log => exact List.prefix_refl _

/-- Diagnostics are only added. -/
theorem Steps.diagnostics_prefix (h : Steps s s') :
    s.diagnostics.toList <+: s'.diagnostics.toList := by
  induction h with
  | refl => exact List.prefix_refl _
  | tail _ hstep ih => exact ih.trans hstep.diagnostics_prefix

/-- If nothing is reported on the whole way, nothing is reported on either part of it. -/
theorem Steps.diagnostics_eq (h : Steps s s') (h' : Steps s' s'')
    (heq : s''.diagnostics = s.diagnostics) :
    s'.diagnostics = s.diagnostics ∧ s''.diagnostics = s'.diagnostics := by
  -- what was reported half way is between what was reported at both ends, and these are equal
  have hmore := h'.diagnostics_prefix
  rw [heq] at hmore
  have hmid : s'.diagnostics = s.diagnostics :=
    Array.toList_inj.mp (hmore.eq_of_length
      (Nat.le_antisymm hmore.length_le h.diagnostics_prefix.length_le))
  exact ⟨hmid, heq.trans hmid.symm⟩

theorem Step.stop_eq (h : Step s s') : s'.stop = s.stop := by
  cases h with
  | advance => rfl
  | report => rfl
  | abandon going => rw [State.abandon, going]; rfl
  | log => rfl

/-- The end mark stays where it is. -/
theorem Steps.stop_eq (h : Steps s s') : s'.stop = s.stop := by
  induction h with
  | refl => rfl
  | tail _ hstep ih => rw [hstep.stop_eq, ih]

theorem Step.abandoned_eq_true (h : Step s s') (hs : s.abandoned = true) :
    s'.abandoned = true := by
  cases h with
  | advance => exact hs
  | report going => rw [hs] at going; cases going
  | abandon => exact State.abandoned_abandon s
  | log => exact hs

/-- A parse that was given up is not taken up again. -/
theorem Steps.abandoned_eq_true (h : Steps s s') (hs : s.abandoned = true) :
    s'.abandoned = true := by
  induction h with
  | refl => exact hs
  | tail _ hstep ih => exact hstep.abandoned_eq_true ih

/-- A parse has given up exactly if a diagnostic says so. -/
def TellsAbandonment (s : State) : Prop :=
  s.abandoned = true ↔ ∃ d ∈ s.diagnostics.toList, ∃ limit, d.fault = .nestingTooDeep limit

theorem Finding.ne_nestingTooDeep {fault : Fault} {t : Token} (h : Finding s fault t)
    (limit : Nat) : fault ≠ .nestingTooDeep limit := by
  cases h <;> exact Fault.noConfusion

theorem Step.tellsAbandonment (h : Step s s') (hs : TellsAbandonment s) :
    TellsAbandonment s' := by
  cases h with
  | advance => exact hs
  | log => exact hs
  | report going finding =>
    rw [TellsAbandonment] at hs ⊢
    rw [State.abandoned_report, hs]
    constructor
    · rintro ⟨d, hd, hlimit⟩
      exact ⟨d, by simp [State.report, hd], hlimit⟩
    · rintro ⟨d, hd, limit, hlimit⟩
      simp only [State.report, Array.toList_push, List.mem_append, List.mem_singleton] at hd
      rcases hd with hd | rfl
      · exact ⟨d, hd, limit, hlimit⟩
      · exact absurd hlimit (finding.ne_nestingTooDeep limit)
  | abandon going =>
    refine ⟨fun _ ↦ ⟨⟨.nestingTooDeep nestingLimit, s.current.span⟩, ?_, nestingLimit, rfl⟩,
      fun _ ↦ State.abandoned_abandon s⟩
    simp [State.abandon, going, State.report]

theorem Steps.tellsAbandonment (h : Steps s s') (hs : TellsAbandonment s) :
    TellsAbandonment s' := by
  induction h with
  | refl => exact hs
  | tail _ hstep ih => exact hstep.tellsAbandonment ih

/-- The tokens ahead are spelled as their kinds demand. -/
def State.IsSpelled (s : State) : Prop :=
  ∀ t ∈ s.pending, t.Spelled

theorem isSpelled_ofSource (source : String) : (State.ofSource source).IsSpelled :=
  fun _ ht ↦ Token.spelled_of_mem_scan ht

theorem Steps.isSpelled (h : Steps s s') (hs : s.IsSpelled) : s'.IsSpelled :=
  fun t ht ↦ hs t (h.pending_suffix.subset ht)

/-! ## Rules -/

/-- The rule takes the state through steps, wherever it starts. -/
def Moves {α : Type} (rule : Rule α) : Prop :=
  ∀ s, Steps s (rule s).2

/-- The rule takes a state in which the parse is going on through steps. -/
def MovesOn {α : Type} (rule : Rule α) : Prop :=
  ∀ s, s.abandoned = false → Steps s (rule s).2

/-- Lists repeat an item, so an item must keep what it relies on. Expressions rely on nothing, and
parameters on the parse going on. -/
theorem moves_moreItems {α : Type} {item : Rule (Option α)} {P : State → Prop}
    (hadvance : ∀ s, P s → P s.advance)
    (hitem : ∀ s, P s → Steps s (item s).2 ∧ P (item s).2) (bound : Nat) :
    ∀ s, P s → Steps s (moreItems item bound s).2 ∧ P (moreItems item bound s).2 := by
  induction bound with
  | zero => exact fun s hs ↦ ⟨.refl, hs⟩
  | succ bound ih =>
    intro s hs
    rw [moreItems]
    split_ifs with hcomma
    · obtain ⟨hsteps, hP⟩ := hitem _ (hadvance _ (hadvance s hs))
      obtain ⟨hsteps', hP'⟩ := ih _ hP
      exact ⟨(Steps.advance s).trans ((Steps.advance _).trans (hsteps.trans hsteps')), hP'⟩
    · exact ⟨.refl, hs⟩

theorem moves_items {α : Type} {item : Rule (Option α)} {P : State → Prop}
    (hadvance : ∀ s, P s → P s.advance)
    (hitem : ∀ s, P s → Steps s (item s).2 ∧ P (item s).2) :
    ∀ s, P s → Steps s (items item s).2 ∧ P (items item s).2 := by
  intro s hs
  obtain ⟨hsteps, hP⟩ := hitem s hs
  obtain ⟨hsteps', hP'⟩ := moves_moreItems hadvance hitem _ _ hP
  exact ⟨hsteps.trans hsteps', hP'⟩

theorem moves_statement (hsub : ∀ level, Moves (sub level)) : Moves (statement sub) := by
  intro s
  rw [statement]
  split_ifs with hcomment
  · exact .refl
  · exact (hsub .lowest s).trans (Steps.skipPeriods _)

theorem moves_statementsUntil (hsub : ∀ level, Moves (sub level)) (ends : Kind → Bool)
    (bound : Nat) : Moves (statementsUntil sub ends bound) := by
  induction bound with
  | zero => exact fun s ↦ .refl
  | succ bound ih =>
    intro s
    rw [statementsUntil]
    split_ifs with hend
    · exact .refl
    · exact (moves_statement hsub s).trans ((Steps.advance _).trans (ih _))

theorem moves_body (hsub : ∀ level, Moves (sub level)) : Moves (body sub) := by
  intro s
  have hread : Steps s (statementsUntil sub endsBody s.advance.pending.length s.advance).2 :=
    (Steps.advance s).trans (moves_statementsUntil hsub endsBody _ _)
  simp only [body]
  split_ifs with hopen
  · exact hread.tail (.report (by simpa using hopen.2) (.unclosedBody hopen.1))
  · exact hread

theorem moves_parameter (s : State) (hs : s.abandoned = false) :
    Steps s (parameter s).2 ∧ (parameter s).2.abandoned = false := by
  rw [parameter]
  split_ifs with hident
  · exact ⟨.refl, hs⟩
  · exact ⟨.single (.report hs (.noParameter hident)), hs⟩

theorem moves_parameters : MovesOn parameters := by
  intro s hs
  simp only [parameters]
  split
  · exact .advance s
  · obtain ⟨hnames, hgoing⟩ := moves_items (fun _ h ↦ h) moves_parameter s.advance hs
    exact (Steps.advance s).trans (hnames.trans (Steps.expect _ _))

theorem State.abandoned_expect_of_opened {kind : Kind} (h : (s.expect kind).1 = true) :
    s.abandoned = false ∧ (s.expect kind).2 = s.advance ∧ s.peek.kind = kind := by
  rw [State.expect] at h ⊢
  split_ifs at h ⊢ with ha hk
  exact ⟨Bool.not_eq_true _ ▸ ha, rfl, hk⟩

theorem moves_functionRule (hsub : ∀ level, Moves (sub level)) : MovesOn (functionRule sub) := by
  intro s hs
  rw [functionRule]
  simp only
  have hopen : Steps s (s.expect .lparen).2 := .expect s .lparen
  split_ifs with hfail
  · exact hopen
  -- behind a parenthesis that was there, the parse is still going on
  obtain ⟨-, hadvance, -⟩ := State.abandoned_expect_of_opened (by simpa using hfail)
  have hnames := moves_parameters (s.expect .lparen).2 (by rw [hadvance]; exact hs)
  split
  · next s' heq => rw [heq] at hnames; exact hopen.trans hnames
  · next names s' heq =>
    rw [heq] at hnames
    have hbrace : Steps s (s'.expect .lbrace).2 :=
      (hopen.trans hnames).trans (Steps.expect s' .lbrace)
    split_ifs
    · exact hbrace
    · exact hbrace.trans (moves_body hsub _)

theorem moves_expressionList (hsub : ∀ level, Moves (sub level)) (close : Kind) :
    Moves (expressionList sub close) := by
  intro s
  simp only [expressionList]
  split_ifs with hempty hclosed
  · exact .advance s
  all_goals
    obtain ⟨hitems, -⟩ := moves_items (P := fun _ ↦ True) (fun _ _ ↦ trivial)
      (fun s _ ↦ ⟨hsub .lowest s, trivial⟩) s.advance trivial
    have hlist : Steps s ((items (sub .lowest) s.advance).2.expect close).2 :=
      (Steps.advance s).trans (hitems.trans (Steps.expect _ _))
  · exact hlist
  · exact hlist.tail (.log _ close)

theorem moves_unaryRule (hsub : ∀ level, Moves (sub level)) : Moves (unaryRule sub) := by
  intro s
  rw [unaryRule]
  split
  · exact .refl
  · exact (Steps.advance s).trans (hsub .unary _)

theorem moves_groupRule (hsub : ∀ level, Moves (sub level)) : Moves (groupRule sub) := fun s ↦
  (Steps.advance s).trans ((hsub .lowest s.advance).trans (Steps.expect _ .rparen))

theorem moves_literal {α : Type} {target : String} {value : Option α} {leaf : Token → α → Expr}
    (hs : s.abandoned = false)
    (h : value = none → Finding s (.invalidLiteral s.current.lexeme target) s.current) :
    Steps s (literal target value leaf s).2 := by
  cases value with
  | none => exact .single (.report hs (h rfl))
  | some v => exact .refl

theorem moves_primary (hsub : ∀ level, Moves (sub level)) : MovesOn (primary sub) := by
  intro s hs
  rw [primary]
  split
  case h_1 => exact .refl
  case h_2 hkind => exact moves_literal hs (.integer hkind)
  case h_3 hkind => exact moves_literal hs (.real hkind)
  case h_4 => exact .refl
  case h_5 hkind => exact moves_literal hs (.boolean (.inl hkind))
  case h_6 hkind => exact moves_literal hs (.boolean (.inr hkind))
  case h_7 => exact moves_unaryRule hsub s
  case h_8 => exact moves_unaryRule hsub s
  case h_9 => exact moves_groupRule hsub s
  case h_10 => exact moves_functionRule hsub s hs
  case h_11 => exact moves_expressionList hsub .rbracket s
  case h_12 => exact .single (.report hs .noRule)

theorem moves_continuation (hsub : ∀ level, Moves (sub level)) {left : Expr} {kind : Kind}
    {rule : Rule (Option Expr)} (h : continuation? sub left kind = some rule) : Moves rule := by
  intro s
  unfold continuation? at h
  split at h
  · obtain rfl := Option.some.inj h
    exact moves_expressionList hsub .rparen s
  · obtain rfl := Option.some.inj h
    exact (Steps.advance s).trans ((hsub .lowest _).trans (Steps.expect _ .rbracket))
  · obtain ⟨operator, -, rfl⟩ := Option.map_eq_some_iff.mp h
    exact (Steps.advance s).trans (hsub _ _)

/-- The recursion of the rules is closed here: both of its branches descend in `room`. -/
theorem moves_expression_and_chain (room : Nat) :
    (∀ level, Moves (expression room level)) ∧
      ∀ level left, Moves (chain room level left) := by
  induction room with
  | zero =>
    refine ⟨fun level s ↦ .abandon s, fun level left s ↦ ?_⟩
    simp only [chain]
    split_ifs
    · exact .abandon s
    · exact .refl
  | succ room ih =>
    obtain ⟨hexpression, hchain⟩ := ih
    constructor
    · intro level s
      rw [expression]
      split_ifs with hs
      · exact .refl
      have hprimary := moves_primary hexpression s (Bool.not_eq_true _ ▸ hs)
      split
      · next s' heq => rw [heq] at hprimary; exact hprimary
      · next left s' heq => rw [heq] at hprimary; exact hprimary.trans (hchain level left s')
    · intro level left s
      rw [chain]
      split_ifs
      · exact .refl
      split
      · exact .advance s
      next rule hrule =>
      have hrule := (Steps.advance s).trans (moves_continuation hexpression hrule s.advance)
      split
      · next s' heq => rw [heq] at hrule; exact hrule
      · next left' s' heq => rw [heq] at hrule; exact hrule.trans (hchain level left' s')

theorem moves_expression (room : Nat) (level : Precedence) : Moves (expression room level) :=
  (moves_expression_and_chain room).1 level

theorem moves_chain (room : Nat) (level : Precedence) (left : Expr) :
    Moves (chain room level left) :=
  (moves_expression_and_chain room).2 level left

theorem moves_program : Moves program :=
  fun s ↦ moves_statementsUntil (moves_expression nestingLimit) _ _ s

/-! ## Rounds

Each round of the loop for statements leaves a token behind, so that rounds beyond the number of
tokens ahead change nothing. -/

theorem statementsUntil_of_pending_eq_nil {ends : Kind → Bool} (hends : ends .eof = true)
    (hs : s.pending = []) (bound : Nat) : statementsUntil sub ends bound s = ([], s) := by
  have hcurrent : s.current.kind = .eof := by rw [State.current, hs]; rfl
  cases bound with
  | zero => rfl
  | succ bound => simp [statementsUntil, hcurrent, hends]

theorem statementsUntil_congr_bound (hsub : ∀ level, Moves (sub level)) {ends : Kind → Bool}
    (hends : ends .eof = true) {n m : Nat} (hn : s.pending.length ≤ n)
    (hm : s.pending.length ≤ m) :
    statementsUntil sub ends n s = statementsUntil sub ends m s := by
  induction n generalizing m s with
  | zero =>
    have hs := List.eq_nil_of_length_eq_zero (Nat.le_zero.mp hn)
    rw [statementsUntil_of_pending_eq_nil hends hs, statementsUntil_of_pending_eq_nil hends hs]
  | succ n ih =>
    cases m with
    | zero =>
      have hs := List.eq_nil_of_length_eq_zero (Nat.le_zero.mp hm)
      rw [statementsUntil_of_pending_eq_nil hends hs, statementsUntil_of_pending_eq_nil hends hs]
    | succ m =>
      have hle := (moves_statement hsub s).pending_suffix.length_le
      have hnext : (statement sub s).2.advance.pending.length
          = (statement sub s).2.pending.length - 1 := List.length_tail
      rw [statementsUntil, statementsUntil]
      simp only [ih (s := (statement sub s).2.advance) (m := m) (by omega) (by omega)]

/-! ## Whole sources -/

theorem tellsAbandonment_ofSource (source : String) : TellsAbandonment (.ofSource source) := by
  simp [TellsAbandonment, State.ofSource]

/-- The parse of a source has given up exactly if a diagnostic says so. -/
theorem tellsAbandonment_program (source : String) :
    TellsAbandonment (program (.ofSource source)).2 :=
  (moves_program _).tellsAbandonment (tellsAbandonment_ofSource source)

end DrawScript.Parser
