import DrawScript.Proofs.Parser.Steps
import DrawScript.Proofs.Token.Places
import DrawScript.Document

/-!
# Diagnostics in source order

A diagnostic points at the current token or at the one behind it, so the order of diagnostics is not
that of the tokens at hand: once the token behind the current one has been reported, a report of the
current one would step back. It never comes to that. Every rule is entered right behind an advance,
when nothing beyond the current token has been reported (`ReportsUpTo s s.current`), and it is left
with nothing reported beyond the token behind the current one (`ReportsUpTo s s.peek`).

The one report of the current token that is not made upon entering a rule is made by the loop for
expressions when it has no room for another round. What it continues was then built without room for
parts, so either a part was missing and the parse had been given up before, or there is no part and
nothing was reported that the loop could step behind (`reportsUpTo_primary_of_givesUp`).
-/

namespace DrawScript.Parser

open Token (Kind)

variable {s s' : State} {t t' : Token} {sub : ExprRule} {room : Nat} {level : Precedence}

/-! ## The tokens ahead -/

namespace State

/-- The tokens ahead, with the end mark. -/
def tokens (s : State) : List Token :=
  s.pending ++ [.eof s.stop]

theorem current_mem_tokens (s : State) : s.current ∈ s.tokens := by
  obtain ⟨_ | ⟨t, ts⟩, stop, abandoned, diagnostics, log⟩ := s <;> simp [tokens, current]

theorem peek_mem_tokens (s : State) : s.peek ∈ s.tokens := by
  obtain ⟨_ | ⟨t, _ | ⟨u, ts⟩⟩, stop, abandoned, diagnostics, log⟩ := s <;> simp [tokens, peek]

/-- The tokens ahead begin one behind the other. -/
def IsOrdered (s : State) : Prop :=
  s.tokens.Pairwise fun t u ↦ t.span.start ≤ u.span.start

theorem IsOrdered.current_le_peek (hs : s.IsOrdered) :
    s.current.span.start ≤ s.peek.span.start := by
  obtain ⟨_ | ⟨t, _ | ⟨u, ts⟩⟩, stop, abandoned, diagnostics, log⟩ := s
  · exact Nat.le_refl _
  · exact (List.pairwise_cons.mp hs).1 _ List.mem_cons_self
  · exact (List.pairwise_cons.mp hs).1 _ List.mem_cons_self

end State

/-- Tokens have been left behind only, and the end mark stands where it was. -/
def Onward (s s' : State) : Prop :=
  s'.pending <:+ s.pending ∧ s'.stop = s.stop

theorem Onward.refl (s : State) : Onward s s :=
  ⟨List.suffix_refl _, rfl⟩

theorem Onward.tokens_suffix (h : Onward s s') : s'.tokens <:+ s.tokens := by
  obtain ⟨⟨ts, hpending⟩, hstop⟩ := h
  refine ⟨ts, ?_⟩
  rw [State.tokens, State.tokens, ← List.append_assoc, hpending, hstop]

theorem Steps.onward (h : Steps s s') : Onward s s' :=
  ⟨h.pending_suffix, h.stop_eq⟩

theorem Steps.tokens_suffix (h : Steps s s') : s'.tokens <:+ s.tokens :=
  h.onward.tokens_suffix

theorem Steps.isOrdered (h : Steps s s') (hs : s.IsOrdered) : s'.IsOrdered :=
  List.Pairwise.sublist h.tokens_suffix.sublist hs

theorem tokens_ofSource (source : String) :
    (State.ofSource source).tokens = Token.tokenize source := rfl

theorem isOrdered_ofSource (source : String) : (State.ofSource source).IsOrdered := by
  rw [State.IsOrdered, tokens_ofSource, Token.tokenize, List.pairwise_append]
  refine ⟨?_, List.pairwise_singleton .., fun t ht u hu ↦ ?_⟩
  · refine (Token.pairwise_scan 0 0 source.toList).imp_of_mem fun {t u} ht _ hle ↦ ?_
    exact (Token.span_of_mem_scan ht).2.1.trans hle
  · obtain rfl := List.mem_singleton.mp hu
    obtain ⟨-, hspan, hstop⟩ := Token.span_of_mem_scan ht
    rw [Nat.zero_add, ← Token.utf8ByteSize_eq_byteLength] at hstop
    exact hspan.trans hstop

/-! ## Diagnostics point at tokens -/

/-- The tokens ahead are some of `ts`, and every diagnostic points at one of `ts`. -/
def State.PointsInto (ts : List Token) (s : State) : Prop :=
  s.tokens ⊆ ts ∧ ∀ d ∈ s.diagnostics.toList, ∃ t ∈ ts, d.span = t.span

theorem State.PointsInto.report {ts : List Token} (hs : s.PointsInto ts) (fault : Fault)
    (ht : t ∈ s.tokens) : (s.report fault t).PointsInto ts := by
  refine ⟨hs.1, fun d hd ↦ ?_⟩
  simp only [State.report, Array.toList_push, List.mem_append, List.mem_singleton] at hd
  rcases hd with hd | rfl
  · exact hs.2 d hd
  · exact ⟨t, hs.1 ht, rfl⟩

theorem Finding.mem_tokens {fault : Fault} (h : Finding s fault t) : t ∈ s.tokens := by
  cases h with
  | unexpected => exact s.peek_mem_tokens
  | _ => exact s.current_mem_tokens

theorem Step.pointsInto {ts : List Token} (h : Step s s') (hs : s.PointsInto ts) :
    s'.PointsInto ts := by
  cases h with
  | advance =>
    exact ⟨fun t ht ↦ hs.1 ((Steps.advance s).tokens_suffix.subset ht), hs.2⟩
  | report going finding => exact hs.report _ finding.mem_tokens
  | abandon going =>
    rw [State.abandon, if_neg (by rw [going]; exact Bool.false_ne_true)]
    exact hs.report _ s.current_mem_tokens
  | log => exact hs

theorem Steps.pointsInto {ts : List Token} (h : Steps s s') (hs : s.PointsInto ts) :
    s'.PointsInto ts := by
  induction h with
  | refl => exact hs
  | tail _ hstep ih => exact hstep.pointsInto ih

/-! ## How far reports have come -/

/-- Diagnostics are in source order, and as long as the parse goes on none of them points beyond the
token `t`. -/
structure ReportsUpTo (s : State) (t : Token) : Prop where
  ordered : s.IsOrdered
  sorted : s.diagnostics.toList.Pairwise fun d d' ↦ d.span.start ≤ d'.span.start
  within : s.abandoned = false → ∀ d ∈ s.diagnostics.toList, d.span.start ≤ t.span.start

namespace ReportsUpTo

theorem peek (h : ReportsUpTo s s.current) : ReportsUpTo s s.peek :=
  ⟨h.ordered, h.sorted, fun hs d hd ↦ (h.within hs d hd).trans h.ordered.current_le_peek⟩

theorem advance (h : ReportsUpTo s s.peek) : ReportsUpTo s.advance s.advance.current :=
  ⟨(Steps.advance s).isOrdered h.ordered, h.sorted, h.within⟩

theorem of_abandoned (h : ReportsUpTo s t) (hs : s.abandoned = true) (t' : Token) :
    ReportsUpTo s t' :=
  ⟨h.ordered, h.sorted, fun hs' ↦ by rw [hs] at hs'; cases hs'⟩

theorem report (h : ReportsUpTo s t) (hs : s.abandoned = false) (fault : Fault) :
    ReportsUpTo (s.report fault t) t := by
  refine ⟨h.ordered, ?_, fun _ d hd ↦ ?_⟩
  · rw [State.report, Array.toList_push, List.pairwise_append]
    refine ⟨h.sorted, List.pairwise_singleton .., fun d hd d' hd' ↦ ?_⟩
    obtain rfl := List.mem_singleton.mp hd'
    exact h.within hs d hd
  · simp only [State.report, Array.toList_push, List.mem_append, List.mem_singleton] at hd
    rcases hd with hd | rfl
    · exact h.within hs d hd
    · exact Nat.le_refl _

theorem abandon (h : ReportsUpTo s s.current) (t : Token) : ReportsUpTo s.abandon t := by
  cases hs : s.abandoned with
  | true => rw [State.abandon, if_pos hs]; exact h.of_abandoned hs t
  | false =>
    have hreport := h.report hs (.nestingTooDeep nestingLimit)
    rw [State.abandon, if_neg (by rw [hs]; exact Bool.false_ne_true)]
    exact ⟨hreport.ordered, hreport.sorted, fun hs' ↦ by cases hs'⟩

theorem expect (h : ReportsUpTo s s.peek) (kind : Kind) :
    ReportsUpTo (s.expect kind).2 (s.expect kind).2.peek := by
  rw [State.expect]
  split_ifs with hs hkind
  · exact h
  · exact h.advance.peek
  · exact h.report (Bool.not_eq_true _ ▸ hs) _

theorem skipPeriods (h : ReportsUpTo s s.peek) : ReportsUpTo s.skipPeriods s.skipPeriods.peek := by
  have hdrop : ∀ ts, ReportsUpTo (s.facing ts) (s.facing ts).peek →
      ReportsUpTo (s.facing (State.skipPeriods.drop ts))
        (s.facing (State.skipPeriods.drop ts)).peek := by
    intro ts hts
    fun_induction State.skipPeriods.drop ts with
    | case1 a b rest hb ih => exact ih hts.advance.peek
    | case2 a b rest hb => exact hts
    | case3 ts hshort => exact hts
  exact hdrop s.pending h

end ReportsUpTo

/-! ## Lists and statements -/

/-- Entered with nothing reported beyond the current token, the rule is left with nothing reported
beyond the token behind the current one. -/
def KeepsOrder {α : Type} (rule : Rule α) : Prop :=
  ∀ s, ReportsUpTo s s.current → ReportsUpTo (rule s).2 (rule s).2.peek

section Lists

variable {α : Type} {item : Rule (Option α)} {P : State → Prop}

theorem reportsUpTo_moreItems (hadvance : ∀ s, P s → P s.advance)
    (hitem : ∀ s, P s → ReportsUpTo s s.current →
      ReportsUpTo (item s).2 (item s).2.peek ∧ P (item s).2) (bound : Nat) :
    ∀ s, P s → ReportsUpTo s s.peek →
      ReportsUpTo (moreItems item bound s).2 (moreItems item bound s).2.peek := by
  induction bound with
  | zero => exact fun s _ h ↦ h
  | succ bound ih =>
    intro s hs h
    rw [moreItems]
    split_ifs with hcomma
    · obtain ⟨hread, hP⟩ := hitem _ (hadvance _ (hadvance s hs)) h.advance.peek.advance
      exact ih _ hP hread
    · exact h

theorem reportsUpTo_items (hadvance : ∀ s, P s → P s.advance)
    (hitem : ∀ s, P s → ReportsUpTo s s.current →
      ReportsUpTo (item s).2 (item s).2.peek ∧ P (item s).2) (hs : P s)
    (h : ReportsUpTo s s.current) :
    ReportsUpTo (items item s).2 (items item s).2.peek := by
  obtain ⟨hread, hP⟩ := hitem s hs h
  exact reportsUpTo_moreItems hadvance hitem _ _ hP hread

end Lists

theorem keepsOrder_expressions {rule : Rule (Option Expr)} (hrule : KeepsOrder rule) :
    KeepsOrder (items rule) := fun _ h ↦
  reportsUpTo_items (P := fun _ ↦ True) (fun _ _ ↦ trivial) (fun s _ h ↦ ⟨hrule s h, trivial⟩)
    trivial h

theorem keepsOrder_statement (hsub : ∀ level, KeepsOrder (sub level)) :
    KeepsOrder (statement sub) := by
  intro s h
  rw [statement]
  split_ifs with hcomment
  · exact h.peek
  · exact (hsub .lowest s h).skipPeriods

/-- Statements end right behind an advance. -/
theorem reportsUpTo_statementsUntil (hsub : ∀ level, KeepsOrder (sub level)) (ends : Kind → Bool)
    (bound : Nat) : ∀ s, ReportsUpTo s s.current →
      ReportsUpTo (statementsUntil sub ends bound s).2
        (statementsUntil sub ends bound s).2.current := by
  induction bound with
  | zero => exact fun s h ↦ h
  | succ bound ih =>
    intro s h
    rw [statementsUntil]
    split_ifs with hend
    · exact h
    · exact ih _ (keepsOrder_statement hsub s h).advance

theorem reportsUpTo_body (hsub : ∀ level, KeepsOrder (sub level)) (h : ReportsUpTo s s.current) :
    ReportsUpTo (body sub s).2 (body sub s).2.current := by
  have hread := reportsUpTo_statementsUntil hsub endsBody s.advance.pending.length s.advance
    h.peek.advance
  simp only [body]
  split_ifs with hopen
  · exact hread.report (by simpa using hopen.2) _
  · exact hread

/-! ## Functions -/

theorem reportsUpTo_parameter (hs : s.abandoned = false) (h : ReportsUpTo s s.current) :
    ReportsUpTo (parameter s).2 (parameter s).2.peek ∧ (parameter s).2.abandoned = false := by
  rw [parameter]
  split_ifs with hident
  · exact ⟨h.peek, hs⟩
  · exact ⟨(h.report hs _).peek, hs⟩

theorem reportsUpTo_parameters (hs : s.abandoned = false) (h : ReportsUpTo s s.current) :
    ReportsUpTo (parameters s).2 (parameters s).2.peek := by
  have hnames := reportsUpTo_items (P := fun s ↦ s.abandoned = false) (fun _ hs ↦ hs)
    (fun _ ↦ reportsUpTo_parameter) (s := s.advance) hs h.peek.advance
  simp only [parameters]
  split
  · exact h.peek.advance.peek
  · exact hnames.expect .rparen

/-- A function that is built ends with its body, right behind an advance. -/
theorem reportsUpTo_functionRule (hsub : ∀ level, KeepsOrder (sub level))
    (hs : s.abandoned = false) (h : ReportsUpTo s s.current) :
    ReportsUpTo (functionRule sub s).2 (functionRule sub s).2.peek ∧
      ∀ e ∈ (functionRule sub s).1,
        ReportsUpTo (functionRule sub s).2 (functionRule sub s).2.current := by
  have hopen := h.peek.expect .lparen
  simp only [functionRule]
  split_ifs with hfail
  · exact ⟨hopen, fun e he ↦ absurd he (Option.not_mem_none e)⟩
  obtain ⟨-, hadvance, -⟩ := State.abandoned_expect_of_opened (s := s) (by simpa using hfail)
  have hnames := reportsUpTo_parameters (s := (s.expect .lparen).2) (by rw [hadvance]; exact hs)
    (by rw [hadvance]; exact h.peek.advance)
  split
  · next s₁ heq =>
    rw [heq] at hnames
    exact ⟨hnames, fun e he ↦ absurd he (Option.not_mem_none e)⟩
  next names s₁ heq =>
  rw [heq] at hnames
  split_ifs with hfail'
  · exact ⟨hnames.expect .lbrace, fun e he ↦ absurd he (Option.not_mem_none e)⟩
  obtain ⟨-, hbraced, -⟩ := State.abandoned_expect_of_opened (s := s₁) (by simpa using hfail')
  have hbody := reportsUpTo_body hsub (s := (s₁.expect .lbrace).2)
    (by rw [hbraced]; exact hnames.advance)
  exact ⟨hbody.peek, fun _ _ ↦ hbody⟩

/-! ## Constructs -/

theorem keepsOrder_expressionList (hsub : ∀ level, KeepsOrder (sub level)) (close : Kind) :
    KeepsOrder (expressionList sub close) := by
  intro s h
  have hlist := (keepsOrder_expressions (hsub .lowest) s.advance h.peek.advance).expect close
  simp only [expressionList]
  split_ifs with hempty hclosed
  · exact h.peek.advance.peek
  · exact hlist
  · exact ⟨hlist.ordered, hlist.sorted, hlist.within⟩

theorem keepsOrder_unaryRule (hsub : ∀ level, KeepsOrder (sub level)) :
    KeepsOrder (unaryRule sub) := by
  intro s h
  rw [unaryRule]
  split
  · exact h.peek
  · exact hsub .unary _ h.peek.advance

theorem reportsUpTo_literal {α : Type} {target : String} {value : Option α}
    {leaf : Token → α → Expr} (hs : s.abandoned = false) (h : ReportsUpTo s s.current) :
    ReportsUpTo (literal target value leaf s).2 (literal target value leaf s).2.current := by
  cases value with
  | none => exact h.report hs _
  | some v => exact h

theorem reportsUpTo_primary (hsub : ∀ level, KeepsOrder (sub level)) (hs : s.abandoned = false)
    (h : ReportsUpTo s s.current) : ReportsUpTo (primary sub s).2 (primary sub s).2.peek := by
  rw [primary]
  split
  case h_1 => exact h.peek
  case h_2 => exact (reportsUpTo_literal hs h).peek
  case h_3 => exact (reportsUpTo_literal hs h).peek
  case h_4 => exact h.peek
  case h_5 => exact (reportsUpTo_literal hs h).peek
  case h_6 => exact (reportsUpTo_literal hs h).peek
  case h_7 => exact keepsOrder_unaryRule hsub s h
  case h_8 => exact keepsOrder_unaryRule hsub s h
  case h_9 => exact (hsub .lowest _ h.peek.advance).expect .rparen
  case h_10 => exact (reportsUpTo_functionRule hsub hs h).1
  case h_11 => exact keepsOrder_expressionList hsub .rbracket s h
  case h_12 => exact (h.report hs _).peek

theorem keepsOrder_continuation (hsub : ∀ level, KeepsOrder (sub level)) {left : Expr}
    {kind : Kind} {rule : Rule (Option Expr)} (hrule : continuation? sub left kind = some rule) :
    KeepsOrder rule := by
  intro s h
  unfold continuation? at hrule
  split at hrule
  · obtain rfl := Option.some.inj hrule
    exact keepsOrder_expressionList hsub .rparen s h
  · obtain rfl := Option.some.inj hrule
    exact (hsub .lowest _ h.peek.advance).expect .rbracket
  · obtain ⟨operator, -, rfl⟩ := Option.map_eq_some_iff.mp hrule
    exact hsub _ _ h.peek.advance

/-! ## Constructs without room for parts -/

/-- The rule gives up wherever it is applied. -/
def GivesUp (sub : ExprRule) : Prop :=
  ∀ level s, (sub level s).2.abandoned = true

theorem givesUp_expression_zero : GivesUp (expression 0) :=
  fun _ s ↦ State.abandoned_abandon s

/-- Without room for its parts, a list is empty or it has been given up. -/
theorem reportsUpTo_expressionList_of_givesUp (hmoves : ∀ level, Moves (sub level))
    (hsub : ∀ level, KeepsOrder (sub level)) (hgives : GivesUp sub) (close : Kind)
    (h : ReportsUpTo s s.current) :
    ReportsUpTo (expressionList sub close s).2 (expressionList sub close s).2.current := by
  by_cases hempty : s.advance.current.kind = close
  · simp only [expressionList, if_pos hempty]
    exact h.peek.advance
  refine (keepsOrder_expressionList hsub close s h).of_abandoned ?_ _
  have hitems : (items (sub .lowest) s.advance).2.abandoned = true :=
    (moves_moreItems (P := fun _ ↦ True) (fun _ _ ↦ trivial)
      (fun s _ ↦ ⟨hmoves .lowest s, trivial⟩) _ _ trivial).1.abandoned_eq_true
      (hgives .lowest s.advance)
  have hexpect := (Steps.expect (items (sub .lowest) s.advance).2 close).abandoned_eq_true hitems
  simp only [expressionList, if_neg hempty]
  split_ifs <;> exact hexpect

theorem reportsUpTo_primary_of_givesUp (hmoves : ∀ level, Moves (sub level))
    (hsub : ∀ level, KeepsOrder (sub level)) (hgives : GivesUp sub) (hs : s.abandoned = false)
    (h : ReportsUpTo s s.current) :
    ∀ e ∈ (primary sub s).1, ReportsUpTo (primary sub s).2 (primary sub s).2.current := by
  have hprimary := reportsUpTo_primary hsub hs h
  have hunary : ReportsUpTo (unaryRule sub s).2 (unaryRule sub s).2.current := by
    have hread := keepsOrder_unaryRule hsub s h
    rw [unaryRule] at hread ⊢
    split
    · exact h
    · next heq =>
      rw [heq] at hread
      exact hread.of_abandoned (hgives .unary _) _
  rw [primary] at hprimary ⊢
  split
  case h_1 => exact fun _ _ ↦ h
  case h_2 => exact fun _ _ ↦ reportsUpTo_literal hs h
  case h_3 => exact fun _ _ ↦ reportsUpTo_literal hs h
  case h_4 => exact fun _ _ ↦ h
  case h_5 => exact fun _ _ ↦ reportsUpTo_literal hs h
  case h_6 => exact fun _ _ ↦ reportsUpTo_literal hs h
  case h_7 => exact fun _ _ ↦ hunary
  case h_8 => exact fun _ _ ↦ hunary
  case h_9 hkind =>
    rw [hkind] at hprimary
    have hgroup := (Steps.expect _ .rparen).abandoned_eq_true (hgives .lowest s.advance)
    exact fun _ _ ↦ hprimary.of_abandoned hgroup _
  case h_10 => exact (reportsUpTo_functionRule hsub hs h).2
  case h_11 =>
    exact fun _ _ ↦ reportsUpTo_expressionList_of_givesUp hmoves hsub hgives .rbracket h
  case h_12 => exact fun e he ↦ absurd he (Option.not_mem_none e)

theorem reportsUpTo_continuation_of_givesUp (hmoves : ∀ level, Moves (sub level))
    (hsub : ∀ level, KeepsOrder (sub level)) (hgives : GivesUp sub) {left : Expr} {kind : Kind}
    {rule : Rule (Option Expr)} (hrule : continuation? sub left kind = some rule)
    (h : ReportsUpTo s s.current) : ReportsUpTo (rule s).2 (rule s).2.current := by
  have hread := keepsOrder_continuation hsub hrule s h
  unfold continuation? at hrule
  split at hrule
  · obtain rfl := Option.some.inj hrule
    exact reportsUpTo_expressionList_of_givesUp hmoves hsub hgives .rparen h
  · obtain rfl := Option.some.inj hrule
    exact hread.of_abandoned
      ((Steps.expect _ .rbracket).abandoned_eq_true (hgives .lowest s.advance)) _
  · obtain ⟨operator, -, rfl⟩ := Option.map_eq_some_iff.mp hrule
    exact hread.of_abandoned (hgives _ s.advance) _

/-! ## Expressions -/

/-- The loop reports the current token when room is out, so it must then have been entered with
nothing reported beyond that token. -/
theorem keepsOrder_expression_and_chain (room : Nat) :
    (∀ level, KeepsOrder (expression room level)) ∧
      ∀ level left s, ReportsUpTo s s.peek → (room = 0 → ReportsUpTo s s.current) →
        ReportsUpTo (chain room level left s).2 (chain room level left s).2.peek := by
  induction room with
  | zero =>
    refine ⟨fun level s h ↦ h.abandon _, fun level left s hpeek hcurrent ↦ ?_⟩
    simp only [chain]
    split_ifs
    · exact (hcurrent rfl).abandon _
    · exact hpeek
  | succ room ih =>
    obtain ⟨hexpression, hchain⟩ := ih
    -- what is built with no room left is built from a rule that gives up
    have hgives : room = 0 → GivesUp (expression room) := fun hroom ↦ by
      rw [hroom]
      exact givesUp_expression_zero
    constructor
    · intro level s h
      rw [expression]
      split_ifs with hs
      · exact h.peek
      have hgoing : s.abandoned = false := Bool.not_eq_true _ ▸ hs
      have hprimary := reportsUpTo_primary hexpression hgoing h
      have hempty := fun hroom ↦ reportsUpTo_primary_of_givesUp (moves_expression room) hexpression
        (hgives hroom) hgoing h
      split
      · next s' heq => rw [heq] at hprimary; exact hprimary
      · next left s' heq =>
        rw [heq] at hprimary hempty
        exact hchain level left s' hprimary fun hroom ↦ hempty hroom left rfl
    · intro level left s hpeek _
      rw [chain]
      split_ifs
      · exact hpeek
      split
      · exact hpeek.advance.peek
      next rule hrule =>
      have hround := keepsOrder_continuation hexpression hrule s.advance hpeek.advance
      have hempty := fun hroom ↦ reportsUpTo_continuation_of_givesUp (moves_expression room)
        hexpression (hgives hroom) hrule hpeek.advance
      split
      · next s' heq => rw [heq] at hround; exact hround
      · next left' s' heq =>
        rw [heq] at hround hempty
        exact hchain level left' s' hround hempty

theorem keepsOrder_expression (room : Nat) (level : Precedence) :
    KeepsOrder (expression room level) :=
  (keepsOrder_expression_and_chain room).1 level

/-! ## Documents -/

theorem reportsUpTo_ofSource (source : String) :
    ReportsUpTo (.ofSource source) (State.ofSource source).current :=
  ⟨isOrdered_ofSource source, .nil, fun _ _ hd ↦ absurd hd List.not_mem_nil⟩

theorem pointsInto_ofSource (source : String) :
    (State.ofSource source).PointsInto (Token.tokenize source) :=
  ⟨List.Subset.refl _, fun _ hd ↦ absurd hd List.not_mem_nil⟩

/-- **Diagnostics come in source order and point at tokens.** Each covers what some token of the
source covers, the end mark included, and none begins before the one that was recorded before it. -/
theorem document_diagnostics_in_order (source : String) :
    (∀ d ∈ (Document.ofSource source).diagnostics,
      ∃ t ∈ Token.tokenize source, d.span = t.span) ∧
    (Document.ofSource source).diagnostics.Pairwise fun d d' ↦ d.span.start ≤ d'.span.start :=
  ⟨((moves_program _).pointsInto (pointsInto_ofSource source)).2,
    (reportsUpTo_statementsUntil (keepsOrder_expression nestingLimit) (· == .eof) _ _
      (reportsUpTo_ofSource source)).sorted⟩

/-- A list that is not closed is reported at the sign behind it, and the sign then continues it. -/
theorem document_diagnostics_in_order_unclosed :
    (⟨.unexpectedToken .rbracket .plus, ⟨2, 3⟩⟩ : Diagnostic)
        ∈ (Document.ofSource "[)+(1").diagnostics ∧
      (∃ t ∈ Token.tokenize "[)+(1", (⟨2, 3⟩ : Span) = t.span) ∧
      (Document.ofSource "[)+(1").diagnostics.Pairwise
        fun d d' ↦ d.span.start ≤ d'.span.start := by
  have hmem : (⟨.unexpectedToken .rbracket .plus, ⟨2, 3⟩⟩ : Diagnostic)
      ∈ (Document.ofSource "[)+(1").diagnostics := by decide +kernel
  obtain ⟨hpoints, hsorted⟩ := document_diagnostics_in_order "[)+(1"
  exact ⟨hmem, hpoints _ hmem, hsorted⟩

end DrawScript.Parser
