import DrawScript.Proofs.Parser.Observed
import DrawScript.Proofs.Parser.Order
import DrawScript.Proofs.Token.Partition

/-!
# No token begins two expressions

Behind the last token stands the end mark, and a rule that fails does not advance. That every parse
comes to an end is therefore not a matter of single rules. It is a matter of who has advanced when
an expression begins: the current token has begun one before (`Used`), or it has not (`Fresh`).

An expression begins at a fresh token and uses it. Only an advance from a used token makes a fresh
one, and only if it is a token that is left behind and not the end mark. Each rule knows that from
the kind of the token that brought it in, and each loop from the condition under which it goes on.
The loop over statements is the exception. It advances whatever the current token is, and may come
to the end mark when that has begun an expression before; but there it ends (`Poised`).

What is said of the rules for single constructs is said as in `DrawScript.Proofs.Parser.Recursion`
for any rule for expressions of which it holds already, and the recursion is closed at the end.
-/

namespace DrawScript.Parser

open Token (Kind)

variable {α β : Type} {ts : List Token} {d fuel : Nat} {m : Observed} {s s' : State}
  {sub : ObservedExprRule}

/-! ## States and the tokens ahead -/

namespace State

theorem tokens_eq_cons (s : State) : s.tokens = s.current :: s.tokens.tail := by
  obtain ⟨_ | ⟨t, rest⟩, stop, abandoned, diagnostics, log⟩ := s <;> rfl

theorem tokens_advance (h : s.pending ≠ []) : s.advance.tokens = s.tokens.tail := by
  rw [tokens, tokens, List.tail_append_of_ne_nil h]
  rfl

/-- Only the end mark can be at hand if no token is left. -/
theorem pending_ne_nil (h : s.current.kind ≠ .eof) : s.pending ≠ [] := by
  intro hnil
  rw [current, hnil] at h
  exact h rfl

end State

theorem tail_suffix_tail {l l' : List α} (h : l' <:+ l) : l'.tail <:+ l.tail := by
  obtain ⟨_ | ⟨x, before⟩, rfl⟩ := h
  · exact List.suffix_refl _
  · exact (List.tail_suffix l').trans (List.suffix_append _ _)

/-! ## The invariant -/

/-- The first token ahead is left behind in the round, if not more. -/
def Round.Consumes (r : Round) : Prop :=
  ∃ t rest, r.before = t :: rest ∧ r.after <:+ rest

/-- The counter stands at `d`, all rounds have consumed tokens and no bound has been reached. -/
structure Tidy (d : Nat) (m : Observed) : Prop where
  counter_eq : m.counter = d
  consumes : ∀ r ∈ m.rounds, r.Consumes
  unbroken : m.brokenOff = false

theorem Tidy.endRound (h : Tidy d m) (hpending : s.pending ≠ [])
    (hconsumed : m.state.pending <:+ s.pending.tail) : Tidy d (m.endRound s) where
  counter_eq := h.counter_eq
  consumes r hr := by
    rcases List.mem_cons.mp hr with rfl | hr
    · exact ⟨s.pending.head hpending, s.pending.tail, (List.cons_head_tail hpending).symm,
        hconsumed⟩
    · exact h.consumes r hr
  unbroken := h.unbroken

/-- Expressions have begun at different tokens of `ts`, all of them before the current one. -/
def Fresh (ts : List Token) (d : Nat) (m : Observed) : Prop :=
  Tidy d m ∧ (m.starts ++ m.state.tokens).Sublist ts

/-- Expressions have begun at different tokens of `ts`, none of them behind the current one. -/
def Used (ts : List Token) (d : Nat) (m : Observed) : Prop :=
  Tidy d m ∧ (m.starts ++ m.state.tokens.tail).Sublist ts

/-- No expression has begun behind the current token, which can be left behind. -/
def Leavable (ts : List Token) (d : Nat) (m : Observed) : Prop :=
  Used ts d m ∧ m.state.pending ≠ []

/-- An expression can begin, unless the end mark is at hand. -/
def Poised (ts : List Token) (d : Nat) (m : Observed) : Prop :=
  Used ts d m ∧ (m.state.pending ≠ [] → Fresh ts d m)

theorem Fresh.used (h : Fresh ts d m) : Used ts d m :=
  ⟨h.1, ((List.tail_sublist _).append_left _).trans h.2⟩

theorem Fresh.poised (h : Fresh ts d m) : Poised ts d m :=
  ⟨h.used, fun _ ↦ h⟩

theorem Used.onward (h : Used ts d m) (hs : Onward m.state s) : Used ts d { m with state := s } :=
  ⟨⟨h.1.counter_eq, h.1.consumes, h.1.unbroken⟩,
    ((tail_suffix_tail hs.tokens_suffix).sublist.append_left _).trans h.2⟩

theorem Leavable.fresh (h : Leavable ts d m) : Fresh ts d { m with state := m.state.advance } := by
  refine ⟨⟨h.1.1.counter_eq, h.1.1.consumes, h.1.1.unbroken⟩, ?_⟩
  rw [State.tokens_advance h.2]
  exact h.1.2

/-- Having advanced, the parse is at a fresh token or at the end. -/
theorem Used.poised (h : Used ts d m) : Poised ts d { m with state := m.state.advance } := by
  by_cases hpending : m.state.pending = []
  · refine ⟨h.onward (Steps.advance _).onward, fun hne ↦ absurd ?_ hne⟩
    rw [State.pending_advance, hpending]
    rfl
  · exact Leavable.fresh ⟨h, hpending⟩ |>.poised

theorem Used.endRound (h : Used ts d m) (hpending : s.pending ≠ [])
    (hconsumed : m.state.pending <:+ s.pending.tail) : Used ts d (m.endRound s) :=
  ⟨h.1.endRound hpending hconsumed, h.2⟩

theorem Poised.endRound (h : Poised ts d m) (hpending : s.pending ≠ [])
    (hconsumed : m.state.pending <:+ s.pending.tail) : Poised ts d (m.endRound s) :=
  ⟨h.1.endRound hpending hconsumed, fun hne ↦
    ⟨h.1.1.endRound hpending hconsumed, (h.2 hne).2⟩⟩

/-! ## What rules ensure -/

/-- Started where `P` holds, the rule ends where `Q` holds of its value, and tokens have been left
behind only. -/
def Ensures (P : Observed → Prop) (rule : ObservedRule α) (Q : α → Observed → Prop) : Prop :=
  ∀ m, P m → Q (rule m).1 (rule m).2 ∧ (rule m).2.state.pending <:+ m.state.pending

namespace Ensures

variable {P P' : Observed → Prop} {rule : ObservedRule α} {Q Q' : α → Observed → Prop}
  {R : β → Observed → Prop}

theorem pure {x : α} (h : ∀ m, P m → Q x m) : Ensures P (Pure.pure x) Q :=
  fun m hm ↦ ⟨h m hm, List.suffix_refl _⟩

theorem bind {next : α → ObservedRule β} (h : Ensures P rule Q)
    (hnext : ∀ x, Ensures (Q x) (next x) R) : Ensures P (rule >>= next) R := by
  intro m hm
  obtain ⟨hQ, hsuffix⟩ := h m hm
  obtain ⟨hR, hsuffix'⟩ := hnext _ _ hQ
  exact ⟨hR, hsuffix'.trans hsuffix⟩

theorem imp (h : Ensures P rule Q) (hP : ∀ m, P' m → P m) (hQ : ∀ x m, Q x m → Q' x m) :
    Ensures P' rule Q' :=
  fun m hm ↦ ⟨hQ _ _ (h m (hP m hm)).1, (h m (hP m hm)).2⟩

theorem look : Ensures P Observed.look fun s m ↦ P m ∧ s = m.state :=
  fun _ hm ↦ ⟨⟨hm, rfl⟩, List.suffix_refl _⟩

theorem lift {rule : Rule α} (h : ∀ s, Onward s (rule s).2) :
    Ensures (Used ts d) (Observed.lift rule) fun _ ↦ Used ts d :=
  fun m hm ↦ ⟨hm.onward (h m.state), (h m.state).1⟩

theorem advance : Ensures (Leavable ts d) Observed.advance fun _ ↦ Fresh ts d :=
  fun _ hm ↦ ⟨hm.fresh, List.tail_suffix _⟩

theorem advance_poised : Ensures (Used ts d) Observed.advance fun _ ↦ Poised ts d :=
  fun _ hm ↦ ⟨hm.poised, List.tail_suffix _⟩

/-- A token that was there as expected can be left behind, since it is not the end mark. -/
theorem expect {kind : Kind} (hkind : kind ≠ .eof) :
    Ensures (Used ts d) (Observed.lift (·.expect kind))
      fun opened m ↦ Used ts d m ∧ (opened = true → Leavable ts d m) := by
  intro m hm
  obtain ⟨hused, hsuffix⟩ := lift (fun s ↦ (Steps.expect s kind).onward) m hm
  refine ⟨⟨hused, fun hopened ↦ ⟨hused, State.pending_ne_nil ?_⟩⟩, hsuffix⟩
  obtain ⟨-, hadvance, hpeek⟩ := State.abandoned_expect_of_opened hopened
  rw [Observed.lift, hadvance, State.current_advance, hpeek]
  exact hkind

/-- What is given up if a token is missing. -/
theorem guarded {x : α} (opened : Bool) (hfailed : opened = false → ∀ m, P m → Q x m)
    (h : opened = true → Ensures P rule Q) :
    Ensures P (if !opened then Pure.pure x else rule) Q := by
  cases opened with
  | true => exact h rfl
  | false => exact .pure (hfailed rfl)

end Ensures

/-! ### Loops -/

/-- A loop whose rounds keep an invariant and leave the first token behind does not come to its
bound. -/
theorem ensures_loop {I : Observed → Prop} {goes : State → Bool} {round : ObservedRule (List α)}
    (hgoes : ∀ s, goes s = true → s.pending ≠ [])
    (hround : ∀ m, I m → goes m.state = true →
      I ((round m).2.endRound m.state) ∧ (round m).2.state.pending <:+ m.state.pending.tail) :
    Ensures I (Observed.loop goes round) fun _ ↦ I := by
  suffices h : ∀ bound m, m.state.pending.length ≤ bound → I m →
      I (Observed.repeatWhile goes round bound m).2 ∧
        (Observed.repeatWhile goes round bound m).2.state.pending <:+ m.state.pending from
    fun m hm ↦ h _ m (Nat.le_refl _) hm
  intro bound
  induction bound with
  | zero =>
    intro m hbound hm
    have hstop : ¬goes m.state = true := fun h ↦
      hgoes _ h (List.eq_nil_of_length_eq_zero (Nat.le_zero.mp hbound))
    rw [Observed.repeatWhile, if_neg hstop]
    exact ⟨hm, List.suffix_refl _⟩
  | succ bound ih =>
    intro m hbound hm
    rw [Observed.repeatWhile]
    split_ifs with h
    · obtain ⟨hI, hsuffix⟩ := hround m hm h
      have hle := hsuffix.length_le
      rw [List.length_tail] at hle
      obtain ⟨hend, hsuffix'⟩ := ih ((round m).2.endRound m.state)
        (show (round m).2.state.pending.length ≤ bound by omega) hI
      exact ⟨hend, hsuffix'.trans (hsuffix.trans (List.tail_suffix _))⟩
    · exact ⟨hm, List.suffix_refl _⟩

/-- A token of a kind that no end mark has lies behind the current one. -/
theorem pending_tail_ne_nil {kind : Kind} (hkind : kind ≠ .eof) (h : (s.peek.kind == kind) = true) :
    s.pending.tail ≠ [] := by
  have hpeek : s.advance.current.kind ≠ .eof := by
    rw [State.current_advance, beq_iff_eq.mp h]
    exact hkind
  exact State.pending_ne_nil hpeek

theorem pending_ne_nil_of_tail (h : s.pending.tail ≠ []) : s.pending ≠ [] :=
  fun hnil ↦ h (by rw [hnil]; rfl)

theorem ensures_items {item : ObservedRule (Option α)}
    (hitem : Ensures (Fresh ts d) item fun _ ↦ Used ts d) :
    Ensures (Fresh ts d) (Observed.items item) fun _ ↦ Used ts d := by
  have hloop : Ensures (Used ts d)
      (Observed.loop (·.peek.kind == .comma) (Observed.nextItem item)) fun _ ↦ Used ts d := by
    refine ensures_loop (fun s h ↦ pending_ne_nil_of_tail (pending_tail_ne_nil (by decide) h))
      fun m hm hcomma ↦ ?_
    -- the comma behind the current token is left behind as well
    have htail := pending_tail_ne_nil (by decide) hcomma
    have hcurrent := pending_ne_nil_of_tail htail
    have hitem' := Ensures.advance.bind fun _ ↦ hitem.bind fun x ↦
      Ensures.pure (x := x.toList) (Q := fun _ ↦ Used ts d) fun _ h ↦ h
    obtain ⟨hused, hsuffix⟩ := hitem' _ ⟨(Leavable.fresh ⟨hm, hcurrent⟩).used, htail⟩
    exact ⟨hused.endRound hcurrent hsuffix, hsuffix⟩
  exact hitem.bind fun x ↦ hloop.bind fun xs ↦ .pure fun _ h ↦ h

theorem ensures_skipPeriods :
    Ensures (Used ts d) Observed.skipPeriods fun _ ↦ Used ts d := by
  intro m hm
  refine ensures_loop (fun s h ↦ pending_ne_nil_of_tail (pending_tail_ne_nil (by decide) h))
    (fun m hm hperiod ↦ ?_) m hm
  have hpending := pending_ne_nil_of_tail (pending_tail_ne_nil (by decide) hperiod)
  have hsuffix : m.state.advance.pending <:+ m.state.pending.tail := List.suffix_refl _
  exact ⟨(hm.onward (Steps.advance _).onward).endRound hpending hsuffix, hsuffix⟩

/-! ### Single constructs -/

section

variable (hsub : ∀ level, Ensures (Fresh ts d) (sub level) fun _ ↦ Used ts d)

include hsub

theorem ensures_statement : Ensures (Fresh ts d) (Observed.statement sub) fun _ ↦ Used ts d := by
  intro m hm
  rw [Observed.statement, Observed.look_bind]
  split_ifs with hcomment
  · exact ⟨hm.used, List.suffix_refl _⟩
  · exact ((hsub .lowest).bind fun value ↦ ensures_skipPeriods.bind fun _ ↦ .pure fun _ h ↦ h) m hm

theorem ensures_statementsUntil {ends : Kind → Bool} (hends : ends .eof = true) :
    Ensures (Poised ts d) (Observed.statementsUntil sub ends) fun _ ↦ Poised ts d := by
  have hgoes (s : State) (h : (!(s.abandoned || ends s.current.kind)) = true) : s.pending ≠ [] := by
    refine State.pending_ne_nil fun heof ↦ ?_
    rw [heof, hends, Bool.or_true] at h
    cases h
  refine ensures_loop hgoes fun m hm h ↦ ?_
  have hpending := hgoes _ h
  obtain ⟨hused, hsuffix⟩ := ensures_statement hsub m (hm.2 hpending)
  exact ⟨hused.poised.endRound hpending (tail_suffix_tail hsuffix), tail_suffix_tail hsuffix⟩

theorem ensures_body : Ensures (Used ts d) (Observed.body sub) fun _ ↦ Used ts d := by
  refine Ensures.advance_poised.bind fun _ ↦
    ((ensures_statementsUntil hsub rfl).imp (fun _ h ↦ h) fun _ _ h ↦ h.1).bind fun statements ↦
      .lift fun s ↦ ?_
  split_ifs
  · exact ⟨List.suffix_refl _, rfl⟩
  · exact .refl s

theorem ensures_unaryRule :
    Ensures (Leavable ts d) (Observed.unaryRule sub) fun _ ↦ Used ts d := by
  intro m hm
  rw [Observed.unaryRule, Observed.look_bind]
  cases UnaryOperator.ofKind? m.state.current.kind with
  | none => exact ⟨hm.1, List.suffix_refl _⟩
  | some operator =>
    exact (Ensures.advance.bind fun _ ↦ (hsub .unary).bind fun right ↦ .pure fun _ h ↦ h) m hm

theorem ensures_groupRule :
    Ensures (Leavable ts d) (Observed.groupRule sub) fun _ ↦ Used ts d :=
  Ensures.advance.bind fun _ ↦ (hsub .lowest).bind fun _ ↦
    (Ensures.expect (by decide)).bind fun _ ↦ .pure fun _ h ↦ h.1

omit hsub in
theorem ensures_parameters : Ensures (Leavable ts d) Observed.parameters fun _ ↦ Used ts d := by
  have hparameter : Ensures (Fresh ts d) (Observed.lift parameter) fun _ ↦ Used ts d :=
    (Ensures.lift fun s ↦ by rw [parameter]; split_ifs <;> exact ⟨List.suffix_refl _, rfl⟩).imp
      (fun _ h ↦ h.used) fun _ _ h ↦ h
  refine Ensures.advance.bind fun _ m hm ↦ ?_
  rw [Observed.look_bind]
  split_ifs with hempty
  · exact ⟨hm.used, List.suffix_refl _⟩
  · exact ((ensures_items hparameter).bind fun names ↦
      (Ensures.expect (by decide)).bind fun _ ↦ .pure fun _ h ↦ h.1) m hm

theorem ensures_functionRule :
    Ensures (Used ts d) (Observed.functionRule sub) fun _ ↦ Used ts d := by
  refine Ensures.look.bind fun s ↦ ?_
  refine ((Ensures.expect (by decide)).imp (fun _ h ↦ h.1) fun _ _ h ↦ h).bind fun opened ↦ ?_
  refine .guarded opened (fun _ _ h ↦ h.1) fun hopened ↦ ?_
  refine (ensures_parameters.imp (fun _ h ↦ h.2 hopened) fun _ _ h ↦ h).bind fun names ↦ ?_
  cases names with
  | none => exact .pure fun _ h ↦ h
  | some names =>
    refine (Ensures.expect (by decide)).bind fun opened ↦ ?_
    refine .guarded opened (fun _ _ h ↦ h.1) fun _ ↦ Ensures.look.bind fun brace ↦ ?_
    exact ((ensures_body hsub).imp (fun _ h ↦ h.1.1) fun _ _ h ↦ h).bind fun _ ↦ .pure fun _ h ↦ h

theorem ensures_expressionList (close : Kind) :
    Ensures (Leavable ts d) (Observed.expressionList sub close) fun _ ↦ Used ts d := by
  refine Ensures.advance.bind fun _ m hm ↦ ?_
  rw [Observed.look_bind]
  split_ifs with hempty
  · exact ⟨hm.used, List.suffix_refl _⟩
  · refine ((ensures_items (hsub .lowest)).bind fun es ↦ .lift fun s ↦ ?_) m hm
    have hexpect := (Steps.expect s close).onward
    dsimp only
    split_ifs <;> exact hexpect

theorem ensures_arrayRule :
    Ensures (Leavable ts d) (Observed.arrayRule sub) fun _ ↦ Used ts d :=
  fun m hm ↦ ((ensures_expressionList hsub _).bind fun _ ↦
    .pure fun _ h ↦ h) m hm

theorem ensures_primary :
    Ensures (fun m ↦ Used ts d m ∧ m.state.abandoned = false) (Observed.primary sub)
      fun _ ↦ Used ts d := by
  rintro m ⟨hm, hgoing⟩
  have hleavable (h : m.state.current.kind ≠ .eof) : Leavable ts d m :=
    ⟨hm, State.pending_ne_nil h⟩
  rw [Observed.primary_apply]
  split
  case h_1 hkind => exact ensures_unaryRule hsub m (hleavable (by rw [hkind]; decide))
  case h_2 hkind => exact ensures_unaryRule hsub m (hleavable (by rw [hkind]; decide))
  case h_3 hkind => exact ensures_groupRule hsub m (hleavable (by rw [hkind]; decide))
  case h_4 hkind => exact ensures_functionRule hsub m hm
  case h_5 hkind => exact ensures_arrayRule hsub m (hleavable (by rw [hkind]; decide))
  case h_6 =>
    have hmoves : ∀ _ : Precedence, Moves fun s : State ↦ ((none : Option Expr), s) :=
      fun _ _ ↦ .refl
    have honward := (moves_primary hmoves m.state hgoing).onward
    exact ⟨hm.onward honward, honward.1⟩

theorem ensures_continuation {left : Expr} {kind : Kind} {rule : ObservedRule (Option Expr)}
    (hrule : Observed.continuation? sub left kind = some rule) :
    Ensures (Leavable ts d) rule fun _ ↦ Used ts d := by
  unfold Observed.continuation? at hrule
  split at hrule
  · obtain rfl := Option.some.inj hrule
    exact fun m hm ↦ ((ensures_expressionList hsub _).bind fun _ ↦
      .pure fun _ h ↦ h) m hm
  · obtain rfl := Option.some.inj hrule
    exact fun m hm ↦ (Ensures.advance.bind fun _ ↦ (hsub .lowest).bind fun _ ↦
      (Ensures.expect (by decide)).bind fun _ ↦ .pure fun _ h ↦ h.1) m hm
  · obtain ⟨operator, -, rfl⟩ := Option.map_eq_some_iff.mp hrule
    exact fun m hm ↦ (Ensures.advance.bind fun _ ↦ (hsub _).bind fun _ ↦ .pure fun _ h ↦ h) m hm

end

/-! ## Expressions -/

/-- Opening a level is observed, but it uses no token. -/
theorem Used.raise (h : Used ts d m) : Used ts (d + 1) m.raise :=
  ⟨⟨congrArg (· + 1) h.1.counter_eq, h.1.consumes, h.1.unbroken⟩, h.2⟩

theorem Used.abandoned (h : Used ts d m) :
    (∃ c, Used ts c { m with state := m.state.abandon }) ∧
      m.state.abandon.pending <:+ m.state.pending :=
  have honward := (Steps.abandon m.state).onward
  ⟨⟨d, h.onward honward⟩, honward.1⟩

/-- The token at which the reading begins is used by it. -/
theorem Fresh.enter (h : Fresh ts d m) : Used ts d m.enter := by
  refine ⟨⟨h.1.counter_eq, h.1.consumes, h.1.unbroken⟩, ?_⟩
  have hsublist := h.2
  rw [State.tokens_eq_cons, List.append_cons] at hsublist
  exact hsublist

theorem ensures_activation {rule : ObservedRule (Option Expr × Nat)}
    (hrule : Ensures (Used ts d) rule fun _ m ↦ ∃ c, Used ts c m) :
    Ensures (Fresh ts d) (Observed.activation rule) fun _ ↦ Used ts d := by
  intro m hm
  obtain ⟨⟨c, hused⟩, hsuffix⟩ := hrule m.enter hm.enter
  exact ⟨⟨⟨hm.1.counter_eq, hused.1.consumes, hused.1.unbroken⟩, hused.2⟩, hsuffix⟩

theorem ensures_nested {more : Expr → ObservedRule (Option Expr × Nat)}
    (hsub : d < nestingLimit → ∀ level, Ensures (Fresh ts (d + 1)) (sub level)
      fun _ ↦ Used ts (d + 1))
    (hmore : d < nestingLimit → ∀ left, Ensures (Used ts (d + 1)) (more left)
      fun _ m ↦ ∃ c, Used ts c m) :
    Ensures (Used ts d) (Observed.nested sub more) fun _ m ↦ ∃ c, Used ts c m := by
  intro m hm
  rw [Observed.nested, Observed.bind_apply]
  rcases m.descend_cases with ⟨hgone, hrun⟩ | ⟨hgoing, hlimit, hrun⟩ | ⟨hgoing, hlt, hrun⟩ <;>
    rw [hrun]
  · exact ⟨⟨d, hm⟩, List.suffix_refl _⟩
  · exact hm.raise.abandoned
  · rw [hm.1.counter_eq] at hlt
    obtain ⟨hused, hsuffix⟩ := ensures_primary (hsub hlt) m.raise ⟨hm.raise, hgoing⟩
    simp only [Bool.not_true, Bool.false_eq_true, if_false, Observed.bind_apply]
    generalize Observed.primary sub m.raise = result at hused hsuffix ⊢
    obtain ⟨_ | left, m₁⟩ := result
    · exact ⟨⟨_, hused⟩, hsuffix⟩
    · obtain ⟨hend, hsuffix'⟩ := hmore hlt left m₁ hused
      exact ⟨hend, hsuffix'.trans hsuffix⟩

/-- The token that continues an expression is not the end mark. -/
theorem pending_advance_ne_nil {level : Precedence} (h : continues level s = true) :
    s.advance.pending ≠ [] := by
  refine State.pending_ne_nil fun heof ↦ ?_
  rw [State.current_advance] at heof
  rw [continues, heof] at h
  revert h
  cases level <;> decide

/-- A round of the loop that continues an expression leaves the current token behind at once. -/
theorem ensures_chain {folds : Nat} {level : Precedence} {left : Expr}
    (hsub : d < nestingLimit → ∀ level, Ensures (Fresh ts (d + 1)) (Observed.expression fuel level)
      fun _ ↦ Used ts (d + 1))
    (hmore : d < nestingLimit → ∀ left, Ensures (Used ts (d + 1))
      (Observed.chain fuel level left (folds + 1)) fun _ m ↦ ∃ c, Used ts c m) :
    Ensures (Used ts d) (Observed.chain (fuel + 1) level left folds)
      fun _ m ↦ ∃ c, Used ts c m := by
  intro m hm
  rw [Observed.chain, Observed.look_bind]
  cases hcontinues : continues level m.state with
  | false => exact ⟨⟨d, hm⟩, List.suffix_refl _⟩
  | true =>
  rw [Bool.not_true, if_neg Bool.false_ne_true, Observed.bind_apply]
  rcases m.descend_cases with ⟨hgone, hrun⟩ | ⟨hgoing, hlimit, hrun⟩ | ⟨hgoing, hlt, hrun⟩ <;>
    rw [hrun]
  · exact ⟨⟨d, hm⟩, List.suffix_refl _⟩
  · exact hm.raise.abandoned
  rw [hm.1.counter_eq] at hlt
  have hnext : m.state.pending.tail ≠ [] := pending_advance_ne_nil hcontinues
  have hleavable : Leavable ts (d + 1) { m.raise with state := m.raise.state.advance } :=
    ⟨hm.raise.onward (Steps.advance _).onward, hnext⟩
  simp only [Bool.not_true, Bool.false_eq_true, if_false, Observed.advance_bind]
  cases hrule : Observed.continuation? (Observed.expression fuel) left
      m.state.advance.current.kind with
  | none => exact ⟨⟨_, hleavable.1⟩, List.tail_suffix _⟩
  | some rule =>
    obtain ⟨hused, hsuffix⟩ := ensures_continuation (hsub hlt) hrule _ hleavable
    have hended := hused.endRound (pending_ne_nil_of_tail hnext) hsuffix
    have hsuffix := hsuffix.trans (List.tail_suffix m.state.pending)
    simp only [Observed.bind_apply]
    generalize rule { m.raise with state := m.raise.state.advance } = result at hended hsuffix ⊢
    obtain ⟨_ | left, m₁⟩ := result
    · exact ⟨⟨_, hended⟩, hsuffix⟩
    · obtain ⟨hend, hsuffix'⟩ := hmore hlt left _ hended
      exact ⟨hend, hsuffix'.trans hsuffix⟩

/-- The recursion is closed here. There is fuel for as many calls as the counter admits. -/
theorem ensures_expression_and_chain (fuel : Nat) :
    (∀ d level, nestingLimit < fuel + d → d ≤ nestingLimit →
      Ensures (Fresh ts d) (Observed.expression fuel level) fun _ ↦ Used ts d) ∧
      ∀ d level left folds, nestingLimit < fuel + d → d ≤ nestingLimit →
        Ensures (Used ts d) (Observed.chain fuel level left folds) fun _ m ↦ ∃ c, Used ts c m := by
  induction fuel with
  | zero => exact ⟨by omega, by omega⟩
  | succ fuel ih =>
    obtain ⟨hexpression, hchain⟩ := ih
    constructor
    · intro d level hfuel hd
      rw [Observed.expression]
      refine ensures_activation (ensures_nested ?_ ?_)
      · exact fun hlt level ↦ hexpression _ level (by omega) hlt
      · exact fun hlt left ↦ hchain _ level left 0 (by omega) hlt
    · intro d level left folds hfuel hd
      refine ensures_chain ?_ ?_
      · exact fun hlt level ↦ hexpression _ level (by omega) hlt
      · exact fun hlt left ↦ hchain _ level left _ (by omega) hlt

/-! ## Whole sources -/

theorem nodup_tokenize (source : String) : (Token.tokenize source).Nodup := by
  have hne : ∀ t ∈ Token.scan 0 0 source.toList, t.span.start < t.span.stop :=
    fun t ht ↦ Token.start_lt_stop_of_mem_scan ht
  refine List.nodup_append.mpr ⟨?_, List.pairwise_singleton _ _, fun t ht u hu ↦ ?_⟩
  · refine (Token.pairwise_scan 0 0 source.toList).imp_of_mem fun {t u} ht _ hle ↦ ?_
    rintro rfl
    exact absurd (hne t ht) (Nat.not_lt.mpr hle)
  · rintro rfl
    obtain rfl := List.mem_singleton.mp hu
    exact absurd (hne _ ht) (Nat.lt_irrefl _)

theorem poised_observe (source : String) : Poised (Token.tokenize source) 0 (observe source).2 := by
  have hexpression (level : Precedence) : Ensures (Fresh (Token.tokenize source) 0)
      (Observed.expression (nestingLimit + 1) level) fun _ ↦ Used (Token.tokenize source) 0 :=
    (ensures_expression_and_chain _).1 0 level (by omega) (Nat.zero_le _)
  have hstart : Fresh (Token.tokenize source) 0 (.ofSource source) :=
    ⟨⟨rfl, fun r hr ↦ absurd hr List.not_mem_nil, rfl⟩, List.Sublist.refl _⟩
  have hstatements : Ensures (Poised (Token.tokenize source) 0)
      (Observed.statementsUntil (Observed.expression (nestingLimit + 1)) (· == .eof))
      fun _ ↦ Poised (Token.tokenize source) 0 :=
    ensures_statementsUntil hexpression rfl
  exact (hstatements _ hstart.poised).1

end DrawScript.Parser
