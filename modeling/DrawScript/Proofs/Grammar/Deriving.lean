import DrawScript.Proofs.Grammar.Reading

/-!
# What is read was derived

The converse of `DrawScript.Proofs.Grammar.Reading`. A rule that reports nothing has read the tokens
of a derivation, all of them and nothing else, and yields the tree of that derivation.

A run reports nothing if its diagnostics are those it started with. As diagnostics are only ever
added, the same then holds of every part of the run (`Steps.diagnostics_eq`), so each theorem below
can use the others for the parts of its construct.

The loop for expressions keeps the expression on the left as a phrase of some stratum that the next
token does not continue from inside (`Stratum.MeetsAt`). That token then fits on top of the phrase,
and where it does not continue the loop, the phrase is one of the stratum that was asked for.
-/

namespace DrawScript.Grammar

open Token (Kind)
open DrawScript.Parser

variable {s s' : State} {sub : ExprRule} {room : Nat} {level : Precedence}

/-! ## Strata and levels of binding -/

namespace Stratum

theorem above_le_of_lt {p : Precedence} (h : level < p)
    (hlevel : (above level).rank ≤ applied.rank) : (above level).rank ≤ (ofLevel p).rank := by
  revert h hlevel
  cases level <;> cases p <;> decide

/-- Behind an expression whose loop is over, an operator of the same level fits on top. -/
theorem meetsAt_of_not_lt {p : Precedence} {kind : Kind} (h : ¬p < .of kind) :
    (ofLevel p).MeetsAt kind := by
  rw [MeetsAt]
  revert h
  cases p <;> cases Precedence.of kind <;> decide

theorem above_le_signed (hlevel : (above level).rank ≤ applied.rank) :
    (above level).rank ≤ signed.rank := by
  revert hlevel
  cases level <;> decide

theorem atom_meetsAt (kind : Kind) : atom.MeetsAt kind :=
  (meetsAt_applied kind).mono (by decide)

theorem tighter_le_of_mem_operators {σ : Stratum} {kind : Kind} (h : kind ∈ σ.operators) :
    σ.tighter.rank ≤ applied.rank := by
  revert h
  cases σ <;> simp [operators, tighter, rank]

end Stratum

/-- A kind that continues expressions opens a list or an index, or it is an operator of the stratum
that its level builds. -/
theorem continuer_cases {kind : Kind} (h : level < .of kind) :
    kind = .lparen ∨ kind = .lbracket ∨
      ∃ operator, BinaryOperator.ofKind? kind = some operator ∧
        kind ∈ (Stratum.ofLevel (.of kind)).operators := by
  revert h
  cases kind <;>
    simp [Precedence.of, BinaryOperator.ofKind?, Stratum.ofLevel, Stratum.operators,
      Precedence.lt_iff_rank_lt, Precedence.rank]

theorem not_mem_continuers_of_not_lt {kind : Kind} (h : ¬Precedence.lowest < .of kind) :
    kind ∉ continuers := by
  revert h
  cases kind <;> decide

/-! ## Runs that report nothing -/

/-- The parse is going on and faces tokens that were read from a text. -/
structure Ready (s : State) : Prop where
  going : s.abandoned = false
  spelled : s.IsSpelled

theorem Ready.of_append {ts us : List Token} (h : Ready (s.facing (ts ++ us))) :
    Ready (s.facing us) :=
  ⟨h.going, fun t ht ↦ h.spelled t (List.mem_append_right ts ht)⟩

theorem Ready.tail {t : Token} {ts : List Token} (h : Ready (s.facing (t :: ts))) :
    Ready (s.facing ts) :=
  ⟨h.going, fun u hu ↦ h.spelled u (List.mem_cons_of_mem t hu)⟩

theorem diagnostics_report_ne (s : State) (fault : Fault) (t : Token) :
    (s.report fault t).diagnostics ≠ s.diagnostics := fun h ↦ by
  simpa [State.report] using congrArg Array.size h

theorem diagnostics_abandon_ne (hs : s.abandoned = false) :
    s.abandon.diagnostics ≠ s.diagnostics := fun h ↦ by
  simpa [State.abandon, hs, State.report] using congrArg Array.size h

theorem exists_cons_of_headKind {us : List Token} {kind : Kind} (h : headKind us = kind)
    (hkind : kind ≠ .eof) : ∃ t rest, us = t :: rest ∧ t.kind = kind := by
  cases us with
  | nil => exact absurd h.symm hkind
  | cons t rest => exact ⟨t, rest, rfl, h⟩

/-- An expectation is met by the next token or reported. -/
theorem expect_cases (t : Token) (us : List Token) {kind : Kind} (hs : s.abandoned = false)
    (hkind : kind ≠ .eof) :
    (∃ u rest, us = u :: rest ∧ u.kind = kind ∧
      (s.facing (t :: us)).expect kind = (true, s.facing (u :: rest))) ∨
    ((s.facing (t :: us)).expect kind).1 = false ∧
      ((s.facing (t :: us)).expect kind).2.diagnostics ≠ s.diagnostics := by
  by_cases hnext : headKind us = kind
  · obtain ⟨u, rest, rfl, hu⟩ := exists_cons_of_headKind hnext hkind
    exact .inl ⟨u, rest, rfl, hu, expect_facing hs hu⟩
  · right
    rw [State.expect]
    simp only [State.abandoned_facing, hs, Bool.false_eq_true, kind_peek_facing, hnext, if_false]
    exact ⟨trivial, diagnostics_report_ne _ _ _⟩

/-- An expectation that reports nothing is met by the next token. -/
theorem exists_of_expect {t : Token} {us : List Token} {kind : Kind} (hs : s.abandoned = false)
    (hkind : kind ≠ .eof)
    (hquiet : ((s.facing (t :: us)).expect kind).2.diagnostics = s.diagnostics) :
    ∃ u rest, us = u :: rest ∧ u.kind = kind ∧
      (s.facing (t :: us)).expect kind = (true, s.facing (u :: rest)) :=
  (expect_cases t us hs hkind).resolve_right fun h ↦ h.2 hquiet

/-! ## What rules derive -/

/-- The run has read a phrase of the stratum above `level` from the tokens `us`, up to a token that
does not continue it. -/
def Derives (level : Precedence) (s : State) (us : List Token) (run : Option Expr × State) : Prop :=
  ∃ (ts rest : List Token) (d : Phrase (.above level) ts), us = ts ++ rest ∧
    ¬level < .of (headKind rest) ∧ run = (some d.tree, s.facing (d.last :: rest))

/-- The run has read a phrase from the tokens `us` that is at least as tight as `σ`, and on top of
which the next token fits. -/
def Builds (σ : Stratum) (s : State) (us : List Token) (run : Option Expr × State) : Prop :=
  ∃ (τ : Stratum) (ts rest : List Token) (d : Phrase τ ts), us = ts ++ rest ∧ σ.rank ≤ τ.rank ∧
    τ.MeetsAt (headKind rest) ∧ run = (some d.tree, s.facing (d.last :: rest))

/-- A rule for expressions that derives what it reads, unless it reports something. The levels of
calls and indices are left out; no rule reads an expression at them. -/
structure Sound (sub : ExprRule) : Prop where
  moves : ∀ level, Moves (sub level)
  derives : ∀ (level : Precedence) (s : State) (us : List Token),
    (Stratum.above level).rank ≤ Stratum.applied.rank → Ready (s.facing us) →
    (sub level (s.facing us)).2.diagnostics = s.diagnostics →
    Derives level s us (sub level (s.facing us))

/-! ## Lists -/

section Items

variable {α : Type} {item : Rule (Option α)} {P : State → Prop}

/-- If the rest of a list reports nothing, neither does its next item nor what is behind that. -/
theorem moreItems_quiet (hadvance : ∀ s, P s → P s.advance)
    (hitem : ∀ s, P s → Steps s (item s).2 ∧ P (item s).2) {bound : Nat} {last comma : Token}
    {us : List Token} (hcomma : comma.kind = .comma)
    (hquiet : (moreItems item (bound + 1) (s.facing (last :: comma :: us))).2.diagnostics
      = s.diagnostics) (hs : P (s.facing us)) :
    (item (s.facing us)).2.diagnostics = s.diagnostics ∧
      (moreItems item bound (item (s.facing us)).2).2.diagnostics
        = (item (s.facing us)).2.diagnostics := by
  have hrun : (moreItems item (bound + 1) (s.facing (last :: comma :: us))).2
      = (moreItems item bound (item (s.facing us)).2).2 := by
    simp [moreItems, hcomma]
  rw [hrun] at hquiet
  obtain ⟨hsteps, hs'⟩ := hitem _ hs
  exact hsteps.diagnostics_eq (moves_moreItems hadvance hitem bound _ hs').1 hquiet

/-- If a list and the token that closes it report nothing, neither does a part of the list. -/
theorem items_expect_quiet (hadvance : ∀ s, P s → P s.advance)
    (hitem : ∀ s, P s → Steps s (item s).2 ∧ P (item s).2) {us : List Token} {kind : Kind}
    (hquiet : ((items item (s.facing us)).2.expect kind).2.diagnostics = s.diagnostics)
    (hs : P (s.facing us)) :
    (item (s.facing us)).2.diagnostics = s.diagnostics ∧
      (moreItems item (item (s.facing us)).2.pending.length (item (s.facing us)).2).2.diagnostics
        = (item (s.facing us)).2.diagnostics ∧
      ((items item (s.facing us)).2.expect kind).2.diagnostics
        = (items item (s.facing us)).2.diagnostics := by
  obtain ⟨hsteps, -⟩ := moves_items hadvance hitem _ hs
  obtain ⟨hitems, hexpect⟩ := hsteps.diagnostics_eq (Steps.expect _ kind) hquiet
  obtain ⟨hfirst, hs'⟩ := hitem _ hs
  obtain ⟨hquiet', hmore⟩ :=
    hfirst.diagnostics_eq (moves_moreItems hadvance hitem _ _ hs').1 hitems
  exact ⟨hquiet', hmore, hexpect⟩

end Items

theorem Sound.exists_more (hsub : Sound sub) (bound : Nat) :
    ∀ (last : Token) (us : List Token), Ready (s.facing us) →
      (moreItems (sub .lowest) bound (s.facing (last :: us))).2.diagnostics = s.diagnostics →
      ∃ (ts rest : List Token) (m : More ts) (last' : Token), us = ts ++ rest ∧
        moreItems (sub .lowest) bound (s.facing (last :: us))
          = (m.trees, s.facing (last' :: rest)) := by
  induction bound with
  | zero => exact fun last us _ _ ↦ ⟨[], us, .done, last, rfl, rfl⟩
  | succ bound ih =>
    intro last us hready hquiet
    by_cases hcomma : headKind us = .comma
    · obtain ⟨comma, us, rfl, hcomma⟩ := exists_cons_of_headKind hcomma (by decide)
      obtain ⟨hitem, hmore⟩ := moreItems_quiet (P := fun _ ↦ True) (fun _ _ ↦ trivial)
        (fun s _ ↦ ⟨hsub.moves .lowest s, trivial⟩) hcomma hquiet trivial
      obtain ⟨ts, rest, d, rfl, -, hread⟩ :=
        hsub.derives .lowest s us (Nat.zero_le _) hready.tail hitem
      rw [hread] at hmore
      obtain ⟨ms, rest, m, last', rfl, hmoreread⟩ := ih d.last rest hready.tail.of_append hmore
      exact ⟨comma :: ts ++ ms, rest, .item ⟨comma, hcomma⟩ d m, last', by simp,
        moreItems_step hcomma hread hmoreread⟩
    · exact ⟨[], us, .done, last, rfl, moreItems_stop hcomma⟩

theorem Sound.exists_listing (hsub : Sound sub) {opening : Token} {us : List Token} {kind : Kind}
    (hkind : kind ≠ .eof) (hready : Ready (s.facing us))
    (hquiet : (expressionList sub kind (s.facing (opening :: us))).2.diagnostics
      = s.diagnostics) :
    ∃ (ts rest : List Token) (l : Listing ts) (close : TokenOf kind), us = ts ++ close.1 :: rest ∧
      expressionList sub kind (s.facing (opening :: us))
        = (l.trees, s.facing (close.1 :: rest)) := by
  by_cases hempty : headKind us = kind
  · obtain ⟨close, rest, rfl, hclose⟩ := exists_cons_of_headKind hempty hkind
    exact ⟨[], rest, .empty, ⟨close, hclose⟩, rfl, expressionList_nil hclose⟩
  -- a list that is not closed writes to the log, which leaves the diagnostics alone
  have hrun : (expressionList sub kind (s.facing (opening :: us))).2.diagnostics
      = ((items (sub .lowest) (s.facing us)).2.expect kind).2.diagnostics := by
    rw [← kind_current_facing s us] at hempty
    simp only [expressionList]
    split_ifs with hfirst
    · exact absurd hfirst hempty
    all_goals rfl
  rw [hrun] at hquiet
  obtain ⟨hfirst, hmore, hexpect⟩ := items_expect_quiet (P := fun _ ↦ True) (fun _ _ ↦ trivial)
    (fun s _ ↦ ⟨hsub.moves .lowest s, trivial⟩) hquiet trivial
  obtain ⟨ts, rest, d, rfl, -, hread⟩ := hsub.derives .lowest s us (Nat.zero_le _) hready hfirst
  rw [hread] at hmore
  obtain ⟨ms, rest, m, last, rfl, hmoreread⟩ :=
    hsub.exists_more _ d.last rest hready.of_append hmore
  have hitemsread := items_eq hread hmoreread
  rw [hitemsread] at hexpect
  obtain ⟨close, rest, rfl, hclose, hexpected⟩ := exists_of_expect hready.going hkind hexpect
  exact ⟨ts ++ ms, rest, .items d m, ⟨close, hclose⟩, by simp,
    expressionList_items hready.going hclose hempty hitemsread⟩

/-! ## Functions -/

/-- A parameter that reports nothing is a name. -/
theorem exists_name {us : List Token}
    (hquiet : (parameter (s.facing us)).2.diagnostics = s.diagnostics) :
    ∃ (name : TokenOf .ident) (rest : List Token), us = name.1 :: rest := by
  by_cases hident : headKind us = .ident
  · obtain ⟨name, rest, rfl, hname⟩ := exists_cons_of_headKind hident (by decide)
    exact ⟨⟨name, hname⟩, rest, rfl⟩
  · simp only [parameter, kind_current_facing, hident, if_false] at hquiet
    exact absurd hquiet (diagnostics_report_ne _ _ _)

theorem exists_moreNames (hs : s.abandoned = false) (bound : Nat) :
    ∀ (last : Token) (us : List Token),
      (moreItems parameter bound (s.facing (last :: us))).2.diagnostics = s.diagnostics →
      ∃ (ts rest : List Token) (m : MoreNames ts) (last' : Token), us = ts ++ rest ∧
        moreItems parameter bound (s.facing (last :: us))
          = (m.identifiers, s.facing (last' :: rest)) := by
  induction bound with
  | zero => exact fun last us _ ↦ ⟨[], us, .done, last, rfl, rfl⟩
  | succ bound ih =>
    intro last us hquiet
    by_cases hcomma : headKind us = .comma
    · obtain ⟨comma, us, rfl, hcomma⟩ := exists_cons_of_headKind hcomma (by decide)
      obtain ⟨hitem, hmore⟩ := moreItems_quiet (fun _ h ↦ h) moves_parameter hcomma hquiet hs
      obtain ⟨name, rest, rfl⟩ := exists_name hitem
      rw [parameter_eq] at hmore
      obtain ⟨ts, rest, m, last', rfl, hmoreread⟩ := ih name.1 rest hmore
      exact ⟨comma :: name.1 :: ts, rest, .item ⟨comma, hcomma⟩ name m, last', rfl,
        moreItems_step hcomma (parameter_eq name _) hmoreread⟩
    · exact ⟨[], us, .done, last, rfl, moreItems_stop hcomma⟩

theorem exists_names {opening : Token} {us : List Token} (hs : s.abandoned = false)
    (hquiet : (parameters (s.facing (opening :: us))).2.diagnostics = s.diagnostics) :
    ∃ (ts rest : List Token) (n : Names ts) (close : TokenOf .rparen),
      us = ts ++ close.1 :: rest ∧
      parameters (s.facing (opening :: us)) = (some n.identifiers, s.facing (close.1 :: rest)) := by
  by_cases hempty : headKind us = .rparen
  · obtain ⟨close, rest, rfl, hclose⟩ := exists_cons_of_headKind hempty (by decide)
    exact ⟨[], rest, .empty, ⟨close, hclose⟩, rfl,
      Names.empty.parameters_eq opening rest hs hclose⟩
  have hrun : (parameters (s.facing (opening :: us))).2
      = ((items parameter (s.facing us)).2.expect .rparen).2 := by
    simp [parameters, kind_current_facing, hempty]
  rw [hrun] at hquiet
  obtain ⟨hfirst, hmore, hexpect⟩ := items_expect_quiet (fun _ h ↦ h) moves_parameter hquiet hs
  obtain ⟨name, rest, rfl⟩ := exists_name hfirst
  rw [parameter_eq] at hmore
  obtain ⟨ts, rest, m, last, rfl, hmoreread⟩ := exists_moreNames hs _ name.1 rest hmore
  rw [items_eq (parameter_eq name _) hmoreread] at hexpect
  obtain ⟨close, rest, rfl, hclose, hexpected⟩ := exists_of_expect hs (by decide) hexpect
  exact ⟨name.1 :: ts, rest, .items name m, ⟨close, hclose⟩, rfl,
    (Names.items name m).parameters_eq opening rest hs hclose⟩

/-! ## Statements -/

theorem exists_periods (last : Token) (us : List Token) :
    ∃ (periods : List (TokenOf .period)) (rest : List Token) (last' : Token),
      us = periods.map (·.1) ++ rest ∧
      (s.facing (last :: us)).skipPeriods = s.facing (last' :: rest) := by
  induction us generalizing last with
  | nil => exact ⟨[], [], last, rfl, rfl⟩
  | cons u us ih =>
    by_cases hperiod : u.kind = .period
    · obtain ⟨periods, rest, last', rfl, hskip⟩ := ih u
      refine ⟨⟨u, hperiod⟩ :: periods, rest, last', rfl, ?_⟩
      rw [← hskip]
      simp [State.skipPeriods, State.skipPeriods.drop, hperiod, State.facing]
    · exact ⟨[], u :: us, last, rfl, by
        simp [State.skipPeriods, State.skipPeriods.drop, hperiod, State.facing]⟩

/-- An expression statement that reports nothing is a phrase and the periods behind it. Without
periods the next token does not continue the phrase. -/
theorem Sound.exists_statement (hsub : Sound sub) {t : Token} {us : List Token}
    (hcomment : t.kind ≠ .comment) (hready : Ready (s.facing (t :: us)))
    (hquiet : (statement sub (s.facing (t :: us))).2.diagnostics = s.diagnostics) :
    ∃ (ts rest : List Token) (d : Phrase .equality (t :: ts)) (periods : List (TokenOf .period))
      (last : Token), us = ts ++ (periods.map (·.1) ++ rest) ∧
      (periods = [] → headKind rest ∉ continuers) ∧
      statement sub (s.facing (t :: us))
        = (some (.expression t d.tree), s.facing (last :: rest)) := by
  have hvalue : (sub .lowest (s.facing (t :: us))).2.diagnostics = s.diagnostics := by
    simpa [statement, hcomment, State.skipPeriods] using hquiet
  obtain ⟨ts, rest, d, hus, hnext, hread⟩ :=
    hsub.derives .lowest s (t :: us) (Nat.zero_le _) hready hvalue
  obtain ⟨t', ts, rfl, -⟩ := d.exists_first
  rw [List.cons_append] at hus
  obtain ⟨rfl, rfl⟩ := List.cons.inj hus
  obtain ⟨periods, rest, last, rfl, hskip⟩ := exists_periods (s := s) d.last rest
  refine ⟨ts, rest, d, periods, last, rfl, ?_, statement_expression hcomment hread hskip⟩
  rintro rfl
  exact not_mem_continuers_of_not_lt hnext

/-- Statements that are read without a report are a body, and what ends them comes next. -/
theorem Sound.exists_body (hsub : Sound sub) (ends : Kind → Bool) (hends : ends .eof = true)
    (bound : Nat) : ∀ us : List Token, us.length ≤ bound → Ready (s.facing us) →
      (statementsUntil sub ends bound (s.facing us)).2.diagnostics = s.diagnostics →
      ∃ (ts rest : List Token) (b : Body ts), us = ts ++ rest ∧ ends (headKind rest) = true ∧
        statementsUntil sub ends bound (s.facing us) = (b.statements, s.facing rest) := by
  induction bound with
  | zero =>
    intro us hbound _ _
    -- the bound is used up together with the tokens, since every statement has one
    obtain rfl := List.length_eq_zero_iff.mp (Nat.le_zero.mp hbound)
    exact ⟨[], [], .done, rfl, hends, rfl⟩
  | succ bound ih =>
    intro us hbound hready hquiet
    have hs : s.abandoned = false := hready.going
    cases hend : ends (headKind us) with
    | true => exact ⟨[], us, .done, rfl, hend, statementsUntil_stop hend⟩
    | false =>
      have heof : headKind us ≠ .eof := fun h ↦ by
        rw [h, hends] at hend
        cases hend
      obtain ⟨t, us, rfl, -⟩ := exists_cons_of_headKind rfl heof
      rw [headKind_cons] at hend
      have hrun : (statementsUntil sub ends (bound + 1) (s.facing (t :: us))).2
          = (statementsUntil sub ends bound (statement sub (s.facing (t :: us))).2.advance).2 := by
        simp [statementsUntil, hs, hend]
      rw [hrun] at hquiet
      obtain ⟨hfirst, hmore⟩ := (moves_statement hsub.moves (s.facing (t :: us))).diagnostics_eq
        ((Steps.advance _).trans (moves_statementsUntil hsub.moves ends bound _)) hquiet
      by_cases hcomment : t.kind = .comment
      · have hstatement : statement sub (s.facing (t :: us))
            = (some (.comment t), s.facing (t :: us)) := statement_comment ⟨t, hcomment⟩ us
        rw [hstatement] at hmore
        obtain ⟨ts, rest, b, rfl, hstop, hread⟩ := ih us (Nat.le_of_succ_le_succ hbound)
          hready.tail hmore
        exact ⟨t :: ts, rest, .comment ⟨t, hcomment⟩ b, rfl, hstop,
          statementsUntil_step hs hend hstatement hread⟩
      · obtain ⟨ts, rest, d, periods, last, rfl, hnext, hstatement⟩ :=
          hsub.exists_statement hcomment hready hfirst
        rw [hstatement] at hmore
        have hready' : Ready (s.facing rest) := hready.tail.of_append.of_append
        have hlength : rest.length ≤ bound := by
          simp only [List.length_cons, List.length_append] at hbound
          omega
        obtain ⟨bs, rest, b, rfl, hstop, hread⟩ := ih rest hlength hready' hmore
        have hsplit : periods = [] → ∀ u ∈ bs.head?, u.kind ∉ continuers := by
          intro hperiods u hu
          obtain ⟨bs, rfl⟩ := List.head?_eq_some_iff.mp hu
          exact hnext hperiods
        exact ⟨t :: ts ++ periods.map (·.1) ++ bs, rest, .expression d periods hsplit b, by simp,
          hstop, statementsUntil_step hs hend hstatement hread⟩

/-- Statements between braces end at the closing one. -/
theorem Sound.exists_braced (hsub : Sound sub) {brace : Token} {us : List Token}
    (hready : Ready (s.facing us))
    (hquiet : (body sub (s.facing (brace :: us))).2.diagnostics = s.diagnostics) :
    ∃ (ts rest : List Token) (b : Body ts) (close : TokenOf .rbrace),
      us = ts ++ close.1 :: rest ∧
      body sub (s.facing (brace :: us)) = (b.statements, s.facing (close.1 :: rest)) := by
  set run := statementsUntil sub endsBody us.length (s.facing us) with hrun
  have hbody : body sub (s.facing (brace :: us))
      = if run.2.current.kind = .eof ∧ !run.2.abandoned then
          (run.1, run.2.report (.unexpectedToken .rbrace .eof) run.2.current)
        else run := rfl
  have hmoves : Steps (s.facing us) run.2 := moves_statementsUntil hsub.moves endsBody _ _
  rw [hbody] at hquiet
  split_ifs at hquiet with hopen
  · -- the report of an end inside the braces would have been the last step
    have hreport : Steps run.2 (run.2.report (.unexpectedToken .rbrace .eof) run.2.current) :=
      .single (.report (by simpa using hopen.2) (.unclosedBody hopen.1))
    exact absurd (hmoves.diagnostics_eq hreport hquiet).2 (diagnostics_report_ne _ _ _)
  obtain ⟨ts, rest, b, rfl, hstop, hread⟩ :=
    hsub.exists_body endsBody rfl us.length us (Nat.le_refl _) hready hquiet
  rw [← hrun] at hread
  rw [hread] at hopen
  cases rest with
  | nil => exact absurd ⟨rfl, by simpa using hready.going⟩ hopen
  | cons close rest =>
    have hclose : close.kind = .rbrace := by
      have hspelled := hready.spelled close (List.mem_append_right ts (List.mem_cons_self ..))
      simpa [endsBody, hspelled.kind_ne_eof] using hstop
    exact ⟨ts, rest, b, ⟨close, hclose⟩, rfl, body_eq hclose hread⟩

/-! ## Expressions that a token begins -/

/-- The kinds of tokens that are expressions on their own. -/
def leaves : List Kind :=
  [.ident, .int, .float, .string, .trueWord, .falseWord]

/-- A leaf that reports nothing has a value. -/
theorem exists_denotes {t : Token} {us : List Token} (ht : t.Spelled) (hkind : t.kind ∈ leaves)
    (hquiet : (primary sub (s.facing (t :: us))).2.diagnostics = s.diagnostics) :
    ∃ e, t.Denotes e := by
  simp only [leaves, List.mem_cons, List.not_mem_nil, or_false] at hkind
  rcases hkind with hkind | hkind | hkind | hkind | hkind | hkind
  · exact ⟨_, .identifier hkind⟩
  · cases hvalue : integerValue? t.lexeme with
    | none =>
      simp only [primary, State.current_facing_cons, hkind, literal, hvalue] at hquiet
      exact absurd hquiet (diagnostics_report_ne _ _ _)
    | some value => exact ⟨_, denotes_integer hkind hvalue⟩
  · cases hvalue : realValue? t.lexeme with
    | none =>
      simp only [primary, State.current_facing_cons, hkind, literal, hvalue] at hquiet
      exact absurd hquiet (diagnostics_report_ne _ _ _)
    | some value => exact ⟨_, denotes_real ht hkind hvalue⟩
  · exact ⟨_, .string hkind⟩
  · obtain ⟨value, -, hvalue⟩ := booleanValue?_of_spelled ht (.inl hkind)
    exact ⟨_, hvalue⟩
  · obtain ⟨value, -, hvalue⟩ := booleanValue?_of_spelled ht (.inr hkind)
    exact ⟨_, hvalue⟩

/-- A token that begins no expression is reported and stays the current one. -/
theorem primary_of_notMem_starters {t : Token} (ht : t.kind ∉ starters) (rest : List Token) :
    primary sub (s.facing (t :: rest))
      = (none, (s.report (.missingPrefixRule t.kind) t).facing (t :: rest)) := by
  rw [primary, State.current_facing_cons]
  cases hk : t.kind <;> simp_all [starters] <;> rfl

theorem mem_starters_of_primary {us : List Token}
    (hquiet : (primary sub (s.facing us)).2.diagnostics = s.diagnostics) :
    ∃ t rest, us = t :: rest ∧ t.kind ∈ starters := by
  cases us with
  | nil => exact absurd hquiet (diagnostics_report_ne _ _ _)
  | cons t rest =>
    refine ⟨t, rest, rfl, ?_⟩
    by_contra hkind
    rw [primary_of_notMem_starters hkind] at hquiet
    exact diagnostics_report_ne _ _ _ hquiet

theorem Builds.of_atom {ts us rest : List Token} {run : Option Expr × State} {σ : Stratum}
    (d : Phrase .atom ts) (hus : us = ts ++ rest)
    (hrun : run = (some d.tree, s.facing (d.last :: rest))) : Builds σ s us run := by
  refine ⟨.atom, ts, rest, d, hus, ?_, Stratum.atom_meetsAt _, hrun⟩
  cases σ <;> decide

theorem Sound.builds_unary (hsub : Sound sub) {t : Token} {us : List Token}
    {operator : UnaryOperator} (ht : UnaryOperator.ofKind? t.kind = some operator)
    (hready : Ready (s.facing (t :: us)))
    (hquiet : (primary sub (s.facing (t :: us))).2.diagnostics = s.diagnostics) :
    Builds .signed s (t :: us) (primary sub (s.facing (t :: us))) := by
  rw [primary_of_unary ht] at hquiet
  have hright : (sub .unary (s.facing us)).2.diagnostics = s.diagnostics := by
    simpa [unaryRule, ht] using hquiet
  obtain ⟨ts, rest, d, rfl, hnext, hread⟩ :=
    hsub.derives .unary s us (by decide) hready.tail hright
  exact ⟨.signed, t :: ts, rest, .unary t operator ht d, rfl, Nat.le_refl _,
    Stratum.meetsAt_of_not_lt hnext, primary_unary ht hread⟩

theorem Sound.builds_group (hsub : Sound sub) {t : Token} {us : List Token}
    (ht : t.kind = .lparen) (hready : Ready (s.facing (t :: us)))
    (hquiet : (primary sub (s.facing (t :: us))).2.diagnostics = s.diagnostics) :
    Builds .signed s (t :: us) (primary sub (s.facing (t :: us))) := by
  have hs : s.abandoned = false := hready.going
  have hrun : (primary sub (s.facing (t :: us))).2
      = ((sub .lowest (s.facing us)).2.expect .rparen).2 := by
    simp [primary, ht, groupRule]
  rw [hrun] at hquiet
  obtain ⟨hinner, hexpect⟩ := (hsub.moves .lowest (s.facing us)).diagnostics_eq
    (Steps.expect _ .rparen) hquiet
  obtain ⟨ts, rest, d, rfl, -, hread⟩ :=
    hsub.derives .lowest s us (Nat.zero_le _) hready.tail hinner
  rw [hread] at hexpect
  obtain ⟨close, rest, rfl, hclose, -⟩ := exists_of_expect hs (by decide) hexpect
  exact .of_atom (.group ⟨t, ht⟩ d ⟨close, hclose⟩) (by simp) (primary_group hs ht hclose hread)

theorem Sound.builds_array (hsub : Sound sub) {t : Token} {us : List Token}
    (ht : t.kind = .lbracket) (hready : Ready (s.facing (t :: us)))
    (hquiet : (primary sub (s.facing (t :: us))).2.diagnostics = s.diagnostics) :
    Builds .signed s (t :: us) (primary sub (s.facing (t :: us))) := by
  have hlist : (expressionList sub .rbracket (s.facing (t :: us))).2.diagnostics
      = s.diagnostics := by
    simpa [primary, ht, arrayRule] using hquiet
  obtain ⟨ts, rest, l, close, rfl, hread⟩ :=
    hsub.exists_listing (by decide) hready.tail hlist
  exact .of_atom (.array ⟨t, ht⟩ l close) (by simp) (primary_array ht hread)

theorem Sound.builds_function (hsub : Sound sub) {t : Token} {us : List Token}
    (ht : t.kind = .function) (hready : Ready (s.facing (t :: us)))
    (hquiet : (primary sub (s.facing (t :: us))).2.diagnostics = s.diagnostics) :
    Builds .signed s (t :: us) (primary sub (s.facing (t :: us))) := by
  have hs : s.abandoned = false := hready.going
  have hprimary : primary sub (s.facing (t :: us)) = functionRule sub (s.facing (t :: us)) := by
    simp [primary, ht]
  rw [hprimary] at hquiet
  rcases expect_cases t us hs (show Kind.lparen ≠ .eof by decide) with
    ⟨opening, us, rfl, hopen, hopened⟩ | ⟨hclosed, hloud⟩
  swap
  · simp [functionRule, hclosed, hloud] at hquiet
  -- the parameters report nothing, because what comes after them only adds to the diagnostics
  have hafter : Steps (parameters (s.facing (opening :: us))).2
      (functionRule sub (s.facing (t :: opening :: us))).2 := by
    simp only [functionRule, hopened, Bool.not_true, Bool.false_eq_true, if_false]
    rcases parameters (s.facing (opening :: us)) with ⟨_ | names, s₁⟩
    · exact .refl
    · simp only
      split
      · exact Steps.expect s₁ .lbrace
      · exact (Steps.expect s₁ .lbrace).trans (moves_body hsub.moves _)
  obtain ⟨hnamesquiet, -⟩ := (moves_parameters (s.facing (opening :: us)) hs).diagnostics_eq
    hafter hquiet
  obtain ⟨ps, rest, n, close, rfl, hnames⟩ := exists_names hs hnamesquiet
  rcases expect_cases close.1 rest hs (show Kind.lbrace ≠ .eof by decide) with
    ⟨brace, us, rfl, hbrace, hbraced⟩ | ⟨hclosed, hloud⟩
  swap
  · simp [functionRule, hopened, hnames, hclosed, hloud] at hquiet
  have hbodyquiet : (body sub (s.facing (brace :: us))).2.diagnostics = s.diagnostics := by
    simpa [functionRule, hopened, hnames, hbraced] using hquiet
  have hready' : Ready (s.facing us) := hready.tail.tail.of_append.tail.tail
  obtain ⟨ts, rest, b, unbrace, rfl, hbody⟩ := hsub.exists_braced hready' hbodyquiet
  exact .of_atom
    (.function ⟨t, ht⟩ ⟨opening, hopen⟩ n close ⟨brace, hbrace⟩ b unbrace) (by simp)
    (primary_function hs ht hopen hbrace hnames hbody)

theorem Sound.builds_primary (hsub : Sound sub) {us : List Token} (hready : Ready (s.facing us))
    (hquiet : (primary sub (s.facing us)).2.diagnostics = s.diagnostics) :
    Builds .signed s us (primary sub (s.facing us)) := by
  obtain ⟨t, rest, rfl, hkind⟩ := mem_starters_of_primary hquiet
  by_cases hleaf : t.kind ∈ leaves
  · obtain ⟨e, he⟩ := exists_denotes (hready.spelled t (List.mem_cons_self ..)) hleaf hquiet
    exact .of_atom (.leaf e he) rfl (primary_of_denotes he)
  have hrest : t.kind = .bang ∨ t.kind = .minus ∨ t.kind = .lparen ∨ t.kind = .function ∨
      t.kind = .lbracket := by
    revert hkind hleaf
    cases t.kind <;> decide
  rcases hrest with h | h | h | h | h
  · have hoperator : UnaryOperator.ofKind? t.kind = some .bang := by rw [h]; rfl
    exact hsub.builds_unary hoperator hready hquiet
  · have hoperator : UnaryOperator.ofKind? t.kind = some .minus := by rw [h]; rfl
    exact hsub.builds_unary hoperator hready hquiet
  · exact hsub.builds_group h hready hquiet
  · exact hsub.builds_function h hready hquiet
  · exact hsub.builds_array h hready hquiet

/-! ## Expressions that a token continues -/

theorem Sound.builds_call (hsub : Sound sub) {ts rest : List Token} (d : Phrase .applied ts)
    {u : Token} (hu : u.kind = .lparen)
    (hlevel : (Stratum.above level).rank ≤ Stratum.applied.rank) (hready : Ready (s.facing rest))
    (hquiet : (callRule sub d.tree (s.facing (u :: rest))).2.diagnostics = s.diagnostics) :
    Builds (.above level) s (ts ++ u :: rest) (callRule sub d.tree (s.facing (u :: rest))) := by
  obtain ⟨us, rest, l, close, rfl, hread⟩ := hsub.exists_listing (by decide) hready hquiet
  exact ⟨.applied, _, rest, .call d ⟨u, hu⟩ l close, by simp, hlevel,
    Stratum.meetsAt_applied _, callRule_eq hread⟩

theorem Sound.builds_index (hsub : Sound sub) {ts rest : List Token} (d : Phrase .applied ts)
    {u : Token} (hu : u.kind = .lbracket)
    (hlevel : (Stratum.above level).rank ≤ Stratum.applied.rank) (hready : Ready (s.facing rest))
    (hquiet : (indexRule sub d.tree (s.facing (u :: rest))).2.diagnostics = s.diagnostics) :
    Builds (.above level) s (ts ++ u :: rest) (indexRule sub d.tree (s.facing (u :: rest))) := by
  have hs : s.abandoned = false := hready.going
  obtain ⟨hposition, hexpect⟩ := (hsub.moves .lowest (s.facing rest)).diagnostics_eq
    (Steps.expect _ .rbracket) hquiet
  obtain ⟨us, rest, e, rfl, -, hread⟩ :=
    hsub.derives .lowest s rest (Nat.zero_le _) hready hposition
  rw [hread] at hexpect
  obtain ⟨close, rest, rfl, hclose, -⟩ := exists_of_expect hs (by decide) hexpect
  exact ⟨.applied, _, rest, .index d ⟨u, hu⟩ e ⟨close, hclose⟩, by simp, hlevel,
    Stratum.meetsAt_applied _, indexRule_eq hs hclose hread⟩

theorem Sound.builds_binary (hsub : Sound sub) {u : Token} {ts rest : List Token}
    (d : Phrase (.ofLevel (.of u.kind)) ts) {operator : BinaryOperator}
    (hoperator : BinaryOperator.ofKind? u.kind = some operator)
    (hmem : u.kind ∈ (Stratum.ofLevel (.of u.kind)).operators) (hlt : level < .of u.kind)
    (hlevel : (Stratum.above level).rank ≤ Stratum.applied.rank) (hready : Ready (s.facing rest))
    (hquiet : (binaryRule sub d.tree operator (s.facing (u :: rest))).2.diagnostics
      = s.diagnostics) :
    Builds (.above level) s (ts ++ u :: rest)
      (binaryRule sub d.tree operator (s.facing (u :: rest))) := by
  have habove := Stratum.above_of_mem_operators hmem
  have hright := hsub.derives (.of u.kind) s rest
    (habove ▸ Stratum.tighter_le_of_mem_operators hmem) hready hquiet
  rw [Derives, habove] at hright
  obtain ⟨us, rest, e, rfl, hnext, hread⟩ := hright
  exact ⟨_, _, rest, .binary d u operator hmem hoperator e, by simp,
    Stratum.above_le_of_lt hlt hlevel, Stratum.meetsAt_of_not_lt hnext, binaryRule_eq hread⟩

/-- The phrase on the left and the token behind it, which continues it at this level, make a larger
phrase on the left. -/
theorem Sound.builds_continuation (hsub : Sound sub) {σ : Stratum} {ts rest : List Token}
    (d : Phrase σ ts) {u : Token} (hlevel : (Stratum.above level).rank ≤ Stratum.applied.rank)
    (hlt : level < .of u.kind) (hmeets : σ.MeetsAt u.kind) (hready : Ready (s.facing rest)) :
    ∃ rule, continuation? sub d.tree u.kind = some rule ∧
      ((rule (s.facing (u :: rest))).2.diagnostics = s.diagnostics →
        Builds (.above level) s (ts ++ u :: rest) (rule (s.facing (u :: rest)))) := by
  -- the token decides the stratum, and the phrase on the left counts as one of it
  rcases continuer_cases hlt with hu | hu | ⟨operator, hoperator, hmem⟩
  · rw [Stratum.MeetsAt, hu] at hmeets
    obtain ⟨left, htree, -⟩ := d.exists_looser .applied hmeets
    rw [hu, ← htree]
    exact ⟨_, rfl, hsub.builds_call left hu hlevel hready⟩
  · rw [Stratum.MeetsAt, hu] at hmeets
    obtain ⟨left, htree, -⟩ := d.exists_looser .applied hmeets
    rw [hu, ← htree]
    exact ⟨_, rfl, hsub.builds_index left hu hlevel hready⟩
  · obtain ⟨left, htree, -⟩ := d.exists_looser _ hmeets
    rw [← htree]
    exact ⟨_, continuation?_of_operator hoperator,
      hsub.builds_binary left hoperator hmem hlt hlevel hready⟩

/-! ## Expressions -/

/-- Where the loop ends, the phrase on the left is one of the stratum that was asked for. -/
theorem Derives.of_stop {σ : Stratum} {ts rest : List Token} (d : Phrase σ ts)
    (hσ : (Stratum.above level).rank ≤ σ.rank) (hstop : ¬level < .of (headKind rest)) :
    Derives level s (ts ++ rest) (chain room level d.tree (s.facing (d.last :: rest))) := by
  obtain ⟨d', htree, hlast, -⟩ := d.exists_looser _ hσ
  refine ⟨ts, rest, d', rfl, hstop, ?_⟩
  rw [chain_of_not_lt hstop, htree, hlast]

/-- What an expression begins with is only the first part of its run. -/
theorem steps_primary_expression (hs : s.abandoned = false) :
    Steps (primary (expression room) s).2 (expression (room + 1) level s).2 := by
  rw [expression]
  simp only [hs, Bool.false_eq_true, if_false]
  split
  · next s' heq => rw [heq]
  · next left s' heq => rw [heq]; exact moves_chain room level left s'

/-- One round of the loop is only the first part of its run. -/
theorem steps_rule_chain {left : Expr} {rule : Rule (Option Expr)} {t u : Token} {ts : List Token}
    (hs : s.abandoned = false) (hlevel : level < .of u.kind)
    (hrule : continuation? (expression room) left u.kind = some rule) :
    Steps (rule (s.facing (u :: ts))).2
      (chain (room + 1) level left (s.facing (t :: u :: ts))).2 := by
  have hgo : continues level (s.facing (t :: u :: ts)) = true := by
    rw [continues_facing, headKind_cons, decide_eq_true hlevel]
  rw [chain]
  simp only [hgo, State.abandoned_facing, hs, Bool.not_true, Bool.or_self, Bool.false_eq_true,
    if_false, State.advance_facing, List.tail_cons, State.current_facing_cons, hrule]
  split
  · next s' heq => rw [heq]
  · next left' s' heq => rw [heq]; exact moves_chain room level left' s'

/-- The loop derives what it reads, from the phrase that it has on the left. -/
def ChainSound (room : Nat) : Prop :=
  ∀ (level : Precedence) (s : State) (σ : Stratum) (ts rest : List Token) (d : Phrase σ ts),
    (Stratum.above level).rank ≤ Stratum.applied.rank → (Stratum.above level).rank ≤ σ.rank →
    σ.MeetsAt (headKind rest) → Ready (s.facing (ts ++ rest)) →
    (chain room level d.tree (s.facing (d.last :: rest))).2.diagnostics = s.diagnostics →
    Derives level s (ts ++ rest) (chain room level d.tree (s.facing (d.last :: rest)))

theorem chainSound_zero : ChainSound 0 := by
  intro level s σ ts rest d _ hσ _ hready hquiet
  by_cases hlt : level < .of (headKind rest)
  · rw [chain, continues_facing, decide_eq_true hlt, if_pos rfl] at hquiet
    exact absurd hquiet (diagnostics_abandon_ne hready.going)
  · exact .of_stop d hσ hlt

theorem chainSound_succ (hsub : Sound (expression room)) (hchain : ChainSound room) :
    ChainSound (room + 1) := by
  intro level s σ ts rest d hlevel hσ hmeets hready hquiet
  by_cases hlt : level < .of (headKind rest)
  swap
  · exact .of_stop d hσ hlt
  have hs : s.abandoned = false := hready.going
  have heof : headKind rest ≠ .eof := fun h ↦ by
    rw [h] at hlt
    exact absurd hlt (Nat.not_lt_zero _)
  obtain ⟨u, rest, rfl, -⟩ := exists_cons_of_headKind rfl heof
  obtain ⟨rule, hrule, hbuilds⟩ := hsub.builds_continuation d hlevel hlt hmeets
    hready.of_append.tail
  have hmoves : Steps (s.facing (u :: rest)) (rule (s.facing (u :: rest))).2 :=
    moves_continuation hsub.moves hrule _
  -- this round reports nothing, because the later ones only add to the diagnostics
  obtain ⟨hround, -⟩ := hmoves.diagnostics_eq (steps_rule_chain hs hlt hrule) hquiet
  obtain ⟨τ, us, rest', d', hus, hτ, hmeets', hrun⟩ := hbuilds hround
  rw [chain_succ hs hlt hrule hrun] at hquiet ⊢
  rw [hus] at hready ⊢
  exact hchain level s τ us rest' d' hlevel hτ hmeets' hready hquiet

theorem sound_expression_and_chain (room : Nat) :
    Sound (expression room) ∧ ChainSound room := by
  induction room with
  | zero =>
    refine ⟨⟨moves_expression 0, fun level s us _ hready hquiet ↦ ?_⟩, chainSound_zero⟩
    exact absurd hquiet (diagnostics_abandon_ne hready.going)
  | succ room ih =>
    obtain ⟨hsub, hchain⟩ := ih
    refine ⟨⟨moves_expression (room + 1), fun level s us hlevel hready hquiet ↦ ?_⟩,
      chainSound_succ hsub hchain⟩
    have hmoves : Steps (s.facing us) (primary (expression room) (s.facing us)).2 :=
      moves_primary hsub.moves _ hready.going
    obtain ⟨hprimary, -⟩ := hmoves.diagnostics_eq
      (steps_primary_expression hready.going) hquiet
    obtain ⟨σ, ts, rest, d, rfl, hσ, hmeets, hrun⟩ := hsub.builds_primary hready hprimary
    rw [expression_succ hready.going hrun] at hquiet ⊢
    exact hchain level s σ ts rest d hlevel ((Stratum.above_le_signed hlevel).trans hσ) hmeets
      hready hquiet

theorem sound_expression (room : Nat) : Sound (expression room) :=
  (sound_expression_and_chain room).1

end DrawScript.Grammar
