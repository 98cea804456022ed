import DrawScript.Proofs.Grammar.Documents
import DrawScript.Proofs.Token.Places

/-!
# Scripts that break off

A sound script that loses brackets and periods at its end still gives the same tree, and the loss is
reported if it was more than periods.

Every construct that waits for its closing token keeps what it has read when the tokens are over, so
the tree does not depend on the closing tokens. The proof follows the derivation of the whole script
with the last of its tokens taken away (`Phrase.expression_cut`). What a rule leaves behind is then
described by two relations alone: the parse has come to its end (`Halted`), and it has something new
to report (`Spoiled`).

In one case a rule does more than wait. A list that has lost its closing token and has no element
tries to read one, and gives up if there is no room. Whoever waits for a token after that reports
nothing, but there is a diagnostic already.
-/

namespace DrawScript.Grammar

open Token (Kind)
open DrawScript.Parser

variable {s s' : State} {sub : ExprRule} {room : Nat} {level : Precedence}

/-! ## Lost tokens -/

/-- The kinds that close a bracket. -/
def closers : List Kind :=
  [.rparen, .rbracket, .rbrace]

/-- The kinds that a script can lose at its end. -/
def losable : List Kind :=
  .period :: closers

theorem mem_closers_of_ne_period {kind : Kind} (h : kind ∈ losable) (hperiod : kind ≠ .period) :
    kind ∈ closers :=
  (List.mem_cons.mp h).resolve_left hperiod

theorem not_mem_losable_of_mem_starters {kind : Kind} (h : kind ∈ starters) : kind ∉ losable := by
  revert h
  cases kind <;> decide

theorem not_mem_losable_of_operator {kind : Kind} {operator : BinaryOperator}
    (h : BinaryOperator.ofKind? kind = some operator) : kind ∉ losable := by
  revert h
  cases kind <;> simp [BinaryOperator.ofKind?, losable, closers]

section Splitting

variable {α : Type} {xs ys us zs : List α}

/-- A cut through two parts is a cut through the second or through the inside of the first. -/
theorem append_eq_append_cases (h : xs ++ ys = us ++ zs) :
    (∃ as, us = xs ++ as ∧ ys = as ++ zs) ∨ ∃ cs, cs ≠ [] ∧ xs = us ++ cs ∧ zs = cs ++ ys := by
  rcases List.append_eq_append_iff.mp h with ⟨as, hus, hys⟩ | ⟨cs, hxs, hzs⟩
  · exact .inl ⟨as, hus, hys⟩
  · cases cs with
    | nil => exact .inl ⟨[], by simpa using hxs.symm, by simpa using hzs.symm⟩
    | cons c cs => exact .inr ⟨c :: cs, List.cons_ne_nil _ _, hxs, hzs⟩

theorem exists_of_concat_eq_append {x : α} (h : xs ++ [x] = us ++ zs) (hzs : zs ≠ []) :
    ∃ bs, xs = us ++ bs ∧ zs = bs ++ [x] := by
  rcases append_eq_append_cases h with ⟨as, hus, hx⟩ | ⟨cs, -, hxs, rfl⟩
  · obtain ⟨rfl, rfl⟩ : as = [] ∧ zs = [x] := by
      rcases List.append_eq_singleton_iff.mp hx.symm with h | h
      · exact h
      · exact absurd h.2 hzs
    exact ⟨[], by simpa using hus.symm, rfl⟩
  · exact ⟨cs, hxs, rfl⟩

end Splitting

section LostTokens

variable {ts us zs : List Token}

/-- What is kept begins as the whole, if anything is kept. -/
theorem headKind_kept (us zs : List Token) :
    headKind us = headKind (us ++ zs) ∨ headKind us = .eof := by
  cases us with
  | nil => exact .inr rfl
  | cons u us => exact .inl rfl

/-- A token that cannot be lost is kept, with everything before it. -/
theorem exists_of_kept (ps : List Token) {t : Token} (h : ps ++ t :: ts = us ++ zs)
    (ht : t.kind ∉ losable) (hzs : ∀ z ∈ zs, z.kind ∈ losable) :
    ∃ as, us = ps ++ t :: as ∧ ts = as ++ zs := by
  rcases append_eq_append_cases h with ⟨as, rfl, hts⟩ | ⟨cs, -, -, rfl⟩
  · cases as with
    | nil => exact absurd (hzs t (by rw [← List.nil_append zs, ← hts]; simp)) ht
    | cons a as =>
      obtain ⟨rfl, htail⟩ := List.cons.inj hts
      exact ⟨as, rfl, htail⟩
  · exact absurd (hzs t (by simp)) ht

/-- A bracket that is cut loses its closing token, and it may lose tokens of its inside. -/
theorem exists_of_bracket (ps : List Token) {opening close : Token}
    (h : ps ++ opening :: ts ++ [close] = us ++ zs)
    (hopening : opening.kind ∉ losable) (hzs : ∀ z ∈ zs, z.kind ∈ losable) (hne : zs ≠ []) :
    ∃ as bs, us = ps ++ opening :: as ∧ ts = as ++ bs ∧ ∀ b ∈ bs, b.kind ∈ losable := by
  obtain ⟨bs, hkept, rfl⟩ := exists_of_concat_eq_append h hne
  have hbs : ∀ b ∈ bs, b.kind ∈ losable := fun b hb ↦ hzs b (List.mem_append_left _ hb)
  obtain ⟨as, rfl, hts⟩ := exists_of_kept ps hkept hopening hbs
  exact ⟨as, bs, rfl, hts, hbs⟩

/-- No list of further expressions has losable tokens only. -/
theorem More.trees_eq_nil (d : More ts) (hts : ∀ t ∈ ts, t.kind ∈ losable) : d.trees = [] := by
  cases d with
  | done => rfl
  | item comma _ _ =>
    have hcomma := hts comma.1 (by simp)
    rw [comma.2] at hcomma
    exact absurd hcomma (by decide)

/-- The further expressions of a list do not continue the expression before them. -/
theorem More.of_headKind_eq_lowest (d : More ts) : Precedence.of (headKind ts) = .lowest := by
  have h := d.of_headKind_append (show Precedence.of (headKind []) = .lowest from rfl)
  rwa [List.append_nil] at h

/-- No statements have losable tokens only. -/
theorem Body.statements_eq_nil (d : Body ts) (hts : ∀ t ∈ ts, t.kind ∈ losable) :
    ts = [] ∧ d.statements = [] := by
  cases d with
  | done => exact ⟨rfl, rfl⟩
  | comment t _ =>
    have hcomment := hts t.1 (by simp)
    rw [t.2] at hcomment
    exact absurd hcomment (by decide)
  | expression value _ _ _ =>
    exact absurd (hts _ (by simp)) (not_mem_losable_of_mem_starters value.kind_mem_starters)

/-- What is left of later statements does not begin with a period. -/
theorem Body.headKind_kept_ne_period (d : Body ts) (h : ts = us ++ zs) :
    headKind us ≠ .period := by
  have hall := d.headKind_append_ne_period (show headKind [] ≠ .period from Kind.noConfusion)
  rw [List.append_nil, h] at hall
  rcases headKind_kept us zs with hhead | hhead <;> rw [hhead]
  · exact hall
  · exact Kind.noConfusion

theorem of_headKind_periods (periods : List (TokenOf .period))
    (hsplit : periods = [] → ∀ u ∈ us.head?, u.kind ∉ continuers) :
    Precedence.of (headKind (periods.map (·.1) ++ us)) = .lowest := by
  have h : Precedence.of (headKind (periods.map (·.1) ++ (us ++ []))) = .lowest :=
    Body.of_headKind_eq_lowest periods hsplit fun _ _ ↦ by decide
  rwa [List.append_nil] at h

/-- An expression ends with a token that is not a period, so that a cut loses such a token. -/
theorem Phrase.exists_closer {σ : Stratum} (d : Phrase σ ts) (h : ts = us ++ zs) (hne : zs ≠ [])
    (hzs : ∀ z ∈ zs, z.kind ∈ losable) : ∃ z ∈ zs, z.kind ∈ closers := by
  subst h
  have hlast := d.getLast?_eq
  rw [List.getLast?_append, List.getLast?_eq_some_getLast hne, Option.some_or,
    Option.some.injEq] at hlast
  have hmem : d.last ∈ zs := hlast ▸ List.getLast_mem hne
  refine ⟨d.last, hmem, mem_closers_of_ne_period (hzs _ hmem) ?_⟩
  intro hperiod
  have hfinisher := d.kind_last_mem_finishers
  rw [hperiod] at hfinisher
  exact absurd hfinisher (by decide)

end LostTokens

/-! ## The end of the tokens -/

/-- The parse has come to the end of its tokens, and if it was given up, it says so. -/
structure Halted (s s' : State) : Prop where
  tail_pending : s'.pending.tail = []
  size_le : s.diagnostics.size ≤ s'.diagnostics.size
  size_lt : s'.abandoned = true → s.diagnostics.size < s'.diagnostics.size

/-- The parse has come to the end of its tokens and has something new to report. -/
structure Spoiled (s s' : State) : Prop where
  tail_pending : s'.pending.tail = []
  size_lt : s.diagnostics.size < s'.diagnostics.size

theorem Spoiled.halted (h : Spoiled s s') : Halted s s' :=
  ⟨h.tail_pending, Nat.le_of_lt h.size_lt, fun _ ↦ h.size_lt⟩

theorem halted_facing {ts : List Token} (hs : s.abandoned = false) (hts : ts.tail = []) :
    Halted s (s.facing ts) :=
  ⟨hts, Nat.le_refl _, fun h ↦ absurd (hs.symm.trans h) Bool.false_ne_true⟩

theorem kind_peek_of_tail_pending (h : s.pending.tail = []) : s.peek.kind = .eof := by
  rw [State.peek, h]
  rfl

theorem chain_of_tail_pending {left : Expr} (h : s.pending.tail = []) :
    chain room level left s = (some left, s) := by
  refine chain_of_not_continues ?_
  rw [continues, kind_peek_of_tail_pending h]
  cases level <;> decide

theorem moreItems_of_tail_pending {α : Type} {item : Rule (Option α)} {bound : Nat}
    (h : s.pending.tail = []) : moreItems item bound s = ([], s) := by
  cases bound with
  | zero => rfl
  | succ bound =>
    rw [moreItems, kind_peek_of_tail_pending h]
    rfl

theorem skipPeriods_of_tail_pending (h : s.pending.tail = []) : s.skipPeriods = s := by
  rw [State.skipPeriods_eq, kind_peek_of_tail_pending h, if_neg Kind.noConfusion]

/-- Whoever waits for a token at the end reports it, unless the parse was given up and that is
reported already. -/
theorem Halted.expect {kind : Kind} (h : Halted s s') (hkind : kind ≠ .eof) :
    (s'.expect kind).1 = false ∧ Spoiled s (s'.expect kind).2 := by
  rw [State.expect]
  split_ifs with habandoned hpeek
  · exact ⟨rfl, h.tail_pending, h.size_lt habandoned⟩
  · exact absurd (hpeek.symm.trans (kind_peek_of_tail_pending h.tail_pending)) hkind
  · refine ⟨rfl, h.tail_pending, ?_⟩
    rw [State.report, Array.size_push]
    exact Nat.lt_succ_of_le h.size_le

/-- No expression is found at the end. -/
theorem exists_expression_facing_nil (room : Nat) (level : Precedence) (hs : s.abandoned = false) :
    ∃ s', expression room level (s.facing []) = (none, s') ∧ Spoiled s s' := by
  cases room with
  | zero =>
    refine ⟨_, rfl, ?_⟩
    rw [State.abandon, State.abandoned_facing, hs]
    exact ⟨rfl, by simp [State.report, State.facing]⟩
  | succ room =>
    refine ⟨(s.facing []).report (.missingPrefixRule .eof) (.eof s.stop), ?_, rfl, ?_⟩
    · rw [expression, State.abandoned_facing, hs]
      rfl
    · simp [State.report, State.facing]

/-! ## Constructs without their closing token -/

theorem Halted.expressionList {ts : List Token} {kind : Kind} {es : List Expr} (opening : Token)
    (hkind : kind ≠ .eof) (hfirst : headKind ts ≠ kind)
    (hitems : items (sub .lowest) (s.facing ts) = (es, s')) (h : Halted s s') :
    ∃ s'', expressionList sub kind (s.facing (opening :: ts)) = (es, s'') ∧ Spoiled s s'' := by
  obtain ⟨hclosed, hspoiled⟩ := h.expect hkind
  refine ⟨(s'.expect kind).2.logUnclosed kind, ?_, hspoiled.tail_pending, hspoiled.size_lt⟩
  simp [Parser.expressionList, kind_current_facing, hfirst, hitems, hclosed]

theorem Halted.body {ts : List Token} {statements : List Stmt} (brace : Token)
    (hread : statementsUntil sub endsBody ts.length (s.facing ts) = (statements, s'))
    (h : Halted s s') (hend : s'.pending = []) :
    ∃ s'', body sub (s.facing (brace :: ts)) = (statements, s'') ∧ Spoiled s s'' := by
  have hcurrent : s'.current.kind = .eof := by rw [State.current, hend]; rfl
  simp only [Parser.body, State.advance_facing, List.tail_cons, State.pending_facing, hread,
    hcurrent, true_and]
  split_ifs with hgoing
  · refine ⟨_, rfl, h.tail_pending, ?_⟩
    rw [State.report, Array.size_push]
    exact Nat.lt_succ_of_le h.size_le
  · exact ⟨_, rfl, h.tail_pending, h.size_lt (by simpa using hgoing)⟩

theorem Spoiled.expression_of_chain {ts : List Token} {left : Expr} {room' : Nat}
    (h : Spoiled s s')
    (hread : expression room level (s.facing ts) = chain room' level left s') :
    ∃ s'', expression room level (s.facing ts) = (some left, s'') ∧ Spoiled s s'' :=
  ⟨s', by rw [hread, chain_of_tail_pending h.tail_pending], h⟩

theorem Spoiled.expression_of_primary {ts : List Token} {left : Expr} (h : Spoiled s s')
    (hs : s.abandoned = false)
    (hread : primary (expression room) (s.facing ts) = (some left, s')) :
    ∃ s'', expression (room + 1) level (s.facing ts) = (some left, s'') ∧ Spoiled s s'' :=
  h.expression_of_chain (expression_succ (s := s.facing ts) hs hread)

/-- A phrase at the end of the tokens is read, whether it is whole or cut. -/
theorem Phrase.exists_halted {ts us zs : List Token} (d : Phrase .equality ts) (room : Nat)
    (h : ts = us ++ zs) (hs : s.abandoned = false) (hroom : d.levels ≤ room)
    (hcut : zs ≠ [] → ∃ s', expression room .lowest (s.facing us) = (some d.tree, s') ∧
      Spoiled s s') :
    ∃ s', expression room .lowest (s.facing us) = (some d.tree, s') ∧ Halted s s' := by
  by_cases hne : zs = []
  · obtain rfl : ts = us := by rw [h, hne, List.append_nil]
    have hread := read_of_eq_chain (d.expression_eq_chain room .lowest s [] hs (Nat.zero_le _)
      (.of_lowest _ rfl) hroom) (by decide)
    rw [List.append_nil] at hread
    exact ⟨_, hread, halted_facing hs rfl⟩
  · obtain ⟨s', hread, hspoiled⟩ := hcut hne
    exact ⟨s', hread, hspoiled.halted⟩

/-- Expressions behind one another at the end of the tokens are read, if they are read when the cut
goes through the first and when it goes through the others. -/
theorem exists_items_cut {ts us vs zs : List Token} (first : Phrase .equality ts) (more : More us)
    (h : ts ++ us = vs ++ zs) (hzs : ∀ z ∈ zs, z.kind ∈ losable) (hs : s.abandoned = false)
    (hroom : first.levels ≤ room)
    (hfirst : ∀ cs, ts = vs ++ cs → cs ≠ [] → (∀ c ∈ cs, c.kind ∈ losable) →
      ∃ s', expression room .lowest (s.facing vs) = (some first.tree, s') ∧ Spoiled s s')
    (hmore : ∀ bound as, us = as ++ zs → as.length ≤ bound →
      ∃ s', moreItems (expression room .lowest) bound (s.facing (first.last :: as))
        = (more.trees, s') ∧ Halted s s') :
    ∃ s₁, expression room .lowest (s.facing vs) = (some first.tree, s₁) ∧
      ∀ bound, s₁.pending.length ≤ bound →
        ∃ s', moreItems (expression room .lowest) bound s₁ = (more.trees, s') ∧ Halted s s' := by
  rcases append_eq_append_cases h with ⟨as, rfl, hus⟩ | ⟨cs, hcs, hts, rfl⟩
  · -- what is left of the others begins with a comma or is nothing
    have hnext : Precedence.of (headKind as) = .lowest := by
      rcases headKind_kept as zs with hhead | hhead
      · rw [hhead, ← hus]
        exact more.of_headKind_eq_lowest
      · rw [hhead]
        rfl
    have hread := read_of_eq_chain (first.expression_eq_chain room .lowest s as hs (Nat.zero_le _)
      (.of_lowest _ hnext) hroom) (by rw [hnext]; decide)
    exact ⟨_, hread, fun bound hbound ↦ hmore bound as hus (Nat.le_of_succ_le hbound)⟩
  · obtain ⟨s₁, hread, hspoiled⟩ :=
      hfirst cs hts hcs fun c hc ↦ hzs c (List.mem_append_left _ hc)
    refine ⟨s₁, hread, fun bound _ ↦ ⟨s₁, ?_, hspoiled.halted⟩⟩
    rw [more.trees_eq_nil fun t ht ↦ hzs t (List.mem_append_right _ ht)]
    exact moreItems_of_tail_pending hspoiled.tail_pending

section Statements

variable {t : Token} {ts : List Token} {ends : Kind → Bool} {bound : Nat}

/-- An expression statement that nothing follows but its periods. -/
theorem Phrase.statementsUntil_last (value : Phrase .equality (t :: ts))
    (periods : List (TokenOf .period)) (hs : s.abandoned = false) (hends : EndsAt ends .eof)
    (hroom : value.levels ≤ room) :
    statementsUntil (expression room) ends (bound + 1) (s.facing (t :: ts ++ periods.map (·.1)))
      = ([.expression t value.tree], s.facing []) := by
  have hfollow : Precedence.of (headKind (periods.map (·.1) ++ [])) = .lowest :=
    of_headKind_periods periods fun _ _ h ↦ absurd h (Option.not_mem_none _)
  have hstop : statementsUntil (expression room) ends bound (s.facing []) = ([], s.facing []) :=
    statementsUntil_stop hends.here
  have hread := value.statementsUntil_step periods hs hroom hends.not_starter hfollow
    Kind.noConfusion hstop
  rwa [List.append_nil] at hread

/-- An expression statement with which the tokens end. -/
theorem Spoiled.statementsUntil {e : Expr} (h : Spoiled s s') (hs : s.abandoned = false)
    (hends : EndsAt ends .eof) (ht : t.kind ∈ starters)
    (hread : expression room .lowest (s.facing (t :: ts)) = (some e, s')) :
    statementsUntil (expression room) ends (bound + 1) (s.facing (t :: ts))
      = ([.expression t e], s'.advance) := by
  have hstatement := statement_expression (kind_ne_comment_of_mem_starters ht) hread
    (skipPeriods_of_tail_pending h.tail_pending)
  exact statementsUntil_step hs (hends.not_starter _ ht) hstatement
    (statementsUntil_of_pending_eq_nil (s := s'.advance) hends.here h.tail_pending bound)

end Statements

/-! ## Derivations that are cut -/

/-- Statements that were read up to the end of the tokens, of which some are lost. -/
structure BrokenOff (lost : List Token) (s s' : State) : Prop extends Halted s s' where
  pending_eq : s'.pending = []
  size_lt_iff : s.diagnostics.size < s'.diagnostics.size ↔ ∃ t ∈ lost, t.kind ∈ closers

theorem BrokenOff.of_periods {lost : List Token} (hs : s.abandoned = false)
    (hlost : ∀ t ∈ lost, t.kind = .period) : BrokenOff lost s (s.facing []) where
  toHalted := halted_facing hs rfl
  pending_eq := rfl
  size_lt_iff := by
    refine ⟨fun h ↦ absurd h (Nat.lt_irrefl _), ?_⟩
    rintro ⟨t, ht, hcloser⟩
    rw [hlost t ht] at hcloser
    exact absurd hcloser (by decide)

theorem BrokenOff.of_spoiled {lost : List Token} (h : Spoiled s s')
    (hlost : ∃ t ∈ lost, t.kind ∈ closers) : BrokenOff lost s s'.advance where
  tail_pending := by rw [State.pending_advance, h.tail_pending, List.tail_nil]
  size_le := h.halted.size_le
  size_lt := fun _ ↦ h.size_lt
  pending_eq := h.tail_pending
  size_lt_iff := ⟨fun _ ↦ hlost, fun _ ↦ h.size_lt⟩

theorem endsBody_eof : EndsAt endsBody .eof := by
  constructor <;> decide

mutual

/-- **Phrases that are cut are read.** The tree is that of the whole phrase, and something is
reported. -/
theorem Phrase.expression_cut {σ : Stratum} {ts : List Token} :
    (d : Phrase σ ts) → ∀ (room : Nat) (level : Precedence) (s : State) (us zs : List Token),
      ts = us ++ zs → zs ≠ [] → (∀ z ∈ zs, z.kind ∈ losable) → s.abandoned = false →
      (Stratum.above level).rank ≤ σ.rank → d.levels ≤ room →
      ∃ s', expression room level (s.facing us) = (some d.tree, s') ∧ Spoiled s s'
  | @Phrase.leaf t e h => by
    intro room level s us zs heq hne hzs
    obtain ⟨as, rfl, hnil⟩ := exists_of_kept [] heq
      (not_mem_losable_of_mem_starters (kind_mem_starters_of_denotes h)) hzs
    exact absurd (List.append_eq_nil_iff.mp hnil.symm).2 hne
  | .group opening inner close => by
    rintro (_ | room) level s us zs heq hne hzs hs - hroom
    · cases hroom
    obtain ⟨as, bs, rfl, hts, hbs⟩ := exists_of_bracket [] heq
      (by rw [opening.2]; decide) hzs hne
    have hlevels := Nat.le_of_succ_le_succ hroom
    obtain ⟨s', hread, hhalted⟩ := inner.exists_halted room hts hs hlevels fun hne' ↦
      inner.expression_cut room .lowest s as bs hts hne' hbs hs (Nat.zero_le _) hlevels
    exact (hhalted.expect Kind.noConfusion).2.expression_of_primary hs
      (primary_lparen opening.2 hread)
  | .array opening elements close => by
    rintro (_ | room) level s us zs heq hne hzs hs - hroom
    · cases hroom
    obtain ⟨as, bs, rfl, hts, hbs⟩ := exists_of_bracket [] heq
      (by rw [opening.2]; decide) hzs hne
    obtain ⟨s', hlist, hspoiled⟩ := elements.expressionList_cut room s opening.1 as bs .rbracket
      hts hbs hs (.inr rfl) (Nat.le_of_succ_le_succ hroom)
    exact hspoiled.expression_of_primary hs (primary_array opening.2 hlist)
  | @Phrase.function ps ts keyword opening parameters close brace body unbrace => by
    rintro (_ | room) level s us zs heq hne hzs hs - hroom
    · cases hroom
    obtain ⟨as, bs, rfl, hts, hbs⟩ := exists_of_bracket
      (keyword.1 :: opening.1 :: ps ++ [close.1]) (by simpa using heq)
      (by rw [brace.2]; decide) hzs hne
    obtain ⟨s', hread, hbroken⟩ := body.statementsUntil_cut room as.length s endsBody as bs hts hbs
      hs endsBody_eof (Nat.le_refl _) (Nat.le_of_succ_le_succ hroom)
    obtain ⟨s'', hbody, hspoiled⟩ := hbroken.toHalted.body brace.1 hread hbroken.pending_eq
    have hnames := parameters.parameters_eq opening.1 (brace.1 :: as) hs close.2
    simp only [List.cons_append, List.append_assoc, List.nil_append]
    exact hspoiled.expression_of_primary hs
      (primary_function hs keyword.2 opening.2 brace.2 hnames hbody)
  | @Phrase.call fs ts callee opening arguments close => by
    intro room level s us zs heq hne hzs hs hlevel hroom
    rw [Phrase.levels] at hroom
    obtain ⟨as, bs, rfl, hts, hbs⟩ := exists_of_bracket _ heq (by rw [opening.2]; decide) hzs hne
    have hcallee := callee.expression_eq_chain room level s (opening.1 :: as) hs hlevel
      (Stratum.meetsAt_applied _) (by omega)
    obtain ⟨s', hlist, hspoiled⟩ := arguments.expressionList_cut (room - 2 - callee.folds) s
      opening.1 as bs .rparen hts hbs hs (.inl rfl) (by omega)
    have hcall : level < .of opening.1.kind := by
      rw [opening.2]; exact (Stratum.lt_call_of_above hlevel).1
    exact hspoiled.expression_of_chain (expression_eq_chain_of_continued hs (by omega) hcall
      hcallee (by rw [opening.2]; rfl) (callRule_eq hlist))
  | @Phrase.index ls ts left opening position close => by
    intro room level s us zs heq hne hzs hs hlevel hroom
    rw [Phrase.levels] at hroom
    obtain ⟨as, bs, rfl, hts, hbs⟩ := exists_of_bracket _ heq (by rw [opening.2]; decide) hzs hne
    have hleft := left.expression_eq_chain room level s (opening.1 :: as) hs hlevel
      (Stratum.meetsAt_applied _) (by omega)
    obtain ⟨s', hread, hhalted⟩ := position.exists_halted (room - 2 - left.folds) hts hs
      (by omega) fun hne' ↦ position.expression_cut (room - 2 - left.folds) .lowest s as bs hts
        hne' hbs hs (Nat.zero_le _) (by omega)
    have hindex : level < .of opening.1.kind := by
      rw [opening.2]; exact (Stratum.lt_call_of_above hlevel).2
    exact (hhalted.expect Kind.noConfusion).2.expression_of_chain
      (expression_eq_chain_of_continued hs (by omega) hindex hleft (by rw [opening.2]; rfl)
        (indexRule_lbracket hread))
  | .unary t operator ht right => by
    rintro (_ | room) level s us zs heq hne hzs hs - hroom
    · cases hroom
    obtain ⟨as, rfl, hts⟩ := exists_of_kept [] heq
      (not_mem_losable_of_mem_starters (kind_mem_starters_of_unary ht)) hzs
    obtain ⟨s', hread, hspoiled⟩ := right.expression_cut room .unary s as zs hts hne hzs hs
      (Nat.le_refl _) (Nat.le_of_succ_le_succ hroom)
    exact hspoiled.expression_of_primary hs (primary_unary ht hread)
  | @Phrase.binary σ ls rs left t operator hσ ht right => by
    intro room level s us zs heq hne hzs hs hlevel hroom
    rw [Phrase.levels] at hroom
    obtain ⟨as, rfl, hts⟩ := exists_of_kept _ heq (not_mem_losable_of_operator ht) hzs
    have hleft := left.expression_eq_chain room level s (t :: as) hs hlevel
      (Stratum.meetsAt_of_mem_operators hσ) (by omega)
    obtain ⟨s', hread, hspoiled⟩ := right.expression_cut (room - 2 - left.folds) (.of t.kind) s as
      zs hts hne hzs hs (by rw [Stratum.above_of_mem_operators hσ]) (by omega)
    exact hspoiled.expression_of_chain (expression_eq_chain_of_continued hs (by omega)
      (Stratum.lt_of_mem_operators hσ hlevel) hleft (continuation?_of_operator ht)
      (binaryRule_eq hread))
  | .tighter _ inner => by
    intro room level s us zs heq hne hzs hs hlevel hroom
    exact inner.expression_cut room level s us zs heq hne hzs hs
      (hlevel.trans (Stratum.rank_le_rank_tighter _)) hroom

/-- A list without its closing token has the same elements, whatever else is lost. -/
theorem Listing.expressionList_cut {ts : List Token} :
    (d : Listing ts) → ∀ (room : Nat) (s : State) (opening : Token) (us zs : List Token)
      (kind : Kind), ts = us ++ zs → (∀ z ∈ zs, z.kind ∈ losable) → s.abandoned = false →
      kind = .rparen ∨ kind = .rbracket → d.levels ≤ room →
      ∃ s', expressionList (expression room) kind (s.facing (opening :: us)) = (d.trees, s') ∧
        Spoiled s s'
  | .empty => by
    intro room s opening us zs kind heq _ hs hkind _
    obtain ⟨rfl, -⟩ := List.append_eq_nil_iff.mp heq.symm
    obtain ⟨s', hread, hspoiled⟩ := exists_expression_facing_nil room .lowest hs
    have hitems : items (expression room .lowest) (s.facing []) = ([], s') := by
      simp [items, hread, moreItems_of_tail_pending hspoiled.tail_pending]
    refine hspoiled.halted.expressionList opening ?_ ?_ hitems
    all_goals rcases hkind with rfl | rfl <;> exact Kind.noConfusion
  | @Listing.items ts us first more => by
    intro room s opening vs zs kind heq hzs hs hkind hroom
    rw [Listing.levels] at hroom
    obtain ⟨s₁, hread, hmore⟩ := exists_items_cut first more heq hzs hs (by omega)
      (fun cs hts hne hcs ↦ first.expression_cut room .lowest s vs cs hts hne hcs hs
        (Nat.zero_le _) (by omega))
      (fun bound as hus hbound ↦ more.moreItems_cut room bound s first.last as zs hus hzs hs hbound
        (by omega))
    obtain ⟨s', hrest, hhalted⟩ := hmore _ (Nat.le_refl _)
    have hclose : kind ≠ .eof := by rcases hkind with rfl | rfl <;> exact Kind.noConfusion
    have hfirst : headKind vs ≠ kind := by
      rcases headKind_kept vs zs with hhead | hhead <;> rw [hhead]
      · exact heq ▸ first.headKind_ne_close hkind
      · exact hclose.symm
    exact hhalted.expressionList opening hclose hfirst (items_eq hread hrest)

theorem More.moreItems_cut {ts : List Token} :
    (d : More ts) → ∀ (room bound : Nat) (s : State) (last : Token) (us zs : List Token),
      ts = us ++ zs → (∀ z ∈ zs, z.kind ∈ losable) → s.abandoned = false → us.length ≤ bound →
      d.levels ≤ room →
      ∃ s', moreItems (expression room .lowest) bound (s.facing (last :: us)) = (d.trees, s') ∧
        Halted s s'
  | .done => by
    intro room bound s last us zs heq _ hs _ _
    obtain ⟨rfl, -⟩ := List.append_eq_nil_iff.mp heq.symm
    exact ⟨_, moreItems_of_tail_pending rfl, halted_facing hs rfl⟩
  | @More.item ts us comma next more => by
    rintro room bound s last vs zs heq hzs hs hbound hroom
    rw [More.levels] at hroom
    obtain ⟨ws, rfl, hts⟩ := exists_of_kept [] heq (by rw [comma.2]; decide) hzs
    cases bound with
    | zero => simp at hbound
    | succ bound =>
      obtain ⟨s₁, hread, hmore⟩ := exists_items_cut next more hts hzs hs (by omega)
        (fun cs hts hne hcs ↦ next.expression_cut room .lowest s ws cs hts hne hcs hs
          (Nat.zero_le _) (by omega))
        (fun bound as hus hbound ↦ more.moreItems_cut room bound s next.last as zs hus hzs hs
          hbound (by omega))
      -- the first expression has not used up more tokens than there are
      have hleft : s₁.pending.length ≤ ws.length := by
        have hmoves := (moves_expression room .lowest (s.facing ws)).pending_suffix.length_le
        rwa [hread] at hmoves
      obtain ⟨s', hrest, hhalted⟩ := hmore bound (hleft.trans (Nat.le_of_succ_le_succ hbound))
      exact ⟨s', moreItems_step comma.2 hread hrest, hhalted⟩

/-- Statements of which the end is lost are read. -/
theorem Body.statementsUntil_cut {ts : List Token} :
    (d : Body ts) → ∀ (room bound : Nat) (s : State) (ends : Kind → Bool) (us zs : List Token),
      ts = us ++ zs → (∀ z ∈ zs, z.kind ∈ losable) → s.abandoned = false → EndsAt ends .eof →
      us.length ≤ bound → d.levels ≤ room →
      ∃ s', statementsUntil (expression room) ends bound (s.facing us) = (d.statements, s') ∧
        BrokenOff zs s s'
  | .done => by
    intro room bound s ends us zs heq _ hs hends _ _
    obtain ⟨rfl, rfl⟩ := List.append_eq_nil_iff.mp heq.symm
    exact ⟨_, statementsUntil_stop hends.here, .of_periods hs (fun _ h ↦ absurd h List.not_mem_nil)⟩
  | @Body.comment ts t more => by
    intro room bound s ends us zs heq hzs hs hends hbound hroom
    obtain ⟨as, rfl, hts⟩ := exists_of_kept [] heq (by rw [t.2]; decide) hzs
    cases bound with
    | zero => simp at hbound
    | succ bound =>
      obtain ⟨s', hread, hbroken⟩ := more.statementsUntil_cut room bound s ends as zs hts hzs hs
        hends (Nat.le_of_succ_le_succ hbound) hroom
      have hend : ends (headKind (t.1 :: as)) = false := by
        rw [headKind_cons, t.2]
        exact hends.not_comment
      exact ⟨s', statementsUntil_step hs hend (statement_comment t _) hread, hbroken⟩
  | @Body.expression t ts us value periods split more => by
    intro room bound s ends vs zs heq hzs hs hends hbound hroom
    rw [Body.levels] at hroom
    have hstarter := value.kind_mem_starters
    rw [List.append_assoc] at heq
    obtain ⟨as, rfl, -⟩ := exists_of_kept [] heq
      (not_mem_losable_of_mem_starters hstarter) hzs
    cases bound with
    | zero => simp at hbound
    | succ bound =>
    rcases append_eq_append_cases heq with ⟨ws, hws, hrest⟩ | ⟨cs, hne, hvalue, rfl⟩
    · obtain rfl : as = ts ++ ws := (List.cons.inj hws).2
      rcases append_eq_append_cases hrest with ⟨bs, rfl, hus⟩ | ⟨cs, -, hperiods, rfl⟩
      · -- the cut goes through a later statement
        obtain ⟨s', hread, hbroken⟩ := more.statementsUntil_cut room bound s ends bs zs hus hzs hs
          hends (by simp at hbound; omega) (by omega)
        have hsplit : periods = [] → ∀ u ∈ bs.head?, u.kind ∉ continuers := fun hperiods u hu ↦
          split hperiods u (by rw [hus, List.head?_append, Option.mem_def.mp hu]; rfl)
        exact ⟨s', value.statementsUntil_step periods hs (by omega) hends.not_starter
          (of_headKind_periods periods hsplit) (more.headKind_kept_ne_period hus) hread, hbroken⟩
      · -- the cut goes through the periods, and there is no later statement
        obtain ⟨kept, lost, rfl, rfl, rfl⟩ := List.map_eq_append_iff.mp hperiods
        obtain ⟨hus, hstatements⟩ := more.statements_eq_nil fun u hu ↦ hzs u (by simp [hu])
        have hlost : ∀ z ∈ lost.map (·.1) ++ us, z.kind = .period := by
          rw [hus, List.append_nil]
          exact List.forall_mem_map.mpr fun period _ ↦ period.2
        refine ⟨_, ?_, .of_periods hs hlost⟩
        rw [Body.statements, hstatements]
        exact value.statementsUntil_last kept hs hends (by omega)
    · -- the cut goes through the expression, and there is no later statement
      obtain ⟨-, hstatements⟩ := more.statements_eq_nil fun u hu ↦ hzs u (by simp [hu])
      have hcs : ∀ c ∈ cs, c.kind ∈ losable := fun c hc ↦ hzs c (List.mem_append_left _ hc)
      obtain ⟨s₁, hread, hspoiled⟩ := value.expression_cut room .lowest s (t :: as) cs hvalue hne
        hcs hs (Nat.zero_le _) (by omega)
      obtain ⟨c, hc, hcloser⟩ := value.exists_closer hvalue hne hcs
      refine ⟨s₁.advance, ?_, .of_spoiled hspoiled ⟨c, List.mem_append_left _ hc, hcloser⟩⟩
      rw [Body.statements, hstatements]
      exact hspoiled.statementsUntil hs hends hstarter hread

end

/-! ## Documents -/

/-- The text of a source up to the end of the last of the given tokens. -/
def textUpToLast (kept : List Token) (source : String) : String :=
  .ofList (Token.textUpTo ((kept.getLast?.map (·.span.stop)).getD 0) source.toList)

/-- A source that is cut behind a token has the tokens up to there. -/
theorem scan_textUpToLast {source : String} {kept lost : List Token}
    (h : Token.scan 0 0 source.toList = kept ++ lost) :
    Token.scan 0 0 (textUpToLast kept source).toList = kept := by
  by_cases hkept : kept = []
  · subst hkept
    have hnone : Token.textUpTo 0 source.toList = [] :=
      Token.textUpTo_append [] source.toList
    simp [textUpToLast, hnone, Token.scan]
  · obtain ⟨xs, ys, hsource, hscan, hstop⟩ := Token.exists_cut hkept h
    rw [Nat.zero_add] at hstop
    simp [textUpToLast, List.getLast?_eq_some_getLast hkept, ← hstop, hsource,
      Token.textUpTo_append, hscan]

/-- What the parser makes of a source that has lost the end of a derivation. -/
theorem Body.document_eq_of_cut {source : String} {ts kept lost : List Token} (d : Body ts)
    (h : ts = kept ++ lost) (hlost : ∀ t ∈ lost, t.kind ∈ losable)
    (hlevels : d.levels ≤ nestingLimit) (hscan : Token.scan 0 0 source.toList = kept) :
    (Document.ofSource source).program = ⟨d.statements⟩ ∧
      ((Document.ofSource source).diagnostics ≠ [] ↔ ∃ t ∈ lost, t.kind ∈ closers) := by
  obtain ⟨s', hread, hbroken⟩ := d.statementsUntil_cut nestingLimit kept.length (.ofSource source)
    (· == .eof) kept lost h hlost rfl endsAt_eof (Nat.le_refl _) hlevels
  rw [← hscan] at hread
  have hrun : Parser.program (.ofSource source) = (⟨d.statements⟩, s') :=
    congrArg (fun run : List Stmt × State ↦ ((⟨run.1⟩ : Program), run.2)) hread
  rw [Document.ofSource, hrun, ← hbroken.size_lt_iff, ← List.length_pos_iff, Array.length_toList]
  exact ⟨rfl, Iff.rfl⟩

/-- **A script that breaks off keeps its tree.** If the tokens that a sound source loses at its end
are brackets that close and periods, the program is the same, and something is reported exactly if
a bracket is among them. -/
theorem document_cut (source : String) (kept lost : List Token)
    (hclean : (Document.ofSource source).isClean = true)
    (htokens : (Token.tokenize source).dropLast = kept ++ lost)
    (hlost : ∀ t ∈ lost, t.kind ∈ losable) :
    (Document.ofSource (textUpToLast kept source)).program = (Document.ofSource source).program ∧
      ((Document.ofSource (textUpToLast kept source)).diagnostics ≠ [] ↔
        ∃ t ∈ lost, t.kind ∈ closers) := by
  rw [dropLast_tokenize] at htokens
  obtain ⟨d, hprogram⟩ := exists_body_of_isClean hclean
  have hlevels := d.levels_le_iff.mpr (not_isTooDeep_of_isClean hclean)
  rw [hprogram]
  exact d.document_eq_of_cut htokens hlost hlevels (scan_textUpToLast htokens)

/-- All closing tokens of nested constructs can be lost at once. The innermost call has no argument
and then looks for one at the end. -/
theorem document_cut_nested :
    (Document.ofSource "[1, -g(a[(f())])].").isClean = true ∧
      (Document.ofSource "[1, -g(a[(f(").program
        = (Document.ofSource "[1, -g(a[(f())])].").program ∧
      (Document.ofSource "[1, -g(a[(f(").diagnostics ≠ [] := by
  have hclean : (Document.ofSource "[1, -g(a[(f())])].").isClean = true := by decide +kernel
  have htext : textUpToLast ((Token.tokenize "[1, -g(a[(f())])].").take 11) "[1, -g(a[(f())])]."
      = "[1, -g(a[(f(" := by decide +kernel
  have hcut := document_cut "[1, -g(a[(f())])]."
    ((Token.tokenize "[1, -g(a[(f())])].").take 11)
    (((Token.tokenize "[1, -g(a[(f())])].").drop 11).take 6)
    hclean (by decide +kernel) (by decide +kernel)
  rw [htext] at hcut
  exact ⟨hclean, hcut.1, hcut.2.mpr (by decide +kernel)⟩

end DrawScript.Grammar
