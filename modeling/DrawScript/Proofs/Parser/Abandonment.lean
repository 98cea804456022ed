import DrawScript.Proofs.Parser.Order
import DrawScript.Proofs.Parser.Visited
import Mathlib.Logic.Function.Iterate

/-!
# Giving up is final

When expressions are nested too deeply the parse is given up in the middle of the rules that are at
work. These are left one by one, and on the way out they still advance, look for closing tokens and
build nodes. None of this shows: nothing is reported any more, and no token is kept that was not at
hand before.

Both follow from the steps of a parse. There is one step that gives up (`Steps.exists_abandon`), the
steps behind it report nothing, and what a tree keeps was at hand before it (`Visited`). So the
report of the nesting is the last diagnostic, and it points at or behind every token of the tree.

A parse ends only when it has been given up or has come to the end mark. Either way another run from
there does nothing (`program_program`).
-/

namespace DrawScript.Parser

open Token (Kind)

variable {s s' : State} {sub : ExprRule} {t : Token}

/-! ## The step that gives up -/

/-- The diagnostic that tells that the parse was given up at a token. -/
def tooDeepAt (t : Token) : Diagnostic :=
  ⟨.nestingTooDeep nestingLimit, t.span⟩

theorem Step.diagnostics_eq_of_abandoned (h : Step s s') (hs : s.abandoned = true) :
    s'.diagnostics = s.diagnostics := by
  cases h with
  | advance => rfl
  | report going => rw [hs] at going; cases going
  | abandon going => rw [hs] at going; cases going
  | log => rfl

theorem Step.diagnostics_eq_of_gives_up (h : Step s s') (hs : s.abandoned = false)
    (hs' : s'.abandoned = true) : s'.diagnostics = s.diagnostics.push (tooDeepAt s.current) := by
  cases h with
  | advance => rw [State.advance, hs] at hs'; cases hs'
  | report going => rw [State.abandoned_report, hs] at hs'; cases hs'
  | abandon going =>
    rw [State.abandon, hs]
    rfl
  | log => rw [State.logUnclosed, hs] at hs'; cases hs'

/-- On a way on which the parse is given up there is the state in which that happens, and nothing is
reported behind it. -/
theorem Steps.exists_abandon (h : Steps s s') (hs : s.abandoned = false)
    (hs' : s'.abandoned = true) :
    ∃ s₁, Steps s s₁ ∧ s₁.abandoned = false ∧
      s'.diagnostics = s₁.diagnostics.push (tooDeepAt s₁.current) := by
  induction h with
  | refl => rw [hs] at hs'; cases hs'
  | @tail s₂ s₃ hsteps hstep ih =>
    cases hmid : s₂.abandoned with
    | false => exact ⟨s₂, hsteps, hmid, hstep.diagnostics_eq_of_gives_up hmid hs'⟩
    | true =>
      obtain ⟨s₁, hbefore, hgoing, hdiagnostics⟩ := ih hmid
      exact ⟨s₁, hbefore, hgoing, (hstep.diagnostics_eq_of_abandoned hmid).trans hdiagnostics⟩

/-! ## What was reported and kept before -/

theorem State.IsOrdered.current_le (hs : s.IsOrdered) (h : Steps s s') :
    s.current.span.start ≤ s'.current.span.start := by
  have hmem : s'.current ∈ s.tokens := h.tokens_suffix.subset s'.current_mem_tokens
  obtain ⟨_ | ⟨u, us⟩, stop, abandoned, diagnostics, log⟩ := s
  · rw [List.mem_singleton.mp hmem]
    exact Nat.le_refl _
  · rcases List.mem_cons.mp hmem with heq | hmem
    · exact heq ▸ Nat.le_refl _
    · exact (List.pairwise_cons.mp hs).1 _ hmem

/-- A token that was at hand does not begin behind the place where the parse is given up later. -/
theorem Visited.start_le (h : Visited s s' t) (hs : s.IsOrdered) (hs' : s'.abandoned = true)
    {d : Diagnostic} {ds : Array Diagnostic} (hlast : s'.diagnostics = ds.push d) :
    t.span.start ≤ d.span.start := by
  obtain ⟨s₁, hbefore, hbehind, hgoing, hhead⟩ := h
  obtain ⟨s₂, hsteps, -, hdiagnostics⟩ := hbehind.exists_abandon hgoing hs'
  have hcurrent : s₁.current = t := by rw [State.current, List.headD_eq_head?_getD, hhead]; rfl
  obtain ⟨rfl, -⟩ := Array.push_eq_push.mp (hlast.symm.trans hdiagnostics)
  rw [← hcurrent]
  exact (hbefore.isOrdered hs).current_le hsteps

/-- A diagnostic that tells of too deep a nesting is the last and the only one of its kind. -/
theorem Steps.abandonment (h : Steps s s') (hs : s.abandoned = false) (htells : TellsAbandonment s)
    {ds ds' : List Diagnostic} {d : Diagnostic} (hsplit : s'.diagnostics.toList = ds ++ d :: ds')
    (hd : ∃ limit, d.fault = .nestingTooDeep limit) :
    s'.abandoned = true ∧ ds' = [] ∧ ∀ d' ∈ ds, ∀ limit, d'.fault ≠ .nestingTooDeep limit := by
  have hs' : s'.abandoned = true :=
    (h.tellsAbandonment htells).mpr ⟨d, by rw [hsplit]; exact List.mem_append_right _ (by simp), hd⟩
  obtain ⟨s₁, hbefore, hgoing, hdiagnostics⟩ := h.exists_abandon hs hs'
  -- none was recorded as long as the parse was going on
  have hnone : ∀ d' ∈ s₁.diagnostics.toList, ∀ limit, d'.fault ≠ .nestingTooDeep limit := by
    intro d' hd' limit hlimit
    rw [(hbefore.tellsAbandonment htells).mpr ⟨d', hd', limit, hlimit⟩] at hgoing
    cases hgoing
  rw [hdiagnostics, Array.toList_push] at hsplit
  rcases List.eq_nil_or_concat ds' with rfl | ⟨init, last, rfl⟩
  · obtain ⟨hds, -⟩ := List.append_inj' hsplit rfl
    exact ⟨hs', rfl, hds ▸ hnone⟩
  · rw [List.concat_eq_append, ← List.cons_append, ← List.append_assoc] at hsplit
    obtain ⟨hds, -⟩ := List.append_inj' hsplit rfl
    obtain ⟨limit, hlimit⟩ := hd
    exact absurd hlimit (hnone d (by rw [hds]; simp) limit)

/-! ## Running again -/

/-- Statements end when the parse has been given up or at a token that ends them. -/
theorem statementsUntil_ends (hsub : ∀ level, Moves (sub level)) {ends : Kind → Bool}
    (hends : ends .eof = true) (bound : Nat) (s : State) (hbound : s.pending.length ≤ bound) :
    (statementsUntil sub ends bound s).2.abandoned = true ∨
      ends (statementsUntil sub ends bound s).2.current.kind = true := by
  induction bound generalizing s with
  | zero =>
    have hpending := List.eq_nil_of_length_eq_zero (Nat.le_zero.mp hbound)
    refine .inr ?_
    rw [statementsUntil, State.current, hpending]
    exact hends
  | succ bound ih =>
    rw [statementsUntil]
    split_ifs with hend
    · exact Bool.or_eq_true_iff.mp hend
    · refine ih _ ?_
      have hle := (moves_statement hsub s).pending_suffix.length_le
      rw [State.pending_advance, List.length_tail]
      omega

theorem program_of_ended (h : s.abandoned = true ∨ s.current.kind = .eof) :
    program s = (⟨[]⟩, s) := by
  have hstop : (s.abandoned || s.current.kind == .eof) = true := by simpa using h
  rw [program]
  cases s.pending.length with
  | zero => rfl
  | succ bound => simp only [statementsUntil, if_pos hstop]

/-- A parse ends when it has been given up or at the end mark. -/
theorem program_ends (s : State) :
    (program s).2.abandoned = true ∨ (program s).2.current.kind = .eof := by
  have hends : (program s).2.abandoned = true ∨ ((program s).2.current.kind == .eof) = true :=
    statementsUntil_ends (moves_expression nestingLimit) rfl _ s (Nat.le_refl _)
  rwa [beq_iff_eq] at hends

/-- A parse that has ended does nothing more. -/
theorem program_program (s : State) : program (program s).2 = (⟨[]⟩, (program s).2) :=
  program_of_ended (program_ends s)

/-- **Giving up is final.** At most one diagnostic tells that the nesting is too deep; it is the
last, and no token of the tree begins behind the place that it points at. However often the parser
is run again after that, or after a parse that came to the end, it yields the empty script and its
state stays the same, diagnostics included. -/
theorem document_abandonment_final (source : String) :
    (∀ ds d ds', (Document.ofSource source).diagnostics = ds ++ d :: ds' →
      (∃ limit, d.fault = .nestingTooDeep limit) →
        ds' = [] ∧ (∀ d' ∈ ds, ∀ limit, d'.fault ≠ .nestingTooDeep limit) ∧
          ∀ t ∈ (Document.ofSource source).program.tokens, t.span.start ≤ d.span.start) ∧
      ∀ n : Nat, program ((fun s ↦ (program s).2)^[n] (program (.ofSource source)).2)
        = (⟨[]⟩, (program (.ofSource source)).2) := by
  constructor
  · intro ds d ds' hsplit hd
    obtain ⟨habandoned, rfl, hothers⟩ :=
      (moves_program _).abandonment rfl (tellsAbandonment_ofSource source) hsplit hd
    refine ⟨rfl, hothers, fun t ht ↦ ?_⟩
    have hlast : (program (.ofSource source)).2.diagnostics = ds.toArray.push d :=
      Array.toList_inj.mp (hsplit.trans (by simp))
    exact (visited_program _ t ht).start_le (isOrdered_ofSource source) habandoned hlast
  · intro n
    have hfixed : (fun s ↦ (program s).2)^[n] (program (.ofSource source)).2
        = (program (.ofSource source)).2 :=
      Function.iterate_fixed (congrArg Prod.snd (program_program _)) n
    rw [hfixed, program_program]

/-- The list is left with the one item that was built when the nesting broke it off at the last
token. The missing bracket is not reported, and the item and the tokens of the list stand before
the place. -/
theorem document_abandonment_final_list :
    (Document.ofSource ("[c, " ++ String.ofList (List.replicate 127 '-') ++ "1")).diagnostics
        = [tooDeepAt ⟨.int, "1", ⟨131, 132⟩⟩] ∧
      (Document.ofSource ("[c, " ++ String.ofList (List.replicate 127 '-') ++ "1")).program.render
        = "[c]" ∧
      ∀ t ∈ (Document.ofSource
          ("[c, " ++ String.ofList (List.replicate 127 '-') ++ "1")).program.tokens,
        t.span.start ≤ 131 := by
  have hrun : (Document.ofSource
      ("[c, " ++ String.ofList (List.replicate 127 '-') ++ "1")).diagnostics
        = [] ++ tooDeepAt ⟨.int, "1", ⟨131, 132⟩⟩ :: [] ∧
      (Document.ofSource ("[c, " ++ String.ofList (List.replicate 127 '-') ++ "1")).program.render
        = "[c]" := by
    decide +kernel
  refine ⟨hrun.1, hrun.2, ?_⟩
  exact ((document_abandonment_final _).1 _ _ _ hrun.1 ⟨nestingLimit, rfl⟩).2.2

end DrawScript.Parser
