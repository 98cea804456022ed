import DrawScript.Proofs.Parser.Abandonment
import DrawScript.Proofs.Parser.Progress
import DrawScript.Proofs.Parser.Recursion

/-!
# What is observed of a whole parse

The record of a parse is read here. That the parse under observation is the parse (`observe_eq`) and
that the counter bounds what is recorded (`atLevel_observe`) was shown by one induction, that no
token begins two expressions (`poised_observe`) by another.

Neither statement would say much without the flag that no bound has been reached. The recursion is
given as much fuel as the counter admits, so the fuel alone would keep expressions from being read
too deep inside each other, and a loop would end at its bound whether or not its rounds leave tokens
behind. The flag says that every parse is brought to its end by what the rules themselves look up:
the counter and the tokens.
-/

namespace DrawScript.Parser

/-- **The counter bounds the recursion.** Observing a parse changes nothing about it, and no bound
of a loop or of the recursion is reached. At no moment of it does the number of expressions that are
being read, one inside the other, exceed the limit by more than one, and neither does the counter.
An activation that begins with the counter at the limit or beyond yields nothing. One that begins
below it continues its expression at most as often as there are levels left above its own, and what
it yields is no taller than the sum of the levels from its own on. In the end all activations that
began have ended. -/
theorem observe_within_limit (source : String) :
    ((observe source).1, (observe source).2.state) = program (.ofSource source) ∧
      (observe source).2.brokenOff = false ∧
      (∀ x ∈ (observe source).2.moments,
        x.active ≤ nestingLimit + 1 ∧ x.counter ≤ nestingLimit + 1) ∧
      (∀ a ∈ (observe source).2.ended,
        (nestingLimit ≤ a.entry → a.value = none) ∧
          (a.entry < nestingLimit → a.folds ≤ nestingLimit - 1 - a.entry ∧
            ∀ e ∈ a.value,
              e.height ≤ (nestingLimit - a.entry) * (nestingLimit + 1 - a.entry) / 2)) ∧
      (observe source).2.starts.length = (observe source).2.ended.length := by
  obtain ⟨-, -, hlevel⟩ := atLevel_observe source
  obtain ⟨⟨htidy, -⟩, -⟩ := poised_observe source
  refine ⟨observe_eq source, htidy.unbroken, hlevel.moments_le, fun a ha ↦ ?_, hlevel.begun_eq⟩
  have hfaithful := hlevel.faithful a ha
  refine ⟨hfaithful.value_eq_none, fun hentry ↦ ⟨hfaithful.1, fun e he ↦ ?_⟩⟩
  have hheight := hfaithful.height_le e he
  rwa [tallest, ← Nat.sub_add_comm hentry.le] at hheight

/-- Signs, one more than there may be levels: both bounds are reached where the last of them begins
an expression, and that one yields nothing, without the fuel having run out. A sum: the expression
that the source is has been continued once and is of height two, far below its bounds. -/
theorem observe_within_limit_signs :
    (⟨nestingLimit + 1, nestingLimit + 1⟩
        ∈ (observe (String.ofList (List.replicate 129 '-'))).2.moments ∧
      (∃ a ∈ (observe (String.ofList (List.replicate 129 '-'))).2.ended,
        a.entry = nestingLimit ∧ a.value = none) ∧
      (observe (String.ofList (List.replicate 129 '-'))).2.brokenOff = false) ∧
    ((observe "1 + 2").2.ended.map fun a ↦ (a.entry, a.folds, a.value.map Expr.height))
        = [(0, 1, some 2), (2, 0, some 1)] ∧
      ∃ a ∈ (observe "1 + 2").2.ended, a.entry = 0 ∧
        (a.folds = 1 ∧ a.folds ≤ nestingLimit - 1) ∧
        ∃ e ∈ a.value, e.height = 2 ∧ e.height ≤ nestingLimit * (nestingLimit + 1) / 2 := by
  constructor
  · have hrun : ⟨nestingLimit + 1, nestingLimit + 1⟩
          ∈ (observe (String.ofList (List.replicate 129 '-'))).2.moments ∧
        (observe (String.ofList (List.replicate 129 '-'))).2.ended.any
          (·.entry == nestingLimit) = true := by
      decide +kernel
    obtain ⟨hmoment, hended⟩ := hrun
    obtain ⟨a, ha, hentry⟩ := List.any_eq_true.mp hended
    have hentry : a.entry = nestingLimit := beq_iff_eq.mp hentry
    obtain ⟨-, hunbroken, -, hactivations, -⟩ :=
      observe_within_limit (String.ofList (List.replicate 129 '-'))
    exact ⟨hmoment, ⟨a, ha, hentry, (hactivations a ha).1 hentry.ge⟩, hunbroken⟩
  · have hrun :
        ((observe "1 + 2").2.ended.map fun a ↦ (a.entry, a.folds, a.value.map Expr.height))
          = [(0, 1, some 2), (2, 0, some 1)] := by
      decide +kernel
    obtain ⟨a, ha, hrecord⟩ := List.mem_map.mp (hrun ▸ List.mem_cons_self)
    obtain ⟨hentry, hfolds, hvalue⟩ :
        a.entry = 0 ∧ a.folds = 1 ∧ a.value.map Expr.height = some 2 := by
      simpa only [Prod.mk.injEq] using hrecord
    obtain ⟨e, he, hheight⟩ := Option.map_eq_some_iff.mp hvalue
    obtain ⟨-, -, -, hactivations, -⟩ := observe_within_limit "1 + 2"
    obtain ⟨hfolds_le, hheight_le⟩ := (hactivations a ha).2 (hentry ▸ by decide)
    rw [hentry] at hfolds_le hheight_le
    exact ⟨hrun, a, ha, hentry, ⟨hfolds, hfolds_le⟩, e, he, hheight, hheight_le e he⟩

/-- **No token begins two expressions.** Observing a parse changes nothing about it. The tokens at
which expressions begin are different tokens of the source, the end mark included, in their order.
In each round of a loop the first token ahead is left behind. So the bounds of loops and of the
recursion never come to bear, and the parse ends, at the end mark or with a diagnostic that tells of
too deep a nesting. -/
theorem observe_progress (source : String) :
    ((observe source).1, (observe source).2.state) = program (.ofSource source) ∧
      (observe source).2.starts.Sublist (Token.tokenize source) ∧
      (observe source).2.starts.Nodup ∧
      (∀ r ∈ (observe source).2.rounds, r.Consumes) ∧
      (observe source).2.brokenOff = false ∧
      ((observe source).2.state.current.kind = .eof ∨
        ∃ d ∈ (observe source).2.state.diagnostics.toList,
          ∃ limit, d.fault = .nestingTooDeep limit) := by
  obtain ⟨⟨htidy, hsublist⟩, -⟩ := poised_observe source
  have hstarts := (List.sublist_append_left _ _).trans hsublist
  have heq := observe_eq source
  have hstate : (observe source).2.state = (program (.ofSource source)).2 := congrArg Prod.snd heq
  refine ⟨heq, hstarts, hstarts.nodup (nodup_tokenize source), htidy.consumes, htidy.unbroken, ?_⟩
  rw [hstate]
  exact (program_ends _).symm.imp_right (tellsAbandonment_program source).mp

/-- Two lists that are not closed: the end mark begins the item of the inner one, and no other
expression after that. A function that is called goes round in every loop there is. Its rounds, told
by how many tokens are left before and after them, are from the latest on the one of the program,
the two periods at the end, the call, its second argument, the sum in the first, both statements of
the body with the period in between, and the second parameter. -/
theorem observe_progress_unclosed :
    ((observe "f(g(").2.starts
        = [⟨.ident, "f", ⟨0, 1⟩⟩, ⟨.ident, "g", ⟨2, 3⟩⟩, .eof 4] ∧
      (observe "f(g(").2.starts.Nodup ∧ (observe "f(g(").2.brokenOff = false ∧
      ∀ r ∈ (observe "f(g(").2.rounds, r.Consumes) ∧
    ((observe "fn(x, y) { c. d } (1 + 2, 3)..").2.rounds.map
        fun r ↦ (r.before.length, r.after.length))
        = [(20, 0), (2, 1), (3, 2), (10, 3), (6, 4), (8, 6), (11, 10), (13, 11), (13, 12),
          (18, 16)] ∧
      ∀ r ∈ (observe "fn(x, y) { c. d } (1 + 2, 3)..").2.rounds, r.Consumes := by
  constructor
  · obtain ⟨-, -, hnodup, hconsumes, hunbroken, -⟩ := observe_progress "f(g("
    exact ⟨by decide +kernel, hnodup, hunbroken, hconsumes⟩
  · obtain ⟨-, -, -, hconsumes, -⟩ := observe_progress "fn(x, y) { c. d } (1 + 2, 3).."
    exact ⟨by decide +kernel, hconsumes⟩

end DrawScript.Parser
