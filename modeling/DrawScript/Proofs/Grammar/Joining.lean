import DrawScript.Proofs.Grammar.Documents
import DrawScript.Proofs.Parser.Relocation

/-!
# Scripts in a row

A script that is sound and whose last statement is closed can be followed by any other script,
sound or not. The first is read as if it stood alone, and so is the second, at its new place.

Nothing can leak from the first into the second. Its tokens end before the line break, because a
sound script has no quote that is left open. Its last statement takes no token of the second,
because it is closed and the second does not begin with a period. Levels that it opened are closed
again, and the parse is still going on, so the second starts in the state in which it would have
started alone, but for the places of its tokens.
-/

namespace DrawScript.Grammar

open Token (Kind)
open DrawScript.Parser

variable {s : State} {room : Nat}

/-! ## The tokens of a derivation -/

theorem MoreNames.kind_ne_illegal {ts : List Token} (d : MoreNames ts) :
    ∀ t ∈ ts, t.kind ≠ .illegal := by
  induction d with
  | done => exact fun _ ht ↦ absurd ht List.not_mem_nil
  | item comma name more ih => simpa [comma.2, name.2] using ih

theorem Names.kind_ne_illegal {ts : List Token} (d : Names ts) : ∀ t ∈ ts, t.kind ≠ .illegal := by
  cases d with
  | empty => exact fun _ ht ↦ absurd ht List.not_mem_nil
  | items name more => simpa [name.2] using more.kind_ne_illegal

theorem kind_ne_illegal_of_mem_starters {t : Token} (h : t.kind ∈ starters) :
    t.kind ≠ .illegal := by
  rintro heq
  rw [heq] at h
  exact absurd h (by decide)

theorem kind_ne_illegal_of_operator {t : Token} {operator : BinaryOperator}
    (h : BinaryOperator.ofKind? t.kind = some operator) : t.kind ≠ .illegal := by
  rintro heq
  rw [heq] at h
  cases h

mutual

/-- A derivation has no token that belongs to no expression. -/
theorem Phrase.kind_ne_illegal {σ : Stratum} {ts : List Token} :
    Phrase σ ts → ∀ t ∈ ts, t.kind ≠ .illegal
  | .leaf _ h => by
    simpa using kind_ne_illegal_of_mem_starters (kind_mem_starters_of_denotes h)
  | .group opening inner close => by
    simpa [or_imp, forall_and, opening.2, close.2] using inner.kind_ne_illegal
  | .array opening elements close => by
    simpa [or_imp, forall_and, opening.2, close.2] using elements.kind_ne_illegal
  | .function keyword opening parameters close brace body unbrace => by
    simpa [or_imp, forall_and, keyword.2, opening.2, close.2, brace.2, unbrace.2]
      using And.intro parameters.kind_ne_illegal body.kind_ne_illegal
  | .call callee opening arguments close => by
    simpa [or_imp, forall_and, opening.2, close.2]
      using And.intro callee.kind_ne_illegal arguments.kind_ne_illegal
  | .index left opening position close => by
    simpa [or_imp, forall_and, opening.2, close.2]
      using And.intro left.kind_ne_illegal position.kind_ne_illegal
  | .unary _ _ ht right => by
    simpa [kind_ne_illegal_of_mem_starters (kind_mem_starters_of_unary ht)]
      using right.kind_ne_illegal
  | .binary left _ _ _ ht right => by
    have hkind := kind_ne_illegal_of_operator ht
    simpa [or_imp, forall_and, hkind] using And.intro left.kind_ne_illegal right.kind_ne_illegal
  | .tighter _ inner => inner.kind_ne_illegal

theorem Listing.kind_ne_illegal {ts : List Token} : Listing ts → ∀ t ∈ ts, t.kind ≠ .illegal
  | .empty => fun _ ht ↦ absurd ht List.not_mem_nil
  | .items first more =>
    List.forall_mem_append.mpr ⟨first.kind_ne_illegal, more.kind_ne_illegal⟩

theorem More.kind_ne_illegal {ts : List Token} : More ts → ∀ t ∈ ts, t.kind ≠ .illegal
  | .done => fun _ ht ↦ absurd ht List.not_mem_nil
  | .item comma next more => by
    simpa [or_imp, forall_and, comma.2] using And.intro next.kind_ne_illegal more.kind_ne_illegal

theorem Body.kind_ne_illegal {ts : List Token} : Body ts → ∀ t ∈ ts, t.kind ≠ .illegal
  | .done => fun _ ht ↦ absurd ht List.not_mem_nil
  | .comment t rest => List.forall_mem_cons.mpr ⟨by simp [t.2], rest.kind_ne_illegal⟩
  | .expression value periods _ rest => by
    have hperiods : ∀ t ∈ periods.map (·.1), t.kind ≠ .illegal := fun t ht ↦ by
      obtain ⟨period, -, rfl⟩ := List.mem_map.mp ht
      rw [period.2]
      decide
    rw [List.forall_mem_append, List.forall_mem_append]
    exact ⟨⟨value.kind_ne_illegal, hperiods⟩, rest.kind_ne_illegal⟩

end

/-! ## Statements before other tokens -/

/-- The statements end with a period or a comment. -/
def ClosedAtEnd (ts : List Token) : Prop :=
  ∀ t ∈ ts.getLast?, t.kind = .period ∨ t.kind = .comment

theorem ClosedAtEnd.of_append (ts : List Token) {us : List Token} (h : ClosedAtEnd (ts ++ us)) :
    ClosedAtEnd us := by
  intro t ht
  refine h t ?_
  rw [Option.mem_def] at ht ⊢
  rw [List.getLast?_append, ht]
  rfl

theorem Phrase.not_closedAtEnd {σ : Stratum} {ts : List Token} (d : Phrase σ ts) :
    ¬ClosedAtEnd ts := by
  intro h
  have hlast := d.kind_last_mem_finishers
  rcases h d.last d.getLast?_eq with hkind | hkind <;> rw [hkind] at hlast <;>
    exact absurd hlast (by decide)

/-- Statements are read to their end and then what follows them is read, unless its first token
goes on with the last of them. -/
theorem Body.statementsUntil_append {ts : List Token} :
    (d : Body ts) → ∀ (bound : Nat) (rest : List Token), s.abandoned = false →
      (headKind rest ∈ continuers → ClosedAtEnd ts) → headKind rest ≠ .period →
      (ts ++ rest).length ≤ bound → d.levels ≤ room →
      statementsUntil (Parser.expression room) (· == .eof) bound (s.facing (ts ++ rest))
        = (d.statements ++
            (statementsUntil (Parser.expression room) (· == .eof) rest.length (s.facing rest)).1,
          (statementsUntil (Parser.expression room) (· == .eof) rest.length (s.facing rest)).2)
  | .done => by
    intro bound rest _ _ _ hbound _
    change statementsUntil _ _ bound (s.facing rest) = statementsUntil _ _ _ (s.facing rest)
    exact statementsUntil_congr_bound (moves_expression room) rfl hbound (Nat.le_refl _)
  | @Body.comment ts t more => by
    rintro (_ | bound) rest hs hclosed hperiod hbound hroom
    · simp at hbound
    have hmore := more.statementsUntil_append bound rest hs
      (fun hrest ↦ ClosedAtEnd.of_append [t.1] (hclosed hrest)) hperiod
      (Nat.le_of_succ_le_succ hbound) hroom
    have hend : (headKind (t.1 :: ts ++ rest) == .eof) = false := by
      rw [List.cons_append, headKind_cons, t.2]
      rfl
    exact statementsUntil_step hs hend (statement_comment t _) hmore
  | @Body.expression t ts us value periods split more => by
    rintro (_ | bound) rest hs hclosed hperiod hbound hroom
    · simp at hbound
    rw [Body.levels] at hroom
    -- an expression that nothing follows and no period closes would leave the end open
    have hopen : periods = [] → us = [] → headKind rest ∉ continuers := by
      rintro rfl rfl hrest
      refine value.not_closedAtEnd ?_
      have hall := hclosed hrest
      rwa [List.map_nil, List.append_nil, List.append_nil] at hall
    have hmore := more.statementsUntil_append bound rest hs
      (fun hrest ↦ (hclosed hrest).of_append _) hperiod (by simp at hbound ⊢; omega) (by omega)
    rw [List.append_assoc, List.append_assoc]
    exact value.statementsUntil_step periods hs (by omega) endsAt_eof.not_starter
      (Body.of_headKind_eq_lowest periods split hopen) (more.headKind_append_ne_period hperiod)
      hmore

/-- A whole parse that has sound statements before it goes on as it would without them. -/
theorem Body.program_append {ts : List Token} (d : Body ts) (rest : List Token)
    (hs : s.abandoned = false) (hclosed : ClosedAtEnd ts) (hperiod : headKind rest ≠ .period)
    (hlevels : d.levels ≤ nestingLimit) :
    program (s.facing (ts ++ rest))
      = (⟨d.statements ++ (program (s.facing rest)).1.statements⟩, (program (s.facing rest)).2) :=
  congrArg (fun run : List Stmt × State ↦ ((⟨run.1⟩ : Program), run.2))
    (d.statementsUntil_append _ rest hs (fun _ ↦ hclosed) hperiod (Nat.le_refl _) hlevels)

/-! ## Documents -/

/-- The tokens of two scripts in a row, if no quote is left open in the first. -/
theorem scan_joined {a : String} (b : String)
    (hlegal : ∀ t ∈ Token.scan 0 0 a.toList, t.kind ≠ .illegal) :
    Token.scan 0 0 (a ++ "\n" ++ b).toList
      = Token.scan 0 0 a.toList ++
        (Token.scan 0 0 b.toList).map (·.relocate (.shift (a.utf8ByteSize + 1))) := by
  have htext : (a ++ "\n" ++ b).toList = a.toList ++ '\n' :: b.toList := by simp
  rw [htext, Token.scan_append_newline b.toList (Nat.zero_le _) hlegal,
    Token.utf8ByteSize_eq_byteLength, ← Token.scan_add, Nat.zero_add, Nat.zero_add]

/-- The second script starts as if it stood alone, at another place. -/
theorem facing_joined (a b : String) :
    (State.ofSource (a ++ "\n" ++ b)).facing
        ((Token.scan 0 0 b.toList).map (·.relocate (.shift (a.utf8ByteSize + 1))))
      = (State.ofSource b).relocate (.shift (a.utf8ByteSize + 1)) := by
  have hstop : (a ++ "\n" ++ b).utf8ByteSize = b.utf8ByteSize + (a.utf8ByteSize + 1) := by
    rw [String.utf8ByteSize_append, String.utf8ByteSize_append, Nat.add_comm]
    rfl
  simp only [State.facing, State.ofSource, State.relocate, Relocation.shift, hstop,
    Array.map_empty]

/-- **Scripts in a row are read one after the other.** If nothing is wrong with the first and its
last statement is closed, the second is read as it would be alone, whatever is wrong with it. -/
theorem document_joined (a b : String) (hclean : (Document.ofSource a).isClean = true)
    (hlast : ∀ t ∈ (Token.tokenize a).dropLast.getLast?, t.kind = .period ∨ t.kind = .comment)
    (hfirst : ∀ t ∈ (Token.tokenize b).head?, t.kind ≠ .period) :
    (Document.ofSource (a ++ "\n" ++ b)).program.statements
        = (Document.ofSource a).program.statements ++
          Stmt.relocateList (.shift (a.utf8ByteSize + 1))
            (Document.ofSource b).program.statements ∧
      (Document.ofSource (a ++ "\n" ++ b)).diagnostics
        = (Document.ofSource b).diagnostics.map
            (·.relocate (.shift (a.utf8ByteSize + 1))) := by
  obtain ⟨d, hprogram⟩ := exists_body_of_isClean hclean
  have hlevels := d.levels_le_iff.mpr (not_isTooDeep_of_isClean hclean)
  rw [dropLast_tokenize] at hlast
  have hrest : headKind ((Token.scan 0 0 b.toList).map
      (·.relocate (.shift (a.utf8ByteSize + 1)))) ≠ .period := by
    rw [Token.tokenize] at hfirst
    cases hscan : Token.scan 0 0 b.toList with
    | nil => exact Kind.noConfusion
    | cons t ts =>
      rw [hscan] at hfirst
      exact hfirst t rfl
  have hrun := d.program_append (s := .ofSource (a ++ "\n" ++ b)) _ rfl hlast hrest hlevels
  rw [← scan_joined b d.kind_ne_illegal, facing_joined, carries_program] at hrun
  rw [hprogram]
  constructor
  · exact congrArg (fun run : Program × State ↦ run.1.statements) hrun
  · exact (congrArg (fun run : Program × State ↦ run.2.diagnostics.toList) hrun).trans
      Array.toList_map

/-- A remark may end the first script, and the second may be damaged at its beginning and at its
end: all is reported behind the two bytes of `é`. -/
theorem document_joined_remark :
    (Document.ofSource "f(1). % é").isClean = true ∧
      (Document.ofSource ("f(1). % é" ++ "\n" ++ ") g(2")).program.statements.length = 3 ∧
      (Document.ofSource ("f(1). % é" ++ "\n" ++ ") g(2")).diagnostics
        = (Document.ofSource ") g(2").diagnostics.map (·.relocate (.shift 11)) := by
  have hclean : (Document.ofSource "f(1). % é").isClean = true := by decide +kernel
  have hjoined := document_joined "f(1). % é" ") g(2" hclean (by decide +kernel)
    (by decide +kernel)
  refine ⟨hclean, ?_, hjoined.2⟩
  rw [hjoined.1]
  decide +kernel

end DrawScript.Grammar
