import DrawScript.Proofs.Grammar.Deriving
import DrawScript.Proofs.Grammar.Nesting
import DrawScript.Document

/-!
# Documents and the grammar

Parsing a whole source agrees with the grammar in both directions. If nothing was remarked about the
source, its tokens have a derivation and the program is the tree of that derivation. If its tokens
have a derivation, nothing is remarked about it and the program is the tree, unless the derivation
has more levels than the parser opens; then the parse was given up and says so.

Nesting is the only thing that the grammar does not know about, and `Body.levels` measures it: a
source is too deep exactly if its derivation has more levels than the limit.
-/

namespace DrawScript

open DrawScript.Parser (State nestingLimit)

/-- Was the parse given up because of the nesting? -/
def Document.IsTooDeep (document : Document) : Prop :=
  ∃ d ∈ document.diagnostics, ∃ limit, d.fault = .nestingTooDeep limit

namespace Grammar

variable {source : String}

/-! ## The tokens of a source -/

theorem dropLast_tokenize (source : String) :
    (Token.tokenize source).dropLast = Token.scan 0 0 source.toList := by
  rw [Token.tokenize, List.dropLast_concat]

theorem ready_ofSource (source : String) : Ready (State.ofSource source) :=
  ⟨rfl, Parser.isSpelled_ofSource source⟩

/-! ## The outcome of a parse -/

theorem isClean_iff (source : String) :
    (Document.ofSource source).isClean = true ↔
      (Parser.program (.ofSource source)).2.diagnostics = (State.ofSource source).diagnostics := by
  rw [Document.isClean, List.isEmpty_iff]
  exact Array.toList_eq_nil_iff

theorem isTooDeep_iff (source : String) :
    (Document.ofSource source).IsTooDeep ↔
      (Parser.program (.ofSource source)).2.abandoned = true :=
  (Parser.tellsAbandonment_program source).symm

/-- A parse that was given up is not clean. -/
theorem not_isTooDeep_of_isClean (h : (Document.ofSource source).isClean = true) :
    ¬(Document.ofSource source).IsTooDeep := by
  rw [Document.isClean, List.isEmpty_iff] at h
  rintro ⟨d, hd, -⟩
  rw [h] at hd
  exact List.not_mem_nil hd

/-! ## Derivations of whole sources -/

/-- A derivation with room for its levels is read to the end of the source. -/
theorem Body.program_eq (d : Body (Token.scan 0 0 source.toList)) (h : d.levels ≤ nestingLimit) :
    Parser.program (.ofSource source) = (⟨d.statements⟩, (State.ofSource source).facing []) := by
  have hread := d.statementsUntil_eq nestingLimit _ (State.ofSource source) (· == .eof) [] rfl
    endsAt_eof (Nat.le_refl _) h
  rw [List.append_nil] at hread
  exact congrArg (fun run : List Stmt × State ↦ ((⟨run.1⟩ : Program), run.2)) hread

/-- Without that room the parse is given up, and the program is smaller than the tree. -/
theorem Body.program_fallsShort (d : Body (Token.scan 0 0 source.toList))
    (h : nestingLimit < d.levels) :
    (Document.ofSource source).IsTooDeep ∧
      Stmt.sizeList (Document.ofSource source).program.statements < Stmt.sizeList d.statements := by
  have hshort := d.fallsShort nestingLimit _ (State.ofSource source) (· == .eof) [] rfl
    endsAt_eof (Nat.le_refl _) h
  rw [List.append_nil] at hshort
  rw [isTooDeep_iff]
  exact hshort

/-- The levels of a derivation decide whether its source is too deep. -/
theorem Body.levels_le_iff (d : Body (Token.scan 0 0 source.toList)) :
    d.levels ≤ nestingLimit ↔ ¬(Document.ofSource source).IsTooDeep := by
  constructor
  · intro h
    rw [isTooDeep_iff, d.program_eq h]
    exact Bool.false_ne_true
  · intro h
    by_contra hlevels
    exact h (d.program_fallsShort (Nat.lt_of_not_le hlevels)).1

/-- What a derivation with few enough levels makes of its source. -/
theorem Body.document_eq (d : Body (Token.scan 0 0 source.toList))
    (h : ¬(Document.ofSource source).IsTooDeep) :
    (Document.ofSource source).isClean = true ∧
      (Document.ofSource source).program = ⟨d.statements⟩ := by
  have hrun := d.program_eq (d.levels_le_iff.mpr h)
  refine ⟨?_, congrArg Prod.fst hrun⟩
  rw [isClean_iff, hrun]
  rfl

/-- A source about which nothing was remarked has a derivation. -/
theorem exists_body_of_isClean (h : (Document.ofSource source).isClean = true) :
    ∃ d : Body (Token.scan 0 0 source.toList),
      (Document.ofSource source).program = ⟨d.statements⟩ := by
  rw [isClean_iff] at h
  obtain ⟨ts, rest, d, heq, hstop, hread⟩ :=
    Sound.exists_body (s := .ofSource source) (sound_expression nestingLimit) (· == .eof) rfl _
      (State.ofSource source).pending (Nat.le_refl _) (ready_ofSource source) h
  -- only the end mark ends a script, and no token of a text is an end mark
  obtain rfl : rest = [] := by
    cases rest with
    | nil => rfl
    | cons t rest =>
      have ht : t ∈ (State.ofSource source).pending := by rw [heq]; simp
      exact absurd (eq_of_beq hstop) ((ready_ofSource source).spelled t ht).kind_ne_eof
  rw [List.append_nil] at heq
  subst heq
  exact ⟨d, congrArg (fun run : List Stmt × State ↦ (⟨run.1⟩ : Program)) hread⟩

/-- **The parser and the grammar agree.** A source about which nothing is remarked has a derivation
of its tokens, and its program is the tree of that derivation. Conversely, nothing is remarked about
a source with a derivation that is not nested too deeply, and its program is the tree. -/
theorem document_sound_and_complete (source : String) :
    ((Document.ofSource source).isClean = true →
      ∃ d : Body (Token.tokenize source).dropLast,
        (Document.ofSource source).program = ⟨d.statements⟩) ∧
    ∀ d : Body (Token.tokenize source).dropLast, ¬(Document.ofSource source).IsTooDeep →
      (Document.ofSource source).isClean = true ∧
        (Document.ofSource source).program = ⟨d.statements⟩ := by
  rw [dropLast_tokenize]
  exact ⟨exists_body_of_isClean, Body.document_eq⟩

theorem document_sound_and_complete_comparison :
    (Document.ofSource "-a[1] == b + 2 * c. % end").isClean = true ∧
      ∃ d : Body (Token.tokenize "-a[1] == b + 2 * c. % end").dropLast,
        (Document.ofSource "-a[1] == b + 2 * c. % end").program = ⟨d.statements⟩ := by
  have hclean : (Document.ofSource "-a[1] == b + 2 * c. % end").isClean = true := by
    decide +kernel
  obtain ⟨d, -⟩ := (document_sound_and_complete _).1 hclean
  exact ⟨hclean, d, ((document_sound_and_complete _).2 d (not_isTooDeep_of_isClean hclean)).2⟩

end Grammar

end DrawScript
