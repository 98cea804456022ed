import DrawScript.Proofs.Grammar.Joining
import DrawScript.Proofs.Token.Pieces

/-!
# Tokens that belong nowhere

A closing bracket, a comma or an illegal character between two statements neither begins nor
continues anything. It is reported, once, and passed over, and the parse goes on at the next token
as if it had not been there (`statementsUntil_stray`).

Such a token also ends the statement before it. Scripts in a row need the first one to be closed,
lest the second go on with it. With a stray character on a line between them they do not, and the
second may begin with an operator or with a bracket.
-/

namespace DrawScript

/-! ## Stray characters -/

namespace Token

variable {c : Char}

/-- A character that is illegal alone is illegal at the end of a line, unless it is a quote, which
may have its partner on a later line. -/
theorem munch_newline (hquote : c ≠ '"' ∧ c ≠ '\'') (h : (munch c []).1 = .illegal)
    (rest : List Char) : munch c ('\n' :: rest) = (.illegal, 0) := by
  unfold munch at h ⊢
  by_cases hname : isNameStart c = true
  · rw [if_pos hname] at h
    rcases wordKind_cases [c] with hword | hword | hword | hword <;>
      exact absurd (h.symm.trans hword) (by decide)
  by_cases hdigit : isDigit c = true
  · rw [if_neg hname, if_pos hdigit] at h
    cases h
  rw [if_neg hname, if_neg hdigit] at h ⊢
  -- what is left are `=`, which needs a partner right behind it, and what begins no token at all
  split at h
  case h_2 => exact absurd rfl hquote.1
  case h_3 => exact absurd rfl hquote.2
  case h_17 => rfl
  case h_20 => rfl
  all_goals cases h

theorem leads_illegal_newline (hquote : c ≠ '"' ∧ c ≠ '\'')
    (hillegal : (tokenize (String.singleton c)).map (·.kind) = [.illegal, .eof])
    (rest : List Char) : Leads .illegal [c] ('\n' :: rest) := by
  have hscan : (scan 0 0 [c]).map (·.kind) = [.illegal] := by
    rw [tokenize, String.toList_singleton, List.map_append] at hillegal
    exact List.append_cancel_right hillegal
  cases hc : isBlank c with
  | true =>
    rw [scan_blank hc] at hscan
    cases hscan
  | false =>
    rw [scan_of_not_blank hc] at hscan
    exact ⟨c, [], rfl, hc, munch_newline hquote (List.cons.inj hscan).1 rest⟩

end Token

namespace Grammar

open Token (Kind)
open DrawScript.Parser

variable {s : State} {room : Nat}

/-! ## Stray tokens -/

/-- The kinds of tokens that neither begin a statement nor continue or close one. -/
def strays : List Kind :=
  [.illegal, .comma, .rparen, .rbrace, .rbracket]

/-- A stray token makes no statement. It is reported and stays the current token. -/
theorem statement_stray {t : Token} {rest : List Token} (ht : t.kind ∈ strays)
    (hs : s.abandoned = false) (hrest : headKind rest ≠ .period) :
    statement (Parser.expression (room + 1)) (s.facing (t :: rest))
      = (none, (s.report (.missingPrefixRule t.kind) t).facing (t :: rest)) := by
  have hcomment : t.kind ≠ .comment := (by decide : ∀ kind ∈ strays, kind ≠ .comment) _ ht
  have hstarter : t.kind ∉ starters := (by decide : ∀ kind ∈ strays, kind ∉ starters) _ ht
  have hexpression : Parser.expression (room + 1) .lowest (s.facing (t :: rest))
      = (none, (s.report (.missingPrefixRule t.kind) t).facing (t :: rest)) := by
    rw [Parser.expression, primary_of_notMem_starters hstarter, State.abandoned_facing, hs]
    rfl
  rw [statement, State.current_facing_cons, if_neg hcomment, hexpression]
  exact congrArg (Prod.mk none) (skipPeriods_facing t hrest)

/-- **A stray token between statements is reported and passed over.** -/
theorem statementsUntil_stray {t : Token} {rest : List Token} (ht : t.kind ∈ strays)
    (hs : s.abandoned = false) (hrest : headKind rest ≠ .period) (bound : Nat) :
    statementsUntil (Parser.expression (room + 1)) (· == .eof) (bound + 1) (s.facing (t :: rest))
      = statementsUntil (Parser.expression (room + 1)) (· == .eof) bound
          ((s.report (.missingPrefixRule t.kind) t).facing rest) := by
  have heof : (t.kind == .eof) = false :=
    (by decide : ∀ kind ∈ strays, (kind == .eof) = false) _ ht
  rw [statementsUntil, State.abandoned_facing, State.current_facing_cons, hs, heof,
    statement_stray ht hs hrest]
  rfl

/-- A whole parse with sound statements and a stray token before it goes on as it would without
them, behind the report of that token. -/
theorem Body.program_stray {ts rest : List Token} {t : Token} {script : Program} {s' : State}
    (d : Body ts) (hlevels : d.levels ≤ nestingLimit) (ht : t.kind ∈ strays)
    (hs : s.abandoned = false) (hrest : headKind rest ≠ .period)
    (hrun : program ((s.report (.missingPrefixRule t.kind) t).facing rest) = (script, s')) :
    program (s.facing (ts ++ t :: rest)) = (⟨d.statements ++ script.statements⟩, s') := by
  have hcontinuer : t.kind ∉ continuers := (by decide : ∀ kind ∈ strays, kind ∉ continuers) _ ht
  have hperiod : t.kind ≠ .period := (by decide : ∀ kind ∈ strays, kind ≠ .period) _ ht
  have hread := d.statementsUntil_append (ts ++ t :: rest).length (t :: rest) hs
    (fun h ↦ absurd h hcontinuer) hperiod (Nat.le_refl _) hlevels
  have hstray : statementsUntil (Parser.expression nestingLimit) (· == .eof) (t :: rest).length
      (s.facing (t :: rest)) = (script.statements, s') := by
    rw [List.length_cons, nestingLimit, statementsUntil_stray ht hs hrest]
    exact congrArg (fun run : Program × State ↦ (run.1.statements, run.2)) hrun
  rw [hstray] at hread
  exact congrArg (fun run : List Stmt × State ↦ ((⟨run.1⟩ : Program), run.2)) hread

/-! ## Documents -/

/-- The tokens of two scripts with a stray character between them, if no quote is left open in the
first and the character is no quote. -/
theorem scan_stray {a : String} {c : Char} (b : String)
    (hlegal : ∀ t ∈ Token.scan 0 0 a.toList, t.kind ≠ .illegal)
    (hstray : Token.Leads .illegal [c] ('\n' :: b.toList)) :
    Token.scan 0 0 (a ++ "\n" ++ String.singleton c ++ "\n" ++ b).toList
      = Token.scan 0 0 a.toList ++ .ofText .illegal (a.utf8ByteSize + 1) [c] ::
          (Token.scan 0 0 b.toList).map
            (·.relocate (.shift (a.utf8ByteSize + 1 + c.utf8Size + 1))) := by
  have htext : (a ++ "\n" ++ String.singleton c ++ "\n" ++ b).toList
      = a.toList ++ '\n' :: ([c] ++ '\n' :: b.toList) := by simp
  have hline : Token.isBlank '\n' = true := rfl
  rw [htext, Token.scan_append_newline _ (Nat.zero_le _) hlegal, Token.scan_leads hstray,
    Token.scan_blank hline, ← Token.utf8ByteSize_eq_byteLength, ← Token.scan_add]
  simp only [Nat.zero_add]
  rfl

theorem utf8ByteSize_stray (a b : String) (c : Char) :
    (a ++ "\n" ++ String.singleton c ++ "\n" ++ b).utf8ByteSize
      = b.utf8ByteSize + (a.utf8ByteSize + 1 + c.utf8Size + 1) := by
  simp only [String.utf8ByteSize_append, String.utf8ByteSize_singleton]
  rw [Nat.add_comm]
  rfl

/-- Behind a token that is reported, a script is read as if it stood alone, at another place and
behind the report. -/
theorem program_report_facing {source b : String} {n : Nat}
    (hstop : source.utf8ByteSize = b.utf8ByteSize + n) (fault : Fault) (t : Token) :
    program (((State.ofSource source).report fault t).facing
        ((Token.scan 0 0 b.toList).map (·.relocate (.shift n))))
      = ((program (.ofSource b)).1.relocate (.shift n),
        (program (.ofSource b)).2.resume (.shift n) #[⟨fault, t.span⟩]) := by
  rw [← resumes_program]
  simp only [State.facing, State.report, State.ofSource, State.resume, State.relocate,
    Relocation.shift, hstop, Array.map_empty, Array.append_empty, List.push_toArray,
    List.nil_append]

theorem headKind_map_relocate (r : Relocation) (ts : List Token) :
    headKind (ts.map (·.relocate r)) = headKind ts := by
  cases ts <;> rfl

theorem headKind_scan_ne_period {b : String}
    (hfirst : ∀ t ∈ (Token.tokenize b).head?, t.kind ≠ .period) :
    headKind (Token.scan 0 0 b.toList) ≠ .period := by
  rw [Token.tokenize] at hfirst
  cases hscan : Token.scan 0 0 b.toList with
  | nil => exact Kind.noConfusion
  | cons t ts =>
    rw [hscan] at hfirst
    exact hfirst t rfl

/-- **A stray character between two scripts costs one diagnostic and nothing else.** If nothing is
wrong with the first script, the second is read as it would be alone, whatever is wrong with it. -/
theorem document_stray (a b : String) (c : Char) (hclean : (Document.ofSource a).isClean = true)
    (hquote : c ≠ '"' ∧ c ≠ '\'')
    (hillegal : (Token.tokenize (String.singleton c)).map (·.kind) = [.illegal, .eof])
    (hfirst : ∀ t ∈ (Token.tokenize b).head?, t.kind ≠ .period) :
    (Document.ofSource (a ++ "\n" ++ String.singleton c ++ "\n" ++ b)).program.statements
        = (Document.ofSource a).program.statements ++
          Stmt.relocateList (.shift (a.utf8ByteSize + 1 + c.utf8Size + 1))
            (Document.ofSource b).program.statements ∧
      (Document.ofSource (a ++ "\n" ++ String.singleton c ++ "\n" ++ b)).diagnostics
        = ⟨.missingPrefixRule .illegal,
            ⟨a.utf8ByteSize + 1, a.utf8ByteSize + 1 + c.utf8Size⟩⟩ ::
          (Document.ofSource b).diagnostics.map
            (·.relocate (.shift (a.utf8ByteSize + 1 + c.utf8Size + 1))) := by
  obtain ⟨d, hprogram⟩ := exists_body_of_isClean hclean
  have hlevels := d.levels_le_iff.mpr (not_isTooDeep_of_isClean hclean)
  have hleads := Token.leads_illegal_newline hquote hillegal b.toList
  have hscan := scan_stray b d.kind_ne_illegal hleads
  have hstop := utf8ByteSize_stray a b c
  generalize a.utf8ByteSize + 1 + c.utf8Size + 1 = n at hscan hstop ⊢
  have hrest : headKind ((Token.scan 0 0 b.toList).map (·.relocate (.shift n))) ≠ .period := by
    rw [headKind_map_relocate]
    exact headKind_scan_ne_period hfirst
  have hrun := d.program_stray hlevels List.mem_cons_self rfl hrest
    (program_report_facing hstop _ (.ofText .illegal (a.utf8ByteSize + 1) [c]))
  rw [← hscan, State.facing_ofSource] at hrun
  rw [hprogram, Document.program_ofSource, Document.program_ofSource,
    Document.diagnostics_ofSource, Document.diagnostics_ofSource, hrun]
  exact ⟨rfl, State.toList_diagnostics_resume _⟩

/-- The first script is not closed, and the second begins with an operator and ends in the middle
of a call. Without the three bytes of `€` between them the operator would have gone on with the
first. -/
theorem document_stray_operator :
    (Document.ofSource "f(1)").isClean = true ∧
      (Document.ofSource ("f(1)" ++ "\n" ++ String.singleton '€' ++ "\n" ++ "- g(2")
        ).program.statements.length = 2 ∧
      (Document.ofSource ("f(1)" ++ "\n" ++ String.singleton '€' ++ "\n" ++ "- g(2")).diagnostics
        = ⟨.missingPrefixRule .illegal, ⟨5, 8⟩⟩ ::
          (Document.ofSource "- g(2").diagnostics.map (·.relocate (.shift 9)) := by
  have hclean : (Document.ofSource "f(1)").isClean = true := by decide +kernel
  have hstray := document_stray "f(1)" "- g(2" '€' hclean (by decide) (by decide +kernel)
    (by decide +kernel)
  refine ⟨hclean, ?_, hstray.2⟩
  rw [hstray.1]
  decide +kernel

end Grammar

end DrawScript
