import DrawScript.Proofs.Parser.Relocation
import DrawScript.Proofs.Extraction.Unplaced
import DrawScript.Proofs.Grammar.Documents
import DrawScript.Proofs.Token.Respacing

/-!
# Layout does not matter

Two sources with the same tokens, at whatever places, are read in the same way. To compare them all
tokens are taken to one and the same place (`Relocation.nowhere`). The parser carries this
relocation like any other from its input to its output, and the two inputs become equal by it, so
the trees and the diagnostics do too (`relocate_program_eq`).

Together with what is known of respaced sources this says that blanks have no meaning but to keep
tokens apart: other blanks give the same tree up to spans, the same faults, the same canonical text
and the same extracted strings, also if the source is damaged.
-/

namespace DrawScript

/-! ## Everything in one place -/

/-- All tokens stand at the same place. -/
def Relocation.nowhere : Relocation where
  place _ := ⟨0, 0⟩
  mark _ := 0
  place_mark _ := rfl

theorem Token.map_relocate_nowhere {ts us : List Token}
    (h : ts.map (fun t ↦ (t.kind, t.lexeme)) = us.map fun t ↦ (t.kind, t.lexeme)) :
    ts.map (·.relocate .nowhere) = us.map (·.relocate .nowhere) := by
  -- at a place that is known a token is its kind and its lexeme
  have hfactor : ∀ vs : List Token, vs.map (·.relocate .nowhere)
      = (vs.map fun t ↦ (t.kind, t.lexeme)).map fun p ↦ ⟨p.1, p.2, ⟨0, 0⟩⟩ := fun vs ↦ by
    rw [List.map_map]
    rfl
  rw [hfactor, hfactor, h]

variable {r : Relocation}

mutual

theorem Expr.unplaced_relocate : (e : Expr) → (e.relocate r).unplaced = e.unplaced
  | .identifier _ | .integer _ _ | .real _ _ | .string _ _ | .boolean _ _ => rfl
  | .unary _ _ right => by
    simp [Expr.relocate, Expr.unplaced, Token.unplaced, Expr.unplaced_relocate right]
  | .binary _ left _ right => by
    simp [Expr.relocate, Expr.unplaced, Token.unplaced, Expr.unplaced_relocate left,
      Expr.unplaced_relocate right]
  | .function _ parameters _ body => by
    simp [Expr.relocate, Expr.unplaced, Token.unplaced, Identifier.relocate, Identifier.unplaced,
      Stmt.unplaced_relocateList body]
  | .call _ callee arguments => by
    simp [Expr.relocate, Expr.unplaced, Token.unplaced, Expr.unplaced_relocate callee,
      Expr.unplaced_relocateList arguments]
  | .array _ elements => by
    simp [Expr.relocate, Expr.unplaced, Token.unplaced, Expr.unplaced_relocateList elements]
  | .index _ left position => by
    simp [Expr.relocate, Expr.unplaced, Token.unplaced, Expr.unplaced_relocate left,
      Expr.unplaced_relocate position]

theorem Expr.unplaced_relocateList :
    (es : List Expr) → Expr.unplacedList (Expr.relocateList r es) = Expr.unplacedList es
  | [] => rfl
  | e :: es => by
    simp [Expr.relocateList, Expr.unplacedList, Expr.unplaced_relocate e,
      Expr.unplaced_relocateList es]

theorem Stmt.unplaced_relocate : (s : Stmt) → (s.relocate r).unplaced = s.unplaced
  | .comment _ => rfl
  | .expression _ value => by
    simp [Stmt.relocate, Stmt.unplaced, Expr.unplaced_relocate value]

theorem Stmt.unplaced_relocateList :
    (ss : List Stmt) → Stmt.unplacedList (Stmt.relocateList r ss) = Stmt.unplacedList ss
  | [] => rfl
  | s :: ss => by
    simp [Stmt.relocateList, Stmt.unplacedList, Stmt.unplaced_relocate s,
      Stmt.unplaced_relocateList ss]

end

/-- A tree that is moved and the tree itself are the same without places. -/
theorem Program.unplaced_relocate (program : Program) :
    (program.relocate r).unplaced = program.unplaced :=
  congrArg Program.mk (Stmt.unplaced_relocateList program.statements)

/-! ## Sources with the same tokens -/

namespace Parser

/-- The states before two sources with the same tokens differ in places alone. -/
theorem relocate_ofSource_eq {a b : String}
    (h : (Token.scan 0 0 a.toList).map (fun t ↦ (t.kind, t.lexeme))
      = (Token.scan 0 0 b.toList).map fun t ↦ (t.kind, t.lexeme)) :
    (State.ofSource a).relocate .nowhere = (State.ofSource b).relocate .nowhere := by
  rw [State.relocate, State.relocate, State.ofSource, State.ofSource]
  simp only [Token.map_relocate_nowhere h]
  rfl

/-- Sources with the same tokens are read in the same way. -/
theorem relocate_program_eq {a b : String}
    (h : (Token.scan 0 0 a.toList).map (fun t ↦ (t.kind, t.lexeme))
      = (Token.scan 0 0 b.toList).map fun t ↦ (t.kind, t.lexeme)) :
    (Document.ofSource a).program.relocate .nowhere
        = (Document.ofSource b).program.relocate .nowhere ∧
      (Document.ofSource a).diagnostics.map (·.fault)
        = (Document.ofSource b).diagnostics.map (·.fault) := by
  have hrun := congrArg program (relocate_ofSource_eq h)
  rw [carries_program, carries_program, Prod.mk.injEq] at hrun
  obtain ⟨hprogram, hstate⟩ := hrun
  have hfaults := congrArg (fun s : State ↦ s.diagnostics.toList.map (·.fault)) hstate
  simp only [State.relocate, Diagnostic.relocate, Array.toList_map, List.map_map,
    Function.comp_def] at hfaults
  exact ⟨hprogram, hfaults⟩

/-- **Layout does not matter.** A source without illegal tokens, clean or not, and the same tokens
with other blanks that keep them apart have the same kinds and lexemes, the same tree but for
spans, one by one the same faults and so the same messages, the same canonical text, and the same
strings to extract. -/
theorem document_respaced (source : String) (lead : List Char) (gaps : List (List Char))
    (hlegal : ∀ t ∈ Token.tokenize source, t.kind ≠ .illegal)
    (hlead : ∀ c ∈ lead, Token.isBlank c = true)
    (hgaps : Token.KeepApart (Token.tokenize source).dropLast gaps) :
    (Token.tokenize (Token.respace source lead gaps)).map (fun t ↦ (t.kind, t.lexeme))
        = (Token.tokenize source).map (fun t ↦ (t.kind, t.lexeme)) ∧
      (Document.ofSource (Token.respace source lead gaps)).program.relocate .nowhere
        = (Document.ofSource source).program.relocate .nowhere ∧
      (Document.ofSource (Token.respace source lead gaps)).diagnostics.map (·.fault)
        = (Document.ofSource source).diagnostics.map (·.fault) ∧
      (Document.ofSource (Token.respace source lead gaps)).program.render
        = (Document.ofSource source).program.render ∧
      ∀ extractor : Extractor,
        extractor.extract (Document.ofSource (Token.respace source lead gaps)).program
          = extractor.extract (Document.ofSource source).program := by
  rw [Grammar.dropLast_tokenize] at hgaps
  have htokens := Token.scan_respace (fun t ht ↦ hlegal t (List.mem_append_left _ ht)) hlead hgaps
  obtain ⟨hprogram, hfaults⟩ := relocate_program_eq htokens
  have hunplaced : (Document.ofSource (Token.respace source lead gaps)).program.unplaced
      = (Document.ofSource source).program.unplaced := by
    rw [← Program.unplaced_relocate (r := .nowhere), hprogram, Program.unplaced_relocate]
  refine ⟨?_, hprogram, hfaults, Program.render_eq_of_unplaced_eq hunplaced, fun extractor ↦
    extractor.extract_eq_of_unplaced_eq hunplaced⟩
  rw [Token.tokenize, Token.tokenize, List.map_append, List.map_append, htokens]
  rfl

/-- An unclosed call with a number before a period, blanks in a string and a comment that ends in
blanks: only the line break behind the comment has to stay. -/
theorem document_respaced_damaged :
    (∀ t ∈ Token.tokenize "f(1 .'a\tb'% c \r\n,", t.kind ≠ .illegal) ∧
      Token.respace "f(1 .'a\tb'% c \r\n," [' ']
          [['\n'], [' '], ['\t', ' '], [' '], ['\r'], ['\n', '\n'], []]
        = " f\n( 1\t . 'a\tb'\r% c \r\n\n," ∧
      (Document.ofSource "f(1 .'a\tb'% c \r\n,").isClean = false ∧
      (Document.ofSource " f\n( 1\t . 'a\tb'\r% c \r\n\n,").diagnostics.map (·.fault)
        = (Document.ofSource "f(1 .'a\tb'% c \r\n,").diagnostics.map (·.fault) := by
  have hlegal : ∀ t ∈ Token.tokenize "f(1 .'a\tb'% c \r\n,", t.kind ≠ .illegal := by
    decide +kernel
  have htext : Token.respace "f(1 .'a\tb'% c \r\n," [' ']
      [['\n'], [' '], ['\t', ' '], [' '], ['\r'], ['\n', '\n'], []]
        = " f\n( 1\t . 'a\tb'\r% c \r\n\n," := by
    decide +kernel
  have hrespaced := document_respaced "f(1 .'a\tb'% c \r\n," [' ']
    [['\n'], [' '], ['\t', ' '], [' '], ['\r'], ['\n', '\n'], []] hlegal
    (List.all_eq_true.mp rfl) (by decide +kernel)
  rw [htext] at hrespaced
  exact ⟨hlegal, htext, by decide +kernel, hrespaced.2.2.1⟩

end Parser

end DrawScript
