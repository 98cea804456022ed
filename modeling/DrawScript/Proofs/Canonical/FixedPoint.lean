import DrawScript.Proofs.Canonical.RoundTrip

/-!
# Canonical text as a fixed point

Reading a source and rendering its tree is meant to be done once: the canonical text of a canonical
text should be that text again. This holds for every source whose canonical text can still be read,
and for no other. Canonical text can be too deep for the parser although the source was not, because
every operator and every index stands in parentheses there, and a parenthesis takes a level.

Where it is too deep, the second text cannot be the first by chance. The second tree has fewer nodes
than the first (`Grammar.sizeList_lt_of_isTooDeep`), and a canonical text has only one tree.
-/

namespace DrawScript

open DrawScript.Parser (nestingLimit wellFormed_program)

/-- The canonical text of what is sound in a source. -/
def canonicalText (source : String) : String :=
  (Document.ofSource source).program.render

/-- A well-formed script is read back from its canonical text and rendered to the same text exactly
if that text takes no more levels than the parser opens. -/
theorem render_program_eq_iff {p : Program} (hp : p.WellFormed) :
    (Document.ofSource p.render).program.render = p.render ↔ p.depth ≤ nestingLimit := by
  rw [← Nat.not_lt, ← Grammar.isTooDeep_render_iff hp]
  constructor
  · intro hfixed hdeep
    -- equal texts come from equal trees, but the second tree has lost a node
    have hunplaced := Grammar.unplaced_eq_of_render_eq (wellFormed_program p.render) hp hfixed
    have hlost := Grammar.sizeList_lt_of_isTooDeep hp hdeep
    exact hlost.ne (Program.sizeList_eq_of_unplaced_eq hunplaced)
  · intro hdeep
    exact Program.render_eq_of_unplaced_eq (Grammar.document_eq_of_render hp hdeep).2

/-- **Canonical text is a fixed point as far as it can be read.** Rendering twice is rendering once
exactly if the canonical text takes no more levels than the parser opens. -/
theorem canonicalText_fixed_iff (source : String) :
    canonicalText (canonicalText source) = canonicalText source ↔
      (Document.ofSource source).program.depth ≤ nestingLimit := by
  rw [canonicalText, canonicalText]
  exact render_program_eq_iff (wellFormed_program source)

/-- Sixty-four signs are read without a remark, but their canonical text is one level too deep. -/
theorem canonicalText_not_fixed :
    (Document.ofSource "----------------------------------------------------------------1").isClean
      = true ∧
    canonicalText (canonicalText
        "----------------------------------------------------------------1") ≠
      canonicalText "----------------------------------------------------------------1" := by
  decide +kernel

end DrawScript
