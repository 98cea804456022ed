import DrawScript.Proofs.Canonical.FixedPoint
import DrawScript.Proofs.Extraction.Unplaced

/-!
# What canonical text keeps

Canonical text loses the places of tokens and nothing else. Two well-formed scripts have the same
text exactly if they are the same script without places. This needs no bound on their nesting: a
script that is too deep to be read back still has a derivation from its text, and a text has at most
one (`Grammar.unplaced_eq_of_render_eq`).

Where the text is not too deep, the script that is read back from it therefore yields the same
strings, the same anomalies and the same log as the script that was rendered, and it does not matter
how damaged the source of that script was.
-/

namespace DrawScript

open DrawScript.Parser (wellFormed_program)

/-- **Canonical text identifies the script**, up to places. -/
theorem render_eq_render_iff (p q : Program) (hp : p.WellFormed) (hq : q.WellFormed) :
    p.render = q.render ↔ p.unplaced = q.unplaced :=
  ⟨Grammar.unplaced_eq_of_render_eq hp hq, Program.render_eq_of_unplaced_eq⟩

/-- Redundant parentheses, blanks and the quotes around a string leave no trace in the text, but
the number of statements does. -/
theorem render_eq_render_iff_respelled :
    (Document.ofSource "(f)(('a'))").program.unplaced
        = (Document.ofSource " f ( \"a\" ) .").program.unplaced ∧
      (Document.ofSource "f('a')").program.unplaced
        ≠ (Document.ofSource "f. ('a')").program.unplaced := by
  have hiff : ∀ a b : String, (Document.ofSource a).program.render
        = (Document.ofSource b).program.render ↔
      (Document.ofSource a).program.unplaced = (Document.ofSource b).program.unplaced :=
    fun a b ↦ render_eq_render_iff _ _ (wellFormed_program a) (wellFormed_program b)
  constructor
  · rw [← hiff]
    decide +kernel
  · rw [Ne, ← hiff]
    decide +kernel

/-- **Canonical text keeps the text of the drawing.** Whatever the source, its script and the script
that is read back from the canonical text yield the same strings, the same anomalies and the same
log, for every separator and whether or not anomalies are reported, unless the canonical text is
nested too deeply. -/
theorem extract_canonicalText (source : String)
    (hdeep : ¬(Document.ofSource (canonicalText source)).IsTooDeep) (extractor : Extractor) :
    extractor.extract (Document.ofSource (canonicalText source)).program
      = extractor.extract (Document.ofSource source).program := by
  have hread := Grammar.document_eq_of_render (wellFormed_program source) hdeep
  exact extractor.extract_eq_of_unplaced_eq hread.2

/-- A paragraph with an escaped quote, a name where text is looked for, a segment whose last
argument is no string, an operand that is missing and a call outside the vocabulary that is not
closed. -/
theorem extract_canonicalText_damaged :
    (Document.ofSource
        "text([str_seg(1, 'it\\'s'), oops, str_seg(1 - 2 * 3)]). 4 +. draw(5").isClean = false ∧
      ¬(Document.ofSource (canonicalText
        "text([str_seg(1, 'it\\'s'), oops, str_seg(1 - 2 * 3)]). 4 +. draw(5")).IsTooDeep ∧
      (Extractor.mk "_" true).extract (Document.ofSource (canonicalText
        "text([str_seg(1, 'it\\'s'), oops, str_seg(1 - 2 * 3)]). 4 +. draw(5")).program
        = ⟨["it's_(1 - (2 * 3))"], [⟨.identifier, "oops"⟩],
            [⟨.warn, "unsupported: oops [Identifier]"⟩, ⟨.debug, "skipping call to draw"⟩]⟩ := by
  have hdeep : ¬(Document.ofSource (canonicalText
      "text([str_seg(1, 'it\\'s'), oops, str_seg(1 - 2 * 3)]). 4 +. draw(5")).IsTooDeep := by
    refine Grammar.not_isTooDeep_of_isClean ?_
    decide +kernel
  refine ⟨by decide +kernel, hdeep, ?_⟩
  rw [extract_canonicalText _ hdeep]
  decide +kernel

end DrawScript
