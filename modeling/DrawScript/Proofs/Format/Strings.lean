import DrawScript.Proofs.Extraction.Segments
import DrawScript.Proofs.Format.Lines

/-!
# A string a line

The strings format closes every string with a line feed, empty strings too, and writes nothing else.
It does not look into the strings. Whether the lines of its output are the strings of the drawing is
therefore a question about the texts of the segments: a string literal may go over several lines,
and any other last argument of a segment is written as canonical text, in which comments end in line
feeds. One such segment is enough, and the output has more lines than there are strings.

Paragraphs do not change this. What is in a segment is in the string that the segment becomes part
of, and a separator without line feeds adds none (`Program.forall_not_mem_strings_iff`).
-/

namespace DrawScript

/-! ## Characters of strings -/

section Characters

variable {c : Char} {separator : String}

theorem not_mem_join_iff (texts : List String) :
    c ∉ (String.join texts).toList ↔ ∀ text ∈ texts, c ∉ text.toList := by
  rw [String.toList_join, List.mem_flatMap]
  simp

theorem not_mem_intercalate_iff (h : c ∉ separator.toList) (texts : List String) :
    c ∉ (separator.intercalate texts).toList ↔ ∀ text ∈ texts, c ∉ text.toList := by
  induction texts with
  | nil => simp
  | cons text texts ih =>
    cases texts with
    | nil => simp
    | cons next texts =>
      rw [String.intercalate_cons_cons, List.forall_mem_cons, ← ih]
      simp [h]

/-- A character is in no string of an expression exactly if it is in no segment that is reached. -/
theorem Expr.forall_not_mem_strings_iff (h : c ∉ separator.toList) (address : Address) (e : Expr) :
    (∀ s ∈ (e.harvest separator).strings, c ∉ s.toList) ↔
      ∀ text ∈ (e.reached address).filterMap fun n ↦ n.2.segment?, c ∉ text.toList := by
  induction e using Expr.walk_induction generalizing address with
  | node e ih =>
    have hchildren : (∀ s ∈ e.children.flatMap fun d ↦ (d.2.harvest separator).strings,
          c ∉ s.toList) ↔
        ∀ text ∈ e.children.flatMap fun d ↦
          (d.2.reached (address ++ d.1)).filterMap fun n ↦ n.2.segment?, c ∉ text.toList := by
      rw [List.forall_mem_flatMap, List.forall_mem_flatMap]
      exact forall₂_congr fun d hd ↦ ih d hd (address ++ d.1)
    rw [Expr.segments_eq, List.forall_mem_append, ← hchildren]
    cases hparagraph : e.isParagraph with
    | false => rw [Expr.strings_harvest_eq separator hparagraph, List.forall_mem_append]
    | true =>
      have hsegment : ∀ text ∈ e.segment?.toList, c ∉ text.toList := by
        rw [Expr.segment?_of_isParagraph hparagraph]
        exact List.forall_mem_nil _
      rw [and_iff_right hsegment]
      obtain ⟨token, callee, arguments, rfl, hform⟩ := Expr.isParagraph_iff.mp hparagraph
      rw [Expr.strings_harvest_paragraph separator hform, List.forall_mem_singleton,
        not_mem_join_iff, List.forall_mem_map,
        Expr.flatMap_children_call (fun e ↦ (e.harvest separator).strings) token arguments
          (Expr.namesContainer_of_form? hform), List.forall_mem_flatMap]
      exact forall₂_congr fun a _ ↦ not_mem_intercalate_iff h _

theorem Program.forall_not_mem_strings_iff (h : c ∉ separator.toList) (program : Program) :
    (∀ s ∈ (program.harvest separator).strings, c ∉ s.toList) ↔
      ∀ text ∈ program.segments, c ∉ text.toList := by
  rw [Program.strings_harvest, Program.segments_eq, List.forall_mem_flatMap,
    List.forall_mem_flatMap]
  exact forall₂_congr fun d _ ↦ Expr.forall_not_mem_strings_iff h d.1 d.2

end Characters

/-! ## The strings format -/

namespace Format

open Text (pieces)

/-- **A string a line, as far as segments stay on one.** The output of the strings format always
ends with its last line. If the separator holds no line feed, then cutting the output at its line
feeds gives the extracted strings exactly if no segment holds one either. -/
theorem strings_pieces_iff (extractor : Extractor) (h : '\n' ∉ extractor.separator.toList)
    (document : Document) :
    ∃ output, (strings extractor).serialize document = .ok output ∧
      (pieces output.text).getLast? = some "" ∧
      (pieces output.text = (extractor.extract document.program).strings ++ [""] ↔
        ∀ text ∈ document.program.segments, '\n' ∉ text.toList) := by
  refine ⟨_, rfl, ?_, ?_⟩
  · rw [pieces_stringLines, List.getLast?_concat]
  · rw [pieces_stringLines_eq_iff]
    exact Program.forall_not_mem_strings_iff h document.program

/-- Empty strings have their lines, and a paragraph has one for all of its segments. -/
theorem strings_pieces_kept :
    '\n' ∉ Extractor.default.separator.toList ∧
      ∃ output, (strings .default).serialize
          (.ofSource "text(). str_seg('a'). text([str_seg('b'), str_seg(\"it's\")])") = .ok output ∧
        pieces output.text = ["", "a", "b it's"] ++ [""] := by
  have hseparator : '\n' ∉ Extractor.default.separator.toList := by decide
  refine ⟨hseparator, ?_⟩
  obtain ⟨output, houtput, -, hpieces⟩ := strings_pieces_iff .default hseparator
    (.ofSource "text(). str_seg('a'). text([str_seg('b'), str_seg(\"it's\")])")
  refine ⟨output, houtput, (hpieces.mpr (by decide +kernel)).trans (congrArg (· ++ [""]) ?_)⟩
  decide +kernel

/-- A literal over two lines is one string and two lines of output. -/
theorem strings_pieces_not_kept :
    ∃ output, (strings .default).serialize (.ofSource "str_seg('a\nb')") = .ok output ∧
      (Extractor.default.extract (Document.ofSource "str_seg('a\nb')").program).strings = ["a\nb"] ∧
      pieces output.text = ["a", "b"] ++ [""] := by
  refine ⟨_, rfl, ?_, ?_⟩
  · decide +kernel
  · decide +kernel

end Format

end DrawScript
