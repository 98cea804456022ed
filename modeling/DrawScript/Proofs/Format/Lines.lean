import DrawScript.Format.Builtin
import Mathlib.Data.List.Basic
import Mathlib.Tactic.SplitIfs

/-!
# Lines of plain text

Two formats write one line for one thing, a string or a node, and close every line with a line feed.
A reader cuts such a text at its line feeds and drops the empty piece behind the last of them. What
this gives is said here once for both: the lines that were written, if none of them holds a line
feed, and never these otherwise (`pieces_stringLines_eq_iff`).
-/

namespace DrawScript

/-- The pieces of a text between its line feeds. There is one more of them than there are line
feeds, so a text that ends in a line feed has an empty piece at its end. -/
def Text.pieces (text : String) : List String :=
  (text.toList.splitOn '\n').map String.ofList

namespace Format

open Text (pieces)

theorem pieces_of_not_mem {text : String} (h : '\n' ∉ text.toList) : pieces text = [text] := by
  rw [pieces, List.splitOn_eq_singleton h, List.map_singleton, String.ofList_toList]

theorem pieces_append_newline (a b : String) : pieces (a ++ "\n" ++ b) = pieces a ++ pieces b := by
  have htext : (a ++ "\n" ++ b).toList = a.toList ++ '\n' :: b.toList := by simp
  rw [pieces, htext, List.splitOn_append_cons_self, List.map_append, ← pieces, ← pieces]

/-- Cutting leaves no line feed in a piece. -/
theorem not_mem_of_mem_splitOn {α : Type} [DecidableEq α] {a : α} {xs l : List α}
    (h : l ∈ xs.splitOn a) : a ∉ l := by
  induction xs generalizing l with
  | nil =>
    rw [List.splitOn_nil, List.mem_singleton] at h
    rw [h]
    exact List.not_mem_nil
  | cons x xs ih =>
    rw [List.splitOn_cons_eq_if_modifyHead] at h
    split_ifs at h with hx
    · rcases List.mem_cons.mp h with rfl | h
      · exact List.not_mem_nil
      · exact ih h
    · -- the first piece grows by `x`, the others stay
      cases hpieces : xs.splitOn a with
      | nil => exact absurd hpieces (List.splitOn_ne_nil a xs)
      | cons m ms =>
        rw [hpieces, List.modifyHead_cons] at h
        rcases List.mem_cons.mp h with rfl | h
        · rw [List.mem_cons, not_or]
          refine ⟨fun heq ↦ hx (by simp [heq]), ih ?_⟩
          rw [hpieces]
          exact List.mem_cons_self
        · refine ih ?_
          rw [hpieces]
          exact List.mem_cons_of_mem m h

theorem newline_not_mem_of_mem_pieces {text piece : String} (h : piece ∈ pieces text) :
    '\n' ∉ piece.toList := by
  obtain ⟨l, hl, rfl⟩ := List.mem_map.mp h
  rw [String.toList_ofList]
  exact not_mem_of_mem_splitOn hl

@[simp] theorem stringLines_nil : stringLines [] = "" := rfl

theorem stringLines_cons (line : String) (lines : List String) :
    stringLines (line :: lines) = line ++ "\n" ++ stringLines lines := by
  rw [stringLines, List.map_cons, String.join_cons, ← stringLines]

theorem stringLines_append (lines more : List String) :
    stringLines (lines ++ more) = stringLines lines ++ stringLines more := by
  induction lines with
  | nil => simp
  | cons line lines ih =>
    rw [List.cons_append, stringLines_cons, stringLines_cons, ih, ← String.append_assoc]

/-- Behind the last line there is nothing. -/
theorem pieces_stringLines (lines : List String) :
    pieces (stringLines lines) = lines.flatMap pieces ++ [""] := by
  induction lines with
  | nil => rfl
  | cons line lines ih =>
    rw [stringLines_cons, pieces_append_newline, ih, List.flatMap_cons, List.append_assoc]

/-- The lines of a text are read back exactly if no line feed is inside of them. -/
theorem pieces_stringLines_eq_iff (lines : List String) :
    pieces (stringLines lines) = lines ++ [""] ↔ ∀ line ∈ lines, '\n' ∉ line.toList := by
  constructor
  · intro h line hline
    have hpiece : line ∈ pieces (stringLines lines) := by
      rw [h]
      exact List.mem_append_left _ hline
    exact newline_not_mem_of_mem_pieces hpiece
  · intro h
    have hsingle : lines.flatMap pieces = lines.flatMap fun line ↦ [line] :=
      List.flatMap_congr fun line hline ↦ pieces_of_not_mem (h line hline)
    rw [pieces_stringLines, hsingle, List.flatMap_singleton']

end Format

end DrawScript
