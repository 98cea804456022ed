import DrawScript.Outline.Drawing
import DrawScript.Proofs.Format.Lines

/-!
# What a drawing shows

A drawing has nothing but margins and connectors to say which node is below which, and labels may
hold the very characters that these are made of. They are still never confused. Columns and
connectors come first on a line, the heading behind them starts with an icon, and no icon is a
character of a column or a connector. So a line can be read from its left end (`readLine`): it gives
the depth of a node and its heading. The depths of the nodes, in the order of the tree, then leave
only one tree.

What is on the lines is the *sketch* of the outline, the tree of its icons and cut labels. Two
sorts of node with one icon, and two labels that agree as far as there is room, look the same, so
nothing more can be read back. A line feed among the drawn characters of a label would break its
line in two; the outlines without one are the *unbroken* ones.
-/

namespace DrawScript

open Text (pieces)
open Format (stringLines)

/-! ## Headings -/

/-- The text that a line shows of its node, behind the connectors. -/
def Outline.heading (icon label : String) : String := icon ++ " " ++ label

/-- Icons are single characters, none of which is drawn to the left of a heading. -/
theorem NodeType.exists_icon_eq (type : NodeType) :
    ∃ c, type.icon = String.singleton c ∧ c ∉ [' ', '│', '├', '└', '\n'] := by
  refine ⟨type.icon.front, ?_⟩
  cases type <;> decide

namespace Outline

theorem heading_inj {type type' : NodeType} {label label' : String}
    (h : heading type.icon label = heading type'.icon label') :
    type.icon = type'.icon ∧ label = label' := by
  obtain ⟨c, hc, -⟩ := type.exists_icon_eq
  obtain ⟨c', hc', -⟩ := type'.exists_icon_eq
  rw [heading, heading, hc, hc', ← String.toList_inj] at h
  simp only [String.toList_append, String.toList_singleton, List.cons_append, List.nil_append,
    List.cons.injEq] at h
  rw [hc, hc', h.1]
  exact ⟨rfl, String.toList_inj.mp (List.append_cancel_left h.2)⟩

/-- Three dots bring no line feed. -/
theorem newline_mem_truncate_iff (label : String) :
    '\n' ∈ (truncate label).toList ↔ '\n' ∈ label.toList.take labelWidth := by
  rw [truncate]
  split
  case isTrue => simp
  case isFalse h =>
    rw [List.take_of_length_le]
    rw [String.length_toList]
    exact Nat.le_of_not_lt h

theorem newline_mem_heading_iff (type : NodeType) (label : String) :
    '\n' ∈ (heading type.icon (truncate label)).toList ↔ '\n' ∈ label.toList.take labelWidth := by
  obtain ⟨c, hc, hnot⟩ := type.exists_icon_eq
  have hne : '\n' ≠ c := fun heq ↦ hnot (heq ▸ by decide)
  rw [← newline_mem_truncate_iff, heading, hc]
  simp [hne]

/-! ## Nodes and sketches -/

/-- A node of an outline without what is below it. -/
structure Entry where
  depth : Nat
  type : NodeType
  label : String
  deriving DecidableEq, Repr

/-- What a line of a drawing tells of a node: its depth and its heading. -/
def Entry.row (entry : Entry) : Nat × String :=
  (entry.depth, heading entry.type.icon (truncate entry.label))

mutual

/-- The nodes of an outline whose root is at the given depth, every node before those below it. -/
def entries (depth : Nat) : Outline → List Entry
  | node type label children => ⟨depth, type, label⟩ :: entriesList (depth + 1) children

/-- The nodes of outlines in a row. -/
def entriesList (depth : Nat) : List Outline → List Entry
  | [] => []
  | o :: os => o.entries depth ++ entriesList depth os

end

/-- No label has a line feed among the characters that are drawn. -/
def Unbroken (outline : Outline) : Prop :=
  ∀ entry ∈ outline.entries 0, '\n' ∉ entry.label.toList.take labelWidth

instance (outline : Outline) : Decidable outline.Unbroken :=
  inferInstanceAs (Decidable (∀ entry ∈ outline.entries 0, _))

end Outline

/-- The tree of what is drawn: the icon of every node and the part of its label that has room. -/
inductive Sketch where
  | node (icon label : String) (children : List Sketch)

namespace Outline

mutual

/-- The sketch of an outline. -/
def sketch : Outline → Sketch
  | node type label children => .node type.icon (truncate label) (sketchList children)

/-- The sketches of outlines in a row. -/
def sketchList : List Outline → List Sketch
  | [] => []
  | o :: os => o.sketch :: sketchList os

end

/-- What stands on the left of a child's heading. -/
def connector (last : Bool) : String := if last then "└─ " else "├─ "

/-- What stands on the left of everything below a child. -/
def column (last : Bool) : String := if last then "  " else "│ "

end Outline

open Outline (heading connector column)

/-! ## Lines -/

namespace Sketch

mutual

/-- The lines of a child and of what is below it. -/
def linesBelow (margin : String) (last : Bool) : Sketch → List String
  | node icon label children =>
    (margin ++ connector last ++ heading icon label) ::
      linesList (margin ++ column last) children

/-- The lines of the children of a node. -/
def linesList (margin : String) : List Sketch → List String
  | [] => []
  | s :: ss => s.linesBelow margin ss.isEmpty ++ linesList margin ss

end

/-- The lines of a drawing. -/
def lines : Sketch → List String
  | node icon label children => heading icon label :: linesList "" children

end Sketch

namespace Outline

mutual

theorem drawBelow_eq (margin : String) (last : Bool) :
    (o : Outline) → drawBelow margin last o = stringLines (o.sketch.linesBelow margin last)
  | node type label children => by
    rw [drawBelow, sketch, Sketch.linesBelow, Format.stringLines_cons, drawChildren_eq, caption,
      heading, connector, column]
    simp only [String.append_assoc]

theorem drawChildren_eq (margin : String) :
    (os : List Outline) →
      drawChildren margin os = stringLines (Sketch.linesList margin (sketchList os))
  | [] => rfl
  | [o] => by
    rw [drawChildren, drawBelow_eq, sketchList, sketchList, Sketch.linesList, Sketch.linesList,
      List.append_nil, List.isEmpty_nil]
  | o :: next :: os => by
    rw [drawChildren, drawBelow_eq, drawChildren_eq margin (next :: os),
      ← Format.stringLines_append]
    rfl

end

/-- A drawing is the lines of its sketch. -/
theorem draw_eq (o : Outline) : o.draw = stringLines o.sketch.lines := by
  obtain ⟨type, label, children⟩ := o
  rw [draw, drawChildren_eq, sketch, Sketch.lines, Format.stringLines_cons, caption, heading]
  rfl

/-! ## Reading lines -/

/-- Columns are counted up to a connector. What has neither is the line of the root. -/
def readColumns : List Char → Nat × List Char
  | ' ' :: ' ' :: cs => ((readColumns cs).1 + 1, (readColumns cs).2)
  | '│' :: ' ' :: cs => ((readColumns cs).1 + 1, (readColumns cs).2)
  | '├' :: '─' :: ' ' :: cs => (1, cs)
  | '└' :: '─' :: ' ' :: cs => (1, cs)
  | cs => (0, cs)

/-- The depth and the heading that a line tells. -/
def readLine (line : String) : Nat × String :=
  ((readColumns line.toList).1, String.ofList (readColumns line.toList).2)

/-- Only what is on the left of a heading is lost. -/
theorem newline_mem_readColumns_iff (cs : List Char) :
    '\n' ∈ (readColumns cs).2 ↔ '\n' ∈ cs := by
  fun_induction readColumns cs <;> simp_all

/-- A margin of so many columns, whatever stands behind it. -/
def IsMargin (depth : Nat) (margin : String) : Prop :=
  ∀ cs, readColumns (margin.toList ++ cs) = ((readColumns cs).1 + depth, (readColumns cs).2)

theorem isMargin_empty : IsMargin 0 "" := fun _ ↦ rfl

theorem IsMargin.append_column {depth : Nat} {margin : String} (h : IsMargin depth margin)
    (last : Bool) : IsMargin (depth + 1) (margin ++ column last) := by
  intro cs
  have hcolumn : readColumns ((column last).toList ++ cs) =
      ((readColumns cs).1 + 1, (readColumns cs).2) := by
    cases last <;> rfl
  rw [String.toList_append, List.append_assoc, h, hcolumn]
  simp only [Nat.add_comm 1, Nat.add_assoc]

theorem readLine_heading (type : NodeType) (label : String) :
    readLine (heading type.icon label) = (0, heading type.icon label) := by
  have hcolumns : readColumns (heading type.icon label).toList =
      (0, (heading type.icon label).toList) := by
    cases type <;> simp [readColumns, heading, NodeType.icon]
  rw [readLine, hcolumns, String.ofList_toList]

theorem IsMargin.readLine_connector {depth : Nat} {margin : String} (h : IsMargin depth margin)
    (last : Bool) (text : String) :
    readLine (margin ++ connector last ++ text) = (depth + 1, text) := by
  have hconnector : readColumns ((connector last).toList ++ text.toList) = (1, text.toList) := by
    cases last <;> rfl
  rw [readLine, String.toList_append, String.toList_append, List.append_assoc, h, hconnector]
  simp [Nat.add_comm]

mutual

theorem map_readLine_linesBelow {depth : Nat} {margin : String} (h : IsMargin depth margin)
    (last : Bool) : (o : Outline) →
      (o.sketch.linesBelow margin last).map readLine = (o.entries (depth + 1)).map Entry.row
  | node type label children => by
    rw [sketch, Sketch.linesBelow, entries, List.map_cons, List.map_cons, h.readLine_connector,
      map_readLine_linesList (h.append_column last) children]
    rfl

theorem map_readLine_linesList {depth : Nat} {margin : String} (h : IsMargin depth margin) :
    (os : List Outline) →
      (Sketch.linesList margin (sketchList os)).map readLine =
        (entriesList (depth + 1) os).map Entry.row
  | [] => rfl
  | o :: os => by
    rw [sketchList, Sketch.linesList, entriesList, List.map_append, List.map_append,
      map_readLine_linesBelow h _ o, map_readLine_linesList h os]

end

/-- There is one line for every node, and it tells the depth and the heading of the node. -/
theorem map_readLine_lines (o : Outline) :
    o.sketch.lines.map readLine = (o.entries 0).map Entry.row := by
  obtain ⟨type, label, children⟩ := o
  rw [sketch, Sketch.lines, entries, List.map_cons, List.map_cons, readLine_heading,
    map_readLine_linesList isMargin_empty children]
  rfl

/-- The lines of an unbroken outline are lines. -/
theorem Unbroken.newline_not_mem {o : Outline} (h : o.Unbroken) :
    ∀ line ∈ o.sketch.lines, '\n' ∉ line.toList := by
  intro line hline hmem
  have hrow : readLine line ∈ (o.entries 0).map Entry.row := by
    rw [← map_readLine_lines]
    exact List.mem_map_of_mem hline
  obtain ⟨entry, hentry, heq⟩ := List.mem_map.mp hrow
  refine h entry hentry ?_
  rw [← newline_mem_heading_iff entry.type]
  have hheading : heading entry.type.icon (truncate entry.label) = (readLine line).2 :=
    congrArg Prod.snd heq
  rw [hheading, readLine, String.toList_ofList, newline_mem_readColumns_iff]
  exact hmem

/-! ## Reading trees -/

/-- Rows that do not go on at the given depth or below it. -/
def Ends (depth : Nat) (rows : List (Nat × String)) : Prop :=
  ∀ row ∈ rows.head?, row.1 < depth

theorem Ends.ne_cons {depth : Nat} {rows more : List (Nat × String)} {text : String}
    (h : Ends depth rows) : rows ≠ (depth, text) :: more := by
  rintro rfl
  exact Nat.lt_irrefl depth (h (depth, text) rfl)

/-- Outlines in a row end where something ends that is not below them. -/
theorem Ends.entriesList {depth : Nat} {rows : List (Nat × String)} (h : Ends depth rows)
    (os : List Outline) : Ends (depth + 1) ((entriesList depth os).map Entry.row ++ rows) := by
  cases os with
  | nil => exact fun row hrow ↦ Nat.lt_succ_of_lt (h row hrow)
  | cons o os =>
    obtain ⟨type, label, children⟩ := o
    rintro row ⟨⟩
    exact Nat.lt_succ_self depth

mutual

/-- Where the rows of an outline end, and which sketch they are of, is told by the depths. -/
theorem sketch_eq_of_rows {depth : Nat} {rows rows' : List (Nat × String)}
    (hrows : Ends (depth + 1) rows) (hrows' : Ends (depth + 1) rows') : (o o' : Outline) →
      (o.entries depth).map Entry.row ++ rows = (o'.entries depth).map Entry.row ++ rows' →
      o.sketch = o'.sketch ∧ rows = rows'
  | node type label children, node type' label' children', h => by
    rw [entries, entries, List.map_cons, List.map_cons, List.cons_append, List.cons_append,
      List.cons.injEq] at h
    obtain ⟨hicon, hlabel⟩ := heading_inj (congrArg Prod.snd h.1)
    obtain ⟨hchildren, hrest⟩ := sketchList_eq_of_rows hrows hrows' children children' h.2
    refine ⟨?_, hrest⟩
    rw [sketch, sketch, hicon, hlabel, hchildren]

theorem sketchList_eq_of_rows {depth : Nat} {rows rows' : List (Nat × String)}
    (hrows : Ends depth rows) (hrows' : Ends depth rows') : (os os' : List Outline) →
      (entriesList depth os).map Entry.row ++ rows =
        (entriesList depth os').map Entry.row ++ rows' →
      sketchList os = sketchList os' ∧ rows = rows'
  | [], [], h => ⟨rfl, h⟩
  | [], node _ _ _ :: _, h => absurd h hrows.ne_cons
  | node _ _ _ :: _, [], h => absurd h.symm hrows'.ne_cons
  | o :: os, o' :: os', h => by
    rw [entriesList, entriesList, List.map_append, List.map_append, List.append_assoc,
      List.append_assoc] at h
    obtain ⟨hhead, hrest⟩ :=
      sketch_eq_of_rows (hrows.entriesList os) (hrows'.entriesList os') o o' h
    obtain ⟨htail, hend⟩ := sketchList_eq_of_rows hrows hrows' os os' hrest
    refine ⟨?_, hend⟩
    rw [sketchList, sketchList, hhead, htail]

end

/-- The rows of an outline are those of one sketch only. -/
theorem sketch_eq_of_map_row_eq {o o' : Outline}
    (h : (o.entries 0).map Entry.row = (o'.entries 0).map Entry.row) : o.sketch = o'.sketch := by
  have hends : Ends 1 [] := fun _ hrow ↦ absurd hrow (by simp)
  refine (sketch_eq_of_rows hends hends o o' ?_).1
  rw [h]

theorem Unbroken.pieces_draw {o : Outline} (h : o.Unbroken) :
    pieces o.draw = o.sketch.lines ++ [""] := by
  rw [draw_eq, Format.pieces_stringLines_eq_iff]
  exact h.newline_not_mem

end Outline

/-- **A drawing determines what it shows.** The drawing of an unbroken outline has one line for
every node, in the order of the tree, and each line tells the depth and the heading of its node.
Two drawings of this kind are the same text exactly if they show the same icons and the same cut
labels in trees of the same shape. -/
theorem Program.draw_outline_eq_iff (p : Program) (hp : p.outline.Unbroken) :
    (∃ lines, pieces p.outline.draw = lines ++ [""] ∧
      lines.map Outline.readLine = (p.outline.entries 0).map Outline.Entry.row) ∧
    ∀ q : Program, q.outline.Unbroken →
      (p.outline.draw = q.outline.draw ↔ p.outline.sketch = q.outline.sketch) := by
  refine ⟨⟨_, hp.pieces_draw, Outline.map_readLine_lines _⟩, fun q hq ↦ ⟨fun h ↦ ?_, fun h ↦ ?_⟩⟩
  · have hlines : p.outline.sketch.lines ++ [""] = q.outline.sketch.lines ++ [""] := by
      rw [← hp.pieces_draw, ← hq.pieces_draw, h]
    refine Outline.sketch_eq_of_map_row_eq ?_
    rw [← Outline.map_readLine_lines, ← Outline.map_readLine_lines,
      List.append_cancel_right hlines]
  · rw [Outline.draw_eq, Outline.draw_eq, h]

/-- A connector inside of a label is read back as part of the label, here in two scripts that
differ in nothing that is drawn. -/
theorem Program.draw_outline_eq_iff_connector :
    let p := (Document.ofSource "f('├─ # 1')").program
    let q := (Document.ofSource "f( \"├─ # 1\" )").program
    p.outline.Unbroken ∧ q.outline.Unbroken ∧
      (∃ lines, pieces p.outline.draw = lines ++ [""] ∧
        lines.map Outline.readLine = [(0, "⧉ 1 statement"), (1, "¶ f(\"├─ # 1\")"),
          (2, "ƒ f(…)"), (3, "\" \"├─ # 1\"")]) ∧
      p.outline.draw = q.outline.draw ∧ p.outline.sketch = q.outline.sketch := by
  intro p q
  have hp : p.outline.Unbroken := by decide +kernel
  have hq : q.outline.Unbroken := by decide +kernel
  have hdraw : p.outline.draw = q.outline.draw := by decide +kernel
  obtain ⟨⟨lines, hpieces, hrows⟩, hiff⟩ := draw_outline_eq_iff p hp
  refine ⟨hp, hq, ⟨lines, hpieces, hrows.trans ?_⟩, hdraw, (hiff q hq).mp hdraw⟩
  decide +kernel

end DrawScript
