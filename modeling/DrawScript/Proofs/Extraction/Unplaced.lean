import DrawScript.Proofs.Tree.Unplaced
import DrawScript.Extraction.Basic

/-!
# Extraction without places

The text of a drawing is read off the structure of the tree, the names of calls, the values of
strings and the canonical texts of nodes. None of these changes when places are forgotten, so trees
that differ in places alone yield the same strings, the same anomalies and the same log
(`Extractor.extract_eq_of_unplaced_eq`).
-/

namespace DrawScript

theorem Expr.nodeType_unplaced (e : Expr) : e.unplaced.nodeType = e.nodeType := by
  cases e <;> simp [Expr.unplaced, Expr.nodeType]

theorem Expr.identifier?_unplaced (e : Expr) : e.unplaced.identifier? = e.identifier? := by
  cases e <;> simp [Expr.unplaced, Expr.identifier?, Identifier.unplaced]

theorem Expr.plainText_unplaced (e : Expr) : e.unplaced.plainText = e.plainText := by
  have hrender := Expr.render_unplaced e
  cases e with
  | string token value => rfl
  | _ => exact hrender

theorem Expr.unplacedList_eq_map (es : List Expr) :
    Expr.unplacedList es = es.map (·.unplaced) := by
  induction es with
  | nil => rfl
  | cons e es ih => rw [Expr.unplacedList, ih, List.map_cons]

theorem Stmt.unplacedList_eq_map (ss : List Stmt) :
    Stmt.unplacedList ss = ss.map (·.unplaced) := by
  induction ss with
  | nil => rfl
  | cons s ss ih => rw [Stmt.unplacedList, ih, List.map_cons]

/-- The sorts of nodes that have no place where text is looked for. -/
def foreignTypes : List NodeType :=
  [.identifier, .unary, .binary, .function, .index]

theorem Expr.harvest_of_foreign (separator : String) {e : Expr} (h : e.nodeType ∈ foreignTypes) :
    e.harvest separator = .finding (.anomaly ⟨e.nodeType, e.render⟩) := by
  cases e with
  | identifier | unary | binary | function | index => simp [Expr.harvest]
  | integer | real | string | boolean | call | array =>
    exact absurd h (by simp [Expr.nodeType, foreignTypes])

theorem Expr.harvest_unplaced_of_foreign (separator : String) {e : Expr}
    (h : e.nodeType ∈ foreignTypes) : e.unplaced.harvest separator = e.harvest separator := by
  rw [Expr.harvest_of_foreign separator h,
    Expr.harvest_of_foreign separator (by rwa [Expr.nodeType_unplaced]), Expr.nodeType_unplaced,
    Expr.render_unplaced]

mutual

theorem Expr.harvest_unplaced (separator : String) :
    (e : Expr) → e.unplaced.harvest separator = e.harvest separator
  | .integer _ _ | .real _ _ | .string _ _ | .boolean _ _ => by
    simp [Expr.unplaced, Expr.harvest]
  | .array _ elements => by
    simp [Expr.unplaced, Expr.harvest, Expr.harvestList_unplaced separator elements]
  | .call token callee arguments => by
    have hlast : (Expr.unplacedList arguments).getLast? = arguments.getLast?.map (·.unplaced) := by
      rw [Expr.unplacedList_eq_map, List.getLast?_map]
    have hrender := Expr.render_unplaced (.call token callee arguments)
    rw [Expr.unplaced] at hrender ⊢
    rw [Expr.harvest, Expr.harvest, Expr.identifier?_unplaced, hrender, Expr.render_unplaced callee,
      Expr.harvestArrays_unplaced separator arguments, hlast]
    cases arguments.getLast? with
    | none => rfl
    | some text => simp only [Option.map_some, Expr.plainText_unplaced]
  | .identifier _ | .unary _ _ _ | .binary _ _ _ _ | .function _ _ _ _ | .index _ _ _ =>
    Expr.harvest_unplaced_of_foreign separator (by simp [Expr.nodeType, foreignTypes])

theorem Expr.harvestList_unplaced (separator : String) :
    (es : List Expr) →
      Expr.harvestList separator (Expr.unplacedList es) = Expr.harvestList separator es
  | [] => rfl
  | e :: es => by
    simp [Expr.unplacedList, Expr.harvestList, Expr.harvest_unplaced separator e,
      Expr.harvestList_unplaced separator es]

theorem Expr.harvestArrays_unplaced (separator : String) :
    (es : List Expr) →
      Expr.harvestArrays separator (Expr.unplacedList es) = Expr.harvestArrays separator es
  | [] => rfl
  | .array _ elements :: es => by
    simp [Expr.unplacedList, Expr.unplaced, Expr.harvestArrays,
      Expr.harvestList_unplaced separator elements, Expr.harvestArrays_unplaced separator es]
  | .identifier _ :: es | .integer _ _ :: es | .real _ _ :: es | .string _ _ :: es
  | .boolean _ _ :: es | .unary _ _ _ :: es | .binary _ _ _ _ :: es | .function _ _ _ _ :: es
  | .call _ _ _ :: es | .index _ _ _ :: es => by
    simp [Expr.unplacedList, Expr.unplaced, Expr.harvestArrays,
      Expr.harvestArrays_unplaced separator es]

end

theorem Stmt.harvest_unplaced (separator : String) (s : Stmt) :
    s.unplaced.harvest separator = s.harvest separator := by
  cases s with
  | comment token => rfl
  | expression token value => exact Expr.harvest_unplaced separator value

theorem Program.harvest_unplaced (separator : String) (program : Program) :
    program.unplaced.harvest separator = program.harvest separator := by
  rw [Program.harvest, Program.unplaced, Stmt.unplacedList_eq_map, List.map_map, Program.harvest]
  exact congrArg Harvest.concat (List.map_congr_left fun s _ ↦ Stmt.harvest_unplaced separator s)

/-- Extraction does not depend on places. -/
theorem Extractor.extract_eq_of_unplaced_eq (extractor : Extractor) {p q : Program}
    (h : p.unplaced = q.unplaced) : extractor.extract p = extractor.extract q := by
  rw [extract, extract, ← Program.harvest_unplaced, h, Program.harvest_unplaced]

end DrawScript
