import DrawScript.Proofs.Canonical.FixedPoint

/-!
# The level counter on canonical text

`Expr.depth` measures the levels of a canonical text from the inside: what an operand takes, and
what its operator adds. A parser goes the other way. It has one counter, raises it where an
expression begins and again at every operator, call or index that continues the expression, and puts
it back only where the expression ends. So what an operand takes depends on the value at which it
begins, and that value on how often the expression on its left was continued.

`Expr.peak` follows the counter. A call is the only canonical text that continues an expression
without parentheses around it, so `Expr.calls` is how far the counter was raised by what stands on
the left. The two measures differ by the value of the counter at the beginning
(`Expr.peakInside_eq`), and a script is too deep to be read back exactly if the counter passes the
limit in one of its expressions.
-/

namespace DrawScript

open DrawScript.Parser (nestingLimit)

/-! ## Where the counter gets to -/

mutual

/-- The highest value of the counter on the canonical text of an expression, if the level of the
expression itself has brought it to `k`. What begins inside at `d` brings it to `d + 1` first. -/
def Expr.peakInside (k : Nat) : Expr → Nat
  | .identifier _ | .integer _ _ | .real _ _ | .string _ _ | .boolean _ _ => k
  | .unary _ _ right => right.peakInside (k + 1 + 1)
  | .binary _ left _ right =>
    max (left.peakInside (k + 1)) (right.peakInside (k + 2 + left.calls + 1))
  | .function _ _ _ body => Stmt.peakList k body
  | .call _ callee arguments =>
    max (callee.peakInside k) (Expr.peakList (k + callee.calls + 1) arguments)
  | .array _ elements => Expr.peakList k elements
  | .index _ left position =>
    max (left.peakInside (k + 1)) (position.peakInside (k + 2 + left.calls + 1))

/-- The highest value of the counter on a list of expressions, each of which begins at `k`; the
counter has got to `k` even if there are none. -/
def Expr.peakList (k : Nat) : List Expr → Nat
  | [] => k
  | e :: es => max (e.peakInside (k + 1)) (Expr.peakList k es)

/-- The highest value of the counter on statements, each of which begins at `k`. -/
def Stmt.peakList (k : Nat) : List Stmt → Nat
  | [] => k
  | .comment _ :: ss => Stmt.peakList k ss
  | .expression _ value :: ss => max (value.peakInside (k + 1)) (Stmt.peakList k ss)

end

/-- The highest value of the counter on the canonical text of an expression that begins at `d`. -/
def Expr.peak (e : Expr) (d : Nat) : Nat :=
  e.peakInside (d + 1)

/-! ## Both measures agree -/

mutual

/-- The counter rises by the levels that the canonical text takes. The first of them is the level of
the expression itself, which `k + 1` counts already. -/
theorem Expr.peakInside_eq (k : Nat) : (e : Expr) → e.peakInside (k + 1) = k + e.depth
  | .identifier _ | .integer _ _ | .real _ _ | .string _ _ | .boolean _ _ => rfl
  | .unary _ _ right => by
    rw [Expr.peakInside, Expr.depth, Expr.peakInside_eq (k + 1 + 1) right]
    omega
  | .binary _ left _ right => by
    rw [Expr.peakInside, Expr.depth, Expr.peakInside_eq (k + 1) left,
      Expr.peakInside_eq (k + 1 + 2 + left.calls) right]
    omega
  | .function _ _ _ body => by
    rw [Expr.peakInside, Expr.depth, Stmt.peakList_eq (k + 1) body]
    omega
  | .call _ callee arguments => by
    rw [Expr.peakInside, Expr.depth, Expr.peakInside_eq k callee,
      Expr.peakList_eq (k + 1 + callee.calls + 1) arguments]
    omega
  | .array _ elements => by
    rw [Expr.peakInside, Expr.depth, Expr.peakList_eq (k + 1) elements]
    omega
  | .index _ left position => by
    rw [Expr.peakInside, Expr.depth, Expr.peakInside_eq (k + 1) left,
      Expr.peakInside_eq (k + 1 + 2 + left.calls) position]
    omega

theorem Expr.peakList_eq (k : Nat) : (es : List Expr) → Expr.peakList k es = k + Expr.depthList es
  | [] => rfl
  | e :: es => by
    rw [Expr.peakList, Expr.depthList, Expr.peakInside_eq k e, Expr.peakList_eq k es]
    omega

theorem Stmt.peakList_eq (k : Nat) : (ss : List Stmt) → Stmt.peakList k ss = k + Stmt.depthList ss
  | [] => rfl
  | .comment _ :: ss => by
    rw [Stmt.peakList, Stmt.depthList, Stmt.depth, Stmt.peakList_eq k ss, Nat.zero_max]
  | .expression _ value :: ss => by
    rw [Stmt.peakList, Stmt.depthList, Stmt.depth, Expr.peakInside_eq k value,
      Stmt.peakList_eq k ss]
    omega

end

theorem Expr.peak_zero (e : Expr) : e.peak 0 = e.depth := by
  rw [Expr.peak, Expr.peakInside_eq, Nat.zero_add]

/-- The deepest expression among statements decides whether all of them fit. -/
theorem Stmt.lt_depthList_iff {ss : List Stmt} {n : Nat} :
    n < Stmt.depthList ss ↔ ∃ s ∈ ss, ∃ e ∈ s.expression?, n < e.depth := by
  induction ss with
  | nil => simp [Stmt.depthList]
  | cons s ss ih =>
    have hhead : n < s.depth ↔ ∃ e ∈ s.expression?, n < e.depth := by
      cases s <;> simp [Stmt.depth, Stmt.expression?]
    simp [Stmt.depthList, hhead, ih]

/-! ## Scripts -/

/-- **The nesting of a canonical text.** The canonical text of a well-formed script is too deep to
be read back exactly if the counter, beginning at zero, passes the limit in the expression of one of
the statements. -/
theorem isTooDeep_render_iff_exists_peak (p : Program) (hp : p.WellFormed) :
    (Document.ofSource p.render).IsTooDeep ↔
      ∃ s ∈ p.statements, ∃ e ∈ s.expression?, nestingLimit < e.peak 0 := by
  rw [Grammar.isTooDeep_render_iff hp, Program.depth, Stmt.lt_depthList_iff]
  simp only [Expr.peak_zero]

/-- A digit behind a number of signs, without places. -/
def signedDigit : (signs : Nat) → Expr
  | 0 => .integer ⟨.int, "1", ⟨0, 0⟩⟩ 1
  | signs + 1 => .unary (Token.mark .minus) .minus (signedDigit signs)

theorem wellFormed_signedDigit (signs : Nat) : (signedDigit signs).WellFormed := by
  induction signs with
  | zero =>
    refine ⟨⟨List.cons_ne_nil _ _, fun c hc ↦ ?_⟩, .integer rfl (by decide)⟩
    obtain rfl := List.mem_singleton.mp hc
    decide
  | succ signs ih => exact ⟨rfl, rfl, ih⟩

/-- Every sign takes two levels in canonical text, for its parenthesis and its operand, so
sixty-three of them are read back and sixty-four are not. -/
theorem isTooDeep_render_iff_exists_peak_signs :
    Program.WellFormed ⟨[.expression (.eof 0) (signedDigit 63)]⟩ ∧
      Program.WellFormed ⟨[.expression (.eof 0) (signedDigit 64)]⟩ ∧
      ¬(Document.ofSource (Program.mk [.expression (.eof 0) (signedDigit 63)]).render).IsTooDeep ∧
      (Document.ofSource
        (Program.mk [.expression (.eof 0) (signedDigit 64)]).render).IsTooDeep := by
  have hwell : ∀ n, Program.WellFormed ⟨[.expression (.eof 0) (signedDigit n)]⟩ :=
    fun n ↦ ⟨wellFormed_signedDigit n, trivial⟩
  refine ⟨hwell 63, hwell 64, ?_, ?_⟩
  · rw [isTooDeep_render_iff_exists_peak _ (hwell 63)]
    decide
  · rw [isTooDeep_render_iff_exists_peak _ (hwell 64)]
    decide

end DrawScript
