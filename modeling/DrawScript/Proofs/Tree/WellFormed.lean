import DrawScript.Tree.Basic
import DrawScript.Parser.Rules
import DrawScript.Proofs.Token.Spelling
import Mathlib.Data.List.Induction
import Mathlib.Data.Nat.Digits.Defs
import Mathlib.Tactic.SplitIfs

/-!
# Well-formed trees

A tree type that keeps tokens beside values admits nonsense: an integer whose value is not what its
lexeme says, a call whose token is a keyword. `WellFormed` rules this out node by node. Leaves hold
what their token denotes (`Token.Denotes`), every other node holds a token that stands for its
construct.

What a literal denotes is said through the positional value of its digits and not through the
functions that the parser reads it with. The section on literals shows that both agree on every
lexeme that can be spelled.
-/

namespace DrawScript

namespace Token

/-! ## What a token denotes -/

/-- The number that a run of decimal digits stands for. -/
def decimalValue (digits : List Char) : Nat :=
  Nat.ofDigits 10 (digits.reverse.map fun c ↦ c.toNat - '0'.toNat)

/-- The number that digits around a point stand for, as near as a 64-bit number comes to it. -/
def pointValue (whole fraction : List Char) : Binary64 :=
  .ofScientific false (decimalValue (whole ++ fraction)) (-(fraction.length : Int))

/-- The kind of the keyword for a truth value. -/
def booleanKind (value : Bool) : Kind :=
  if value then .trueWord else .falseWord

/-- The keyword for a truth value. -/
def booleanText (value : Bool) : String :=
  if value then "true" else "false"

/-- The leaf that a token stands for. A number outside the range of its type stands for none. -/
inductive Denotes : Token → Expr → Prop
  | identifier {t : Token} (kind : t.kind = .ident) : Denotes t (.identifier (.ofToken t))
  | integer {t : Token} (kind : t.kind = .int) (small : decimalValue t.lexeme.toList < 2 ^ 63) :
      Denotes t (.integer t (decimalValue t.lexeme.toList))
  | real {t : Token} {whole fraction : List Char} (kind : t.kind = .float)
      (lexeme : t.lexeme.toList = whole ++ '.' :: fraction) (point : '.' ∉ whole)
      (finite : (pointValue whole fraction).isFinite = true) :
      Denotes t (.real t (pointValue whole fraction))
  | string {t : Token} (kind : t.kind = .string) : Denotes t (.string t t.lexeme)
  | boolean {t : Token} {value : Bool} (kind : t.kind = booleanKind value)
      (lexeme : t.lexeme = booleanText value) : Denotes t (.boolean t value)

/-- The token is of this kind and spelled as the kind demands. -/
def IsA (token : Token) (kind : Kind) : Prop :=
  token.kind = kind ∧ token.Spelled

end Token

/-! ## Well-formed nodes -/

/-- A name with the token that spells it. -/
def Identifier.WellFormed (name : Identifier) : Prop :=
  name.token.IsA .ident ∧ name.value = name.token.lexeme

mutual

/-- Every leaf holds what its token denotes, and every other node a token of its construct. -/
def Expr.WellFormed : Expr → Prop
  | .identifier name => name.WellFormed
  | .integer token value => token.Spelled ∧ token.Denotes (.integer token value)
  | .real token value => token.Spelled ∧ token.Denotes (.real token value)
  | .string token value => token.Spelled ∧ token.Denotes (.string token value)
  | .boolean token value => token.Spelled ∧ token.Denotes (.boolean token value)
  | .unary token operator right =>
    token.Spelled ∧ UnaryOperator.ofKind? token.kind = some operator ∧ right.WellFormed
  | .binary token left operator right =>
    token.Spelled ∧ BinaryOperator.ofKind? token.kind = some operator ∧ left.WellFormed ∧
      right.WellFormed
  | .function token parameters brace body =>
    token.IsA .function ∧ (∀ name ∈ parameters, name.WellFormed) ∧ brace.IsA .lbrace ∧
      Stmt.WellFormedList body
  | .call token callee arguments =>
    token.IsA .lparen ∧ callee.WellFormed ∧ Expr.WellFormedList arguments
  | .array token elements => token.IsA .lbracket ∧ Expr.WellFormedList elements
  | .index token left position => token.IsA .lbracket ∧ left.WellFormed ∧ position.WellFormed

/-- Every expression of the list is well formed. -/
def Expr.WellFormedList : List Expr → Prop
  | [] => True
  | e :: es => e.WellFormed ∧ Expr.WellFormedList es

/-- A comment holds a comment token. Nothing is asked of the token of an expression statement,
which repeats one that the expression holds. -/
def Stmt.WellFormed : Stmt → Prop
  | .comment token => token.IsA .comment
  | .expression _ value => value.WellFormed

/-- Every statement of the list is well formed. -/
def Stmt.WellFormedList : List Stmt → Prop
  | [] => True
  | s :: ss => s.WellFormed ∧ Stmt.WellFormedList ss

end

/-- Every statement of the script is well formed. -/
def Program.WellFormed (program : Program) : Prop :=
  Stmt.WellFormedList program.statements

theorem Expr.wellFormedList_iff {es : List Expr} :
    Expr.WellFormedList es ↔ ∀ e ∈ es, e.WellFormed := by
  induction es with
  | nil => simp [Expr.WellFormedList]
  | cons e es ih => simp [Expr.WellFormedList, ih]

theorem Stmt.wellFormedList_iff {ss : List Stmt} :
    Stmt.WellFormedList ss ↔ ∀ s ∈ ss, s.WellFormed := by
  induction ss with
  | nil => simp [Stmt.WellFormedList]
  | cons s ss ih => simp [Stmt.WellFormedList, ih]

theorem Token.Denotes.wellFormed {t : Token} {e : Expr} (h : t.Denotes e) (ht : t.Spelled) :
    e.WellFormed := by
  cases h with
  | identifier kind => exact ⟨⟨kind, ht⟩, rfl⟩
  | integer kind small => exact ⟨ht, .integer kind small⟩
  | real kind lexeme point finite => exact ⟨ht, .real kind lexeme point finite⟩
  | string kind => exact ⟨ht, .string kind⟩
  | boolean kind lexeme => exact ⟨ht, .boolean kind lexeme⟩

/-! ## Reading literals -/

namespace Parser

open Token

theorem digitsValue_eq_decimalValue (digits : List Char) :
    digitsValue digits = decimalValue digits := by
  induction digits using List.reverseRecOn with
  | nil => rfl
  | append_singleton digits c ih =>
    have hstep : digitsValue (digits ++ [c]) = 10 * digitsValue digits + (c.toNat - '0'.toNat) := by
      rw [digitsValue, List.foldl_append, List.foldl_cons, List.foldl_nil, ← digitsValue]
    rw [hstep, ih, decimalValue, decimalValue, List.reverse_append, List.reverse_singleton,
      List.singleton_append, List.map_cons, Nat.ofDigits_cons, Nat.add_comm]

theorem integerValue?_eq_some {lexeme : String} {value : Int}
    (h : integerValue? lexeme = some value) :
    value = decimalValue lexeme.toList ∧ decimalValue lexeme.toList < 2 ^ 63 := by
  simp only [integerValue?, digitsValue_eq_decimalValue, Option.ite_none_right_eq_some,
    Option.some.injEq] at h
  exact ⟨h.2.symm, h.1⟩

theorem integerValue?_of_lt {lexeme : String} (h : decimalValue lexeme.toList < 2 ^ 63) :
    integerValue? lexeme = some ↑(decimalValue lexeme.toList) := by
  simp only [integerValue?, digitsValue_eq_decimalValue]
  exact if_pos h

/-- The parser cuts a real literal at its point. -/
theorem realValue?_eq {lexeme : String} {whole fraction : List Char}
    (h : lexeme.toList = whole ++ '.' :: fraction) (hpoint : '.' ∉ whole) :
    realValue? lexeme
      = if (pointValue whole fraction).isFinite then some (pointValue whole fraction)
        else none := by
  have hne : ∀ c ∈ whole, (c != '.') = true := fun c hc ↦
    bne_iff_ne.mpr fun heq ↦ hpoint (heq ▸ hc)
  have htake : lexeme.toList.takeWhile (· != '.') = whole := by
    rw [h, List.takeWhile_append_of_pos hne]
    simp
  have hdrop : lexeme.toList.dropWhile (· != '.') = '.' :: fraction := by
    rw [h, List.dropWhile_append_of_pos hne]
    simp
  rw [realValue?, htake, hdrop, List.tail_cons, digitsValue_eq_decimalValue, ← pointValue]

theorem not_mem_of_isDigits {cs : List Char} (h : IsDigits cs) : '.' ∉ cs := fun hmem ↦ by
  have := h.2 _ hmem
  revert this
  decide

theorem denotes_integer {t : Token} {value : Int} (hkind : t.kind = .int)
    (h : integerValue? t.lexeme = some value) : t.Denotes (.integer t value) := by
  obtain ⟨rfl, hsmall⟩ := integerValue?_eq_some h
  exact .integer hkind hsmall

theorem denotes_real {t : Token} {value : Binary64} (ht : t.Spelled) (hkind : t.kind = .float)
    (h : realValue? t.lexeme = some value) : t.Denotes (.real t value) := by
  rw [Spelled, hkind] at ht
  obtain ⟨whole, fraction, hwhole, -, hlexeme⟩ := ht
  have hpoint := not_mem_of_isDigits hwhole
  rw [realValue?_eq hlexeme hpoint] at h
  split_ifs at h with hfinite
  obtain rfl := Option.some.inj h
  exact .real hkind hlexeme hpoint hfinite

/-- A spelled keyword is read as a truth value, the one that its kind names. -/
theorem booleanValue?_of_spelled {t : Token} (ht : t.Spelled)
    (hkind : t.kind = .trueWord ∨ t.kind = .falseWord) :
    ∃ value, booleanValue? t.lexeme = some value ∧ t.Denotes (.boolean t value) := by
  rcases hkind with hkind | hkind <;> rw [Spelled, hkind] at ht
  · exact ⟨true, by rw [booleanValue?, ht]; rfl, .boolean hkind ht⟩
  · exact ⟨false, by rw [booleanValue?, ht]; rfl, .boolean hkind ht⟩

theorem denotes_boolean {t : Token} {value : Bool} (ht : t.Spelled)
    (hkind : t.kind = .trueWord ∨ t.kind = .falseWord)
    (h : booleanValue? t.lexeme = some value) : t.Denotes (.boolean t value) := by
  obtain ⟨value', hvalue', hdenotes⟩ := booleanValue?_of_spelled ht hkind
  obtain rfl := Option.some.inj (hvalue'.symm.trans h)
  exact hdenotes

end Parser

end DrawScript
