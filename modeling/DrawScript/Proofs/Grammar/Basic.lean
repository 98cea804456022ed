import DrawScript.Proofs.Tree.WellFormed

/-!
# The grammar of scripts

Scripts have a grammar in which binding is a matter of strata: a sum is made of products, a product
of signed expressions, and so on down to the atoms. It is left recursive and says nothing about
lookahead, loops or binding powers, so it is the standard that the parser is held against.

```text
Body       = ε | comment Body | Equality '.'* Body
Equality   = Equality ('==' | '!=') Comparison | Comparison
Comparison = Comparison ('<' | '>') Sum | Sum
Sum        = Sum ('+' | '-') Product | Product
Product    = Product ('*' | '/') Signed | Signed
Signed     = ('!' | '-') Signed | Applied
Applied    = Applied '(' Listing ')' | Applied '[' Equality ']' | Atom
Atom       = leaf | '(' Equality ')' | '[' Listing ']' | fn '(' Names ')' '{' Body '}'
```

An expression without a period behind it must not be followed by a token that would continue it.

Derivations are data, indexed by the tokens they derive. That makes the tree of a derivation a
function of it, and likewise the number of levels that a parser opens on the way (`Phrase.levels`).
-/

namespace DrawScript.Grammar

open Token (Kind)

/-! ## Strata -/

/-- The strata of expressions, loosest first. -/
inductive Stratum where
  | equality
  | comparison
  | sum
  | product
  | signed
  | applied
  | atom
  deriving DecidableEq, Repr

namespace Stratum

/-- The next stratum, from which the operands of this one are taken. -/
def tighter : Stratum → Stratum
  | equality => comparison
  | comparison => sum
  | sum => product
  | product => signed
  | signed => applied
  | applied | atom => atom

/-- The operators that stand between operands in a stratum. -/
def operators : Stratum → List Kind
  | equality => [.eq, .notEq]
  | comparison => [.lt, .gt]
  | sum => [.plus, .minus]
  | product => [.asterisk, .slash]
  | signed | applied | atom => []

/-- The place of a stratum in the order. -/
def rank : Stratum → Nat
  | equality => 0
  | comparison => 1
  | sum => 2
  | product => 3
  | signed => 4
  | applied => 5
  | atom => 6

end Stratum

/-- The kinds that continue an expression on their left. -/
def continuers : List Kind :=
  [.eq, .notEq, .lt, .gt, .plus, .minus, .asterisk, .slash, .lparen, .lbracket]

/-! ## Derivations -/

/-- A token of the given kind. -/
abbrev TokenOf (kind : Kind) : Type :=
  { t : Token // t.kind = kind }

/-- The further names of a list, each behind a comma. -/
inductive MoreNames : List Token → Type
  | done : MoreNames []
  | item {ts : List Token} (comma : TokenOf .comma) (name : TokenOf .ident) (more : MoreNames ts) :
      MoreNames (comma.1 :: name.1 :: ts)

/-- Names separated by commas, or none. -/
inductive Names : List Token → Type
  | empty : Names []
  | items {ts : List Token} (name : TokenOf .ident) (more : MoreNames ts) : Names (name.1 :: ts)

mutual

/-- The derivations of expressions of a stratum. -/
inductive Phrase : Stratum → List Token → Type
  | leaf {t : Token} (e : Expr) (h : t.Denotes e) : Phrase .atom [t]
  | group {ts : List Token} (opening : TokenOf .lparen) (inner : Phrase .equality ts)
      (close : TokenOf .rparen) : Phrase .atom (opening.1 :: ts ++ [close.1])
  | array {ts : List Token} (opening : TokenOf .lbracket) (elements : Listing ts)
      (close : TokenOf .rbracket) : Phrase .atom (opening.1 :: ts ++ [close.1])
  | function {ps ts : List Token} (keyword : TokenOf .function) (opening : TokenOf .lparen)
      (parameters : Names ps) (close : TokenOf .rparen) (brace : TokenOf .lbrace)
      (body : Body ts) (unbrace : TokenOf .rbrace) :
      Phrase .atom (keyword.1 :: opening.1 :: ps ++ close.1 :: brace.1 :: ts ++ [unbrace.1])
  | call {fs ts : List Token} (callee : Phrase .applied fs) (opening : TokenOf .lparen)
      (arguments : Listing ts) (close : TokenOf .rparen) :
      Phrase .applied (fs ++ opening.1 :: ts ++ [close.1])
  | index {ls ts : List Token} (left : Phrase .applied ls) (opening : TokenOf .lbracket)
      (position : Phrase .equality ts) (close : TokenOf .rbracket) :
      Phrase .applied (ls ++ opening.1 :: ts ++ [close.1])
  | unary {ts : List Token} (t : Token) (operator : UnaryOperator)
      (ht : UnaryOperator.ofKind? t.kind = some operator) (right : Phrase .signed ts) :
      Phrase .signed (t :: ts)
  | binary {σ : Stratum} {ls rs : List Token} (left : Phrase σ ls) (t : Token)
      (operator : BinaryOperator) (hσ : t.kind ∈ σ.operators)
      (ht : BinaryOperator.ofKind? t.kind = some operator) (right : Phrase σ.tighter rs) :
      Phrase σ (ls ++ t :: rs)
  | tighter {σ : Stratum} {ts : List Token} (hσ : σ ≠ .atom) (inner : Phrase σ.tighter ts) :
      Phrase σ ts

/-- The derivations of expressions separated by commas, or of none. -/
inductive Listing : List Token → Type
  | empty : Listing []
  | items {ts us : List Token} (first : Phrase .equality ts) (more : More us) : Listing (ts ++ us)

/-- The derivations of the further expressions of a list, each behind a comma. -/
inductive More : List Token → Type
  | done : More []
  | item {ts us : List Token} (comma : TokenOf .comma) (next : Phrase .equality ts)
      (more : More us) : More (comma.1 :: ts ++ us)

/-- The derivations of statements in a row. -/
inductive Body : List Token → Type
  | done : Body []
  | comment {ts : List Token} (t : TokenOf .comment) (rest : Body ts) : Body (t.1 :: ts)
  | expression {t : Token} {ts us : List Token} (value : Phrase .equality (t :: ts))
      (periods : List (TokenOf .period))
      (split : periods = [] → ∀ u ∈ us.head?, u.kind ∉ continuers) (rest : Body us) :
      Body (t :: ts ++ periods.map (·.1) ++ us)

end

/-! ## Trees -/

/-- The parameters that the names stand for. -/
def MoreNames.identifiers {ts : List Token} : MoreNames ts → List Identifier
  | .done => []
  | .item _ name more => .ofToken name.1 :: more.identifiers

@[inherit_doc MoreNames.identifiers]
def Names.identifiers {ts : List Token} : Names ts → List Identifier
  | .empty => []
  | .items name more => .ofToken name.1 :: more.identifiers

mutual

/-- The tree of a derivation. Parentheses leave no node. -/
def Phrase.tree {σ : Stratum} {ts : List Token} : Phrase σ ts → Expr
  | .leaf e _ => e
  | .group _ inner _ => inner.tree
  | .array opening elements _ => .array opening.1 elements.trees
  | .function keyword _ parameters _ brace body _ =>
    .function keyword.1 parameters.identifiers brace.1 body.statements
  | .call callee opening arguments _ => .call opening.1 callee.tree arguments.trees
  | .index left opening position _ => .index opening.1 left.tree position.tree
  | .unary t operator _ right => .unary t operator right.tree
  | .binary left t operator _ _ right => .binary t left.tree operator right.tree
  | .tighter _ inner => inner.tree

/-- The trees of the expressions. -/
def Listing.trees {ts : List Token} : Listing ts → List Expr
  | .empty => []
  | .items first more => first.tree :: more.trees

/-- The trees of the further expressions. -/
def More.trees {ts : List Token} : More ts → List Expr
  | .done => []
  | .item _ next more => next.tree :: more.trees

/-- The trees of the statements. Periods leave no trace. -/
def Body.statements {ts : List Token} : Body ts → List Stmt
  | .done => []
  | .comment t rest => .comment t.1 :: rest.statements
  | @Body.expression t _ _ value _ _ rest => .expression t value.tree :: rest.statements

end

/-! ## Levels

A parser that descends into operands opens a level for every expression and one more for every
operator, call or index that continues it, and these stay open until the expression ends. -/

/-- How often the expression on the left is continued. -/
def Phrase.folds {σ : Stratum} {ts : List Token} : Phrase σ ts → Nat
  | .call callee _ _ _ => callee.folds + 1
  | .index left _ _ _ => left.folds + 1
  | .binary left _ _ _ _ _ => left.folds + 1
  | .tighter _ inner => inner.folds
  | .leaf _ _ | .group _ _ _ | .array _ _ _ | .function _ _ _ _ _ _ _ | .unary _ _ _ _ => 0

mutual

/-- The levels that are open at the deepest point. -/
def Phrase.levels {σ : Stratum} {ts : List Token} : Phrase σ ts → Nat
  | .leaf _ _ => 1
  | .group _ inner _ => inner.levels + 1
  | .array _ elements _ => elements.levels + 1
  | .function _ _ _ _ _ body _ => body.levels + 1
  | .call callee _ arguments _ => max callee.levels (callee.folds + 2 + arguments.levels)
  | .index left _ position _ => max left.levels (left.folds + 2 + position.levels)
  | .unary _ _ _ right => right.levels + 1
  | .binary left _ _ _ _ right => max left.levels (left.folds + 2 + right.levels)
  | .tighter _ inner => inner.levels

@[inherit_doc Phrase.levels]
def Listing.levels {ts : List Token} : Listing ts → Nat
  | .empty => 0
  | .items first more => max first.levels more.levels

@[inherit_doc Phrase.levels]
def More.levels {ts : List Token} : More ts → Nat
  | .done => 0
  | .item _ next more => max next.levels more.levels

@[inherit_doc Phrase.levels]
def Body.levels {ts : List Token} : Body ts → Nat
  | .done => 0
  | .comment _ rest => rest.levels
  | .expression value _ _ rest => max value.levels rest.levels

end

theorem Phrase.folds_lt_levels {σ : Stratum} {ts : List Token} :
    (d : Phrase σ ts) → d.folds < d.levels
  | .leaf _ _ | .group _ _ _ | .array _ _ _ | .function _ _ _ _ _ _ _ | .unary _ _ _ _ => by
    simp [folds, levels]
  | .call callee _ arguments _ => by rw [folds, levels]; omega
  | .index left _ position _ => by rw [folds, levels]; omega
  | .binary left _ _ _ _ right => by rw [folds, levels]; omega
  | .tighter _ inner => by rw [folds, levels]; exact inner.folds_lt_levels

/-! ## First and last tokens -/

/-- The kinds that an expression can begin with. -/
def starters : List Kind :=
  [.ident, .int, .float, .string, .trueWord, .falseWord, .bang, .minus, .lparen, .function,
    .lbracket]

/-- The last token of a derivation, where a rule stops. -/
def Phrase.last {σ : Stratum} {ts : List Token} : Phrase σ ts → Token
  | @Phrase.leaf t _ _ => t
  | .group _ _ close => close.1
  | .array _ _ close => close.1
  | .function _ _ _ _ _ _ unbrace => unbrace.1
  | .call _ _ _ close => close.1
  | .index _ _ _ close => close.1
  | .unary _ _ _ right => right.last
  | .binary _ _ _ _ _ right => right.last
  | .tighter _ inner => inner.last

theorem kind_mem_starters_of_denotes {t : Token} {e : Expr} (h : t.Denotes e) :
    t.kind ∈ starters := by
  cases h with
  | @boolean value kind lexeme =>
    rw [kind]
    cases value <;> decide
  | _ => simp_all [starters]

theorem kind_mem_starters_of_unary {t : Token} {operator : UnaryOperator}
    (h : UnaryOperator.ofKind? t.kind = some operator) : t.kind ∈ starters := by
  revert h
  cases t.kind <;> simp [UnaryOperator.ofKind?, starters]

/-- Every derivation has a first token, and its kind begins expressions. -/
theorem Phrase.exists_first {σ : Stratum} {ts : List Token} :
    Phrase σ ts → ∃ t us, ts = t :: us ∧ t.kind ∈ starters
  | .leaf _ h => ⟨_, _, rfl, kind_mem_starters_of_denotes h⟩
  | .group opening _ _ => ⟨_, _, rfl, by simp [opening.2, starters]⟩
  | .array opening _ _ => ⟨_, _, rfl, by simp [opening.2, starters]⟩
  | .function keyword _ _ _ _ _ _ => ⟨_, _, rfl, by simp [keyword.2, starters]⟩
  | .call callee _ _ _ => by
    obtain ⟨t, us, rfl, ht⟩ := callee.exists_first
    exact ⟨t, _, rfl, ht⟩
  | .index left _ _ _ => by
    obtain ⟨t, us, rfl, ht⟩ := left.exists_first
    exact ⟨t, _, rfl, ht⟩
  | .unary _ _ ht _ => ⟨_, _, rfl, kind_mem_starters_of_unary ht⟩
  | .binary left _ _ _ _ _ => by
    obtain ⟨t, us, rfl, ht⟩ := left.exists_first
    exact ⟨t, _, rfl, ht⟩
  | .tighter _ inner => inner.exists_first

theorem Phrase.kind_mem_starters {σ : Stratum} {t : Token} {ts : List Token}
    (d : Phrase σ (t :: ts)) : t.kind ∈ starters := by
  obtain ⟨t', us, heq, ht⟩ := d.exists_first
  obtain ⟨rfl, -⟩ := List.cons.inj heq
  exact ht

/-- The kinds that an expression can end with. -/
def finishers : List Kind :=
  [.ident, .int, .float, .string, .trueWord, .falseWord, .rparen, .rbracket, .rbrace]

theorem kind_mem_finishers_of_denotes {t : Token} {e : Expr} (h : t.Denotes e) :
    t.kind ∈ finishers := by
  cases h with
  | @boolean value kind lexeme =>
    rw [kind]
    cases value <;> decide
  | _ => simp_all [finishers]

theorem Phrase.kind_last_mem_finishers {σ : Stratum} {ts : List Token} :
    (d : Phrase σ ts) → d.last.kind ∈ finishers
  | .leaf _ h => kind_mem_finishers_of_denotes h
  | .group _ _ close => by rw [last, close.2]; decide
  | .array _ _ close => by rw [last, close.2]; decide
  | .function _ _ _ _ _ _ unbrace => by rw [last, unbrace.2]; decide
  | .call _ _ _ close => by rw [last, close.2]; decide
  | .index _ _ _ close => by rw [last, close.2]; decide
  | .unary _ _ _ right => right.kind_last_mem_finishers
  | .binary _ _ _ _ _ right => right.kind_last_mem_finishers
  | .tighter _ inner => inner.kind_last_mem_finishers

theorem Phrase.getLast?_eq {σ : Stratum} {ts : List Token} :
    (d : Phrase σ ts) → ts.getLast? = some d.last
  | .leaf _ _ => rfl
  | .group _ _ _ => List.getLast?_concat
  | .array _ _ _ => List.getLast?_concat
  | .function _ _ _ _ _ _ _ => List.getLast?_concat
  | .call _ _ _ _ => List.getLast?_concat
  | .index _ _ _ _ => List.getLast?_concat
  | .unary _ _ _ right => by rw [List.getLast?_cons, right.getLast?_eq]; rfl
  | .binary _ _ _ _ _ right => by
    rw [List.getLast?_append, List.getLast?_cons, right.getLast?_eq]; rfl
  | .tighter _ inner => inner.getLast?_eq

/-- A tight phrase is a phrase of every looser stratum. -/
theorem Phrase.exists_looser {τ : Stratum} {ts : List Token} (d : Phrase τ ts) (σ : Stratum)
    (h : σ.rank ≤ τ.rank) :
    ∃ d' : Phrase σ ts, d'.tree = d.tree ∧ d'.last = d.last ∧ d'.levels = d.levels ∧
      d'.folds = d.folds := by
  -- the induction is on the number of strata between the two
  obtain ⟨n, hn⟩ : ∃ n, n = τ.rank - σ.rank := ⟨_, rfl⟩
  induction n generalizing σ with
  | zero =>
    have hrank : σ.rank = τ.rank := by omega
    obtain rfl : σ = τ := by revert hrank; cases σ <;> cases τ <;> simp [Stratum.rank]
    exact ⟨d, rfl, rfl, rfl, rfl⟩
  | succ n ih =>
    have hσ : σ ≠ .atom := by
      rintro rfl
      have hτ : τ.rank ≤ Stratum.atom.rank := by cases τ <;> decide
      omega
    have hnext : σ.tighter.rank = σ.rank + 1 := by
      revert hσ; cases σ <;> simp [Stratum.rank, Stratum.tighter]
    obtain ⟨d', htree, hlast, hlevels, hfolds⟩ := ih σ.tighter (by omega) (by omega)
    exact ⟨.tighter hσ d', htree, hlast, hlevels, hfolds⟩

end DrawScript.Grammar
