import DrawScript.Proofs.Canonical.Scan
import DrawScript.Proofs.Grammar.Documents
import DrawScript.Proofs.Parser.Trees

/-!
# Canonical text reads back

The canonical text of a well-formed tree is a source, and its tokens have a derivation with that
very tree, up to the places of the tokens. By the agreement of parser and grammar the source then
parses to the tree, unless its parentheses are nested too deeply for the parser.

Every expression is rendered as a phrase of the applied stratum: operators and indices stand in
parentheses, calls are applied already, and everything else is an atom. This is why an expression
fits wherever another one had been, as a callee or as an operand, whatever their operators are.
-/

namespace DrawScript

/-! ## The depth of canonical text

Canonical text is nested more deeply than the source of its tree had to be: operators and indices
stand in parentheses, and a parenthesis takes a level of its own. -/

/-- How often an expression is called, and its result called again. -/
def Expr.calls : Expr → Nat
  | .call _ callee _ => callee.calls + 1
  | _ => 0

mutual

/-- The levels that the canonical text of an expression takes. -/
def Expr.depth : Expr → Nat
  | .identifier _ | .integer _ _ | .real _ _ | .string _ _ | .boolean _ _ => 1
  | .unary _ _ right => right.depth + 2
  | .binary _ left _ right => max left.depth (left.calls + 2 + right.depth) + 1
  | .function _ _ _ body => Stmt.depthList body + 1
  | .call _ callee arguments => max callee.depth (callee.calls + 2 + Expr.depthList arguments)
  | .array _ elements => Expr.depthList elements + 1
  | .index _ left position => max left.depth (left.calls + 2 + position.depth) + 1

/-- The levels that the canonical text of a list of expressions takes. -/
def Expr.depthList : List Expr → Nat
  | [] => 0
  | e :: es => max e.depth (Expr.depthList es)

/-- The levels that the canonical text of a statement takes. -/
def Stmt.depth : Stmt → Nat
  | .comment _ => 0
  | .expression _ value => value.depth

/-- The levels that the canonical text of a list of statements takes. -/
def Stmt.depthList : List Stmt → Nat
  | [] => 0
  | s :: ss => max s.depth (Stmt.depthList ss)

end

/-- The levels that the canonical text of a script takes. -/
def Program.depth (program : Program) : Nat :=
  Stmt.depthList program.statements

namespace Grammar

open Token (Kind ScansTo Seq Copies Stops mark marks)
open DrawScript.Parser

/-! ## Tokens that spell a tree -/

/-- The tokens are a phrase of stratum `σ` with the tree `e`, up to places, that opens so many
levels and continues its left side so often. -/
def Spells (σ : Stratum) (e : Expr) (levels folds : Nat) (ts : List Token) : Prop :=
  ∃ d : Phrase σ ts, d.tree.unplaced = e.unplaced ∧ d.levels = levels ∧ d.folds = folds

/-- The tokens are a list of expressions with the trees `es`, up to places. -/
def SpellsList (es : List Expr) (levels : Nat) (ts : List Token) : Prop :=
  ∃ l : Listing ts, Expr.unplacedList l.trees = Expr.unplacedList es ∧ l.levels = levels

/-- The tokens are a list of names with the parameters `ps`, up to places. -/
def SpellsNames (ps : List Identifier) (ts : List Token) : Prop :=
  ∃ n : Names ts, n.identifiers.map (·.unplaced) = ps.map (·.unplaced)

/-- The tokens are a body with the statements `ss`, up to places. -/
def SpellsBody (ss : List Stmt) (levels : Nat) (ts : List Token) : Prop :=
  ∃ b : Body ts, Stmt.unplacedList b.statements = Stmt.unplacedList ss ∧ b.levels = levels

variable {σ τ : Stratum} {e left right : Expr} {t u : Token} {ts us : List Token} {m n j k : Nat}

theorem kind_eq_of_unplaced_eq (h : u.unplaced = t.unplaced) : u.kind = t.kind := by
  have hkind := congrArg Token.kind h
  exact hkind

theorem lexeme_eq_of_unplaced_eq (h : u.unplaced = t.unplaced) : u.lexeme = t.lexeme := by
  have hlexeme := congrArg Token.lexeme h
  exact hlexeme

theorem Spells.looser (h : Spells τ e n k ts) (σ : Stratum) (hle : σ.rank ≤ τ.rank) :
    Spells σ e n k ts := by
  obtain ⟨d, htree, hlevels, hfolds⟩ := h
  obtain ⟨d', htree', -, hlevels', hfolds'⟩ := d.exists_looser σ hle
  exact ⟨d', by rw [htree', htree], by rw [hlevels', hlevels], by rw [hfolds', hfolds]⟩

/-- A token denotes the same leaf wherever it stands. -/
theorem exists_denotes_of_unplaced_eq (h : t.Denotes e) (hu : u.unplaced = t.unplaced) :
    ∃ e', u.Denotes e' ∧ e'.unplaced = e.unplaced := by
  have hkind := kind_eq_of_unplaced_eq hu
  have hlexeme := lexeme_eq_of_unplaced_eq hu
  cases h with
  | identifier kind =>
    refine ⟨_, .identifier (hkind.trans kind), ?_⟩
    rw [Expr.unplaced, Expr.unplaced, Identifier.unplaced, Identifier.unplaced,
      Identifier.ofToken, Identifier.ofToken, hu, hlexeme]
  | integer kind small =>
    rw [← hlexeme] at small ⊢
    exact ⟨_, .integer (hkind.trans kind) small, by rw [Expr.unplaced, Expr.unplaced, hu]⟩
  | real kind lexeme point finite =>
    exact ⟨_, .real (hkind.trans kind) (hlexeme ▸ lexeme) point finite,
      by rw [Expr.unplaced, Expr.unplaced, hu]⟩
  | string kind =>
    exact ⟨_, .string (hkind.trans kind), by rw [Expr.unplaced, Expr.unplaced, hu, hlexeme]⟩
  | boolean kind lexeme =>
    exact ⟨_, .boolean (hkind.trans kind) (hlexeme.trans lexeme),
      by rw [Expr.unplaced, Expr.unplaced, hu]⟩

theorem Spells.of_denotes (h : t.Denotes e) (hu : u.unplaced = t.unplaced) :
    Spells .atom e 1 0 [u] := by
  obtain ⟨e', hdenotes, htree⟩ := exists_denotes_of_unplaced_eq h hu
  exact ⟨.leaf e' hdenotes, htree, rfl, rfl⟩

theorem Spells.group (h : Spells .equality e n k ts) (hopen : t.kind = .lparen)
    (hclose : u.kind = .rparen) : Spells .atom e (n + 1) 0 (t :: ts ++ [u]) := by
  obtain ⟨d, htree, rfl, -⟩ := h
  exact ⟨.group ⟨t, hopen⟩ d ⟨u, hclose⟩, htree, rfl, rfl⟩

theorem Spells.unary {operator : UnaryOperator}
    (hoperator : UnaryOperator.ofKind? t.kind = some operator) (hu : u.unplaced = t.unplaced)
    (h : Spells .signed right n k ts) :
    Spells .signed (.unary t operator right) (n + 1) 0 (u :: ts) := by
  obtain ⟨d, htree, rfl, -⟩ := h
  refine ⟨.unary u operator (by rw [kind_eq_of_unplaced_eq hu, hoperator]) d, ?_, rfl, rfl⟩
  rw [Phrase.tree, Expr.unplaced, Expr.unplaced, hu, htree]

theorem Spells.binary {operator : BinaryOperator} (hmem : t.kind ∈ σ.operators)
    (hoperator : BinaryOperator.ofKind? t.kind = some operator) (hu : u.unplaced = t.unplaced)
    (hleft : Spells σ left m j ts) (hright : Spells σ.tighter right n k us) :
    Spells σ (.binary t left operator right) (max m (j + 2 + n)) (j + 1) (ts ++ u :: us) := by
  obtain ⟨d, htree, rfl, rfl⟩ := hleft
  obtain ⟨d', htree', rfl, -⟩ := hright
  have hkind := kind_eq_of_unplaced_eq hu
  refine ⟨.binary d u operator (hkind ▸ hmem) (hkind ▸ hoperator) d', ?_, rfl, rfl⟩
  rw [Phrase.tree, Expr.unplaced, Expr.unplaced, hu, htree, htree']

theorem Spells.index {close : Token} (hopen : t.kind = .lbracket) (hu : u.unplaced = t.unplaced)
    (hclose : close.kind = .rbracket) (hleft : Spells .applied left m j ts)
    (hposition : Spells .equality right n k us) :
    Spells .applied (.index t left right) (max m (j + 2 + n)) (j + 1)
      (ts ++ u :: us ++ [close]) := by
  obtain ⟨d, htree, rfl, rfl⟩ := hleft
  obtain ⟨d', htree', rfl, -⟩ := hposition
  refine ⟨.index d ⟨u, (kind_eq_of_unplaced_eq hu).trans hopen⟩ d' ⟨close, hclose⟩, ?_, rfl, rfl⟩
  rw [Phrase.tree, Expr.unplaced, Expr.unplaced, hu, htree, htree']

theorem Spells.call {close : Token} {es : List Expr} (hopen : t.kind = .lparen)
    (hu : u.unplaced = t.unplaced) (hclose : close.kind = .rparen)
    (hcallee : Spells .applied left m j ts) (hlist : SpellsList es n us) :
    Spells .applied (.call t left es) (max m (j + 2 + n)) (j + 1) (ts ++ u :: us ++ [close]) := by
  obtain ⟨d, htree, rfl, rfl⟩ := hcallee
  obtain ⟨l, htrees, rfl⟩ := hlist
  refine ⟨.call d ⟨u, (kind_eq_of_unplaced_eq hu).trans hopen⟩ l ⟨close, hclose⟩, ?_, rfl, rfl⟩
  rw [Phrase.tree, Expr.unplaced, Expr.unplaced, hu, htree, htrees]

theorem Spells.array {close : Token} {es : List Expr} (hopen : t.kind = .lbracket)
    (hu : u.unplaced = t.unplaced) (hclose : close.kind = .rbracket)
    (hlist : SpellsList es n ts) : Spells .atom (.array t es) (n + 1) 0 (u :: ts ++ [close]) := by
  obtain ⟨l, htrees, rfl⟩ := hlist
  refine ⟨.array ⟨u, (kind_eq_of_unplaced_eq hu).trans hopen⟩ l ⟨close, hclose⟩, ?_, rfl, rfl⟩
  rw [Phrase.tree, Expr.unplaced, Expr.unplaced, hu, htrees]

theorem Spells.function {opening close brace brace' unbrace : Token} {ps : List Identifier}
    {ss : List Stmt} (hkeyword : t.kind = .function) (hu : u.unplaced = t.unplaced)
    (hopen : opening.kind = .lparen) (hclose : close.kind = .rparen)
    (hbrace : brace.kind = .lbrace) (hbrace' : brace'.unplaced = brace.unplaced)
    (hunbrace : unbrace.kind = .rbrace) (hnames : SpellsNames ps ts) (hbody : SpellsBody ss n us) :
    Spells .atom (.function t ps brace ss) (n + 1) 0
      (u :: opening :: ts ++ close :: brace' :: us ++ [unbrace]) := by
  obtain ⟨names, hidentifiers⟩ := hnames
  obtain ⟨b, hstatements, rfl⟩ := hbody
  refine ⟨.function ⟨u, (kind_eq_of_unplaced_eq hu).trans hkeyword⟩ ⟨opening, hopen⟩ names
    ⟨close, hclose⟩ ⟨brace', (kind_eq_of_unplaced_eq hbrace').trans hbrace⟩ b
    ⟨unbrace, hunbrace⟩, ?_, rfl, rfl⟩
  rw [Phrase.tree, Expr.unplaced, Expr.unplaced, hu, hbrace', hidentifiers, hstatements]

/-! ## Lists and bodies -/

theorem SpellsList.singleton (h : Spells .equality e n k ts) : SpellsList [e] n ts := by
  obtain ⟨d, htree, rfl, -⟩ := h
  have hlist : SpellsList [e] d.levels (ts ++ []) := by
    refine ⟨.items d .done, ?_, Nat.max_eq_left (Nat.zero_le _)⟩
    rw [Listing.trees, More.trees, Expr.unplacedList, htree]
    rfl
  rwa [List.append_nil] at hlist

theorem SpellsList.cons {comma : Token} {e' : Expr} {es : List Expr}
    (h : Spells .equality e m k ts) (hcomma : comma.kind = .comma)
    (hrest : SpellsList (e' :: es) n us) :
    SpellsList (e :: e' :: es) (max m n) (ts ++ comma :: us) := by
  obtain ⟨d, htree, rfl, -⟩ := h
  obtain ⟨l, htrees, rfl⟩ := hrest
  cases l with
  | empty => cases htrees
  | items first more =>
    refine ⟨.items d (.item ⟨comma, hcomma⟩ first more), ?_, rfl⟩
    rw [Listing.trees, More.trees, Expr.unplacedList, htree,
      Expr.unplacedList.eq_def (e :: e' :: es)]
    exact congrArg _ htrees

theorem SpellsNames.singleton {name : Identifier} (hname : name.WellFormed)
    (hu : u.unplaced = name.token.unplaced) : SpellsNames [name] [u] := by
  obtain ⟨⟨hkind, -⟩, hvalue⟩ := hname
  refine ⟨.items ⟨u, (kind_eq_of_unplaced_eq hu).trans hkind⟩ .done, ?_⟩
  have hidentifier : (Identifier.ofToken u).unplaced = name.unplaced := by
    rw [Identifier.unplaced, Identifier.unplaced, Identifier.ofToken, hu, hvalue,
      lexeme_eq_of_unplaced_eq hu]
  rw [Names.identifiers, MoreNames.identifiers, List.map_singleton, hidentifier,
    List.map_singleton]

theorem SpellsNames.cons {comma : Token} {name name' : Identifier} {ps : List Identifier}
    (hname : SpellsNames [name] [u]) (hcomma : comma.kind = .comma)
    (hrest : SpellsNames (name' :: ps) us) :
    SpellsNames (name :: name' :: ps) (u :: comma :: us) := by
  obtain ⟨names, hnames⟩ := hname
  obtain ⟨names', hnames'⟩ := hrest
  cases names with
  | items first _ =>
    cases names' with
    | empty => cases hnames'
    | items next more =>
      refine ⟨.items first (.item ⟨comma, hcomma⟩ next more), ?_⟩
      rw [Names.identifiers, MoreNames.identifiers, List.map_cons, List.map_cons (a := name)]
      exact congrArg₂ _ (List.cons.inj hnames).1 hnames'

theorem SpellsBody.nil : SpellsBody [] 0 [] :=
  ⟨.done, rfl, rfl⟩

theorem SpellsBody.comment {ss : List Stmt} (hkind : t.kind = .comment)
    (hu : u.unplaced = t.unplaced) (hrest : SpellsBody ss n us) :
    SpellsBody (.comment t :: ss) n (u :: us) := by
  obtain ⟨b, hstatements, rfl⟩ := hrest
  refine ⟨.comment ⟨u, (kind_eq_of_unplaced_eq hu).trans hkind⟩ b, ?_, rfl⟩
  rw [Body.statements, Stmt.unplacedList, Stmt.unplacedList, hstatements, Stmt.unplaced,
    Stmt.unplaced, hu]

/-- An expression is closed by periods or it is the last statement. -/
theorem SpellsBody.expression {ss : List Stmt} (first : Token) (periods : List (TokenOf .period))
    (h : Spells .equality e m k ts) (hrest : SpellsBody ss n us)
    (hlast : periods = [] → us = []) :
    SpellsBody (.expression first e :: ss) (max m n) (ts ++ periods.map (·.1) ++ us) := by
  obtain ⟨d, htree, rfl, -⟩ := h
  obtain ⟨b, hstatements, rfl⟩ := hrest
  obtain ⟨t, ts', rfl, -⟩ := d.exists_first
  have hsplit : periods = [] → ∀ u ∈ us.head?, u.kind ∉ continuers := by
    intro hperiods u hu
    rw [hlast hperiods] at hu
    exact absurd hu (Option.not_mem_none u)
  refine ⟨.expression d periods hsplit b, ?_, rfl⟩
  rw [Body.statements, Stmt.unplacedList, Stmt.unplacedList, hstatements, Stmt.unplaced,
    Stmt.unplaced, htree]

/-! ## Texts of parts -/

variable {text rest : List Char}

/-- Parentheses make an atom of an expression. -/
theorem scansTo_group (h : ScansTo text (Spells .equality e n k) (')' :: rest)) :
    ScansTo ('(' :: (text ++ [')'])) (Spells .applied e (n + 1) 0) rest := by
  have hclose := (ScansTo.nil rest).mark ')' .rparen (by decide) rfl
  refine ((h.append hclose).mark '(' .lparen (by decide) rfl).imp ?_
  rintro _ ⟨_, _, rfl, ⟨opening, rfl, hopening⟩, ts, _, rfl, hts, _, _, rfl, ⟨close, rfl, hclosing⟩,
    rfl⟩
  exact (hts.group (kind_eq_of_unplaced_eq hopening) (kind_eq_of_unplaced_eq hclosing)).looser
    .applied (by decide)

/-- The text of an operator before its operand. -/
theorem scansTo_unaryOperator {operator : UnaryOperator} (ht : t.Spelled)
    (hoperator : UnaryOperator.ofKind? t.kind = some operator) (hrest : rest.head? ≠ some '=') :
    ScansTo operator.text.toList (Copies t) rest := by
  have hkind : (t.kind = .bang ∧ operator = .bang) ∨ t.kind = .minus ∧ operator = .minus := by
    revert hoperator
    cases t.kind <;> simp [UnaryOperator.ofKind?, eq_comm]
  rcases hkind with ⟨hkind, rfl⟩ | ⟨hkind, rfl⟩
  · refine (Token.scansTo_bang hrest).imp fun ts hts ↦ ?_
    rw [← hkind] at hts
    exact hts.of_mark ht (.inr hkind)
  · have hmem : Kind.minus ∈ marks := by decide
    refine (Token.scansTo_mark hmem rest).imp fun ts hts ↦ ?_
    rw [← hkind] at hts hmem
    exact hts.of_mark ht (.inl hmem)

/-- An operator between operands has the text and the stratum that its token has. -/
theorem exists_stratum {operator : BinaryOperator}
    (hoperator : BinaryOperator.ofKind? t.kind = some operator) :
    ∃ σ : Stratum, t.kind ∈ σ.operators ∧ t.kind ∈ marks ∧ operator.text = t.kind.name ∧
      σ.rank ≤ Stratum.applied.rank ∧ σ.tighter.rank ≤ Stratum.applied.rank := by
  refine ⟨.ofLevel (.of t.kind), ?_⟩
  revert hoperator
  cases t.kind <;> intro h <;> cases h <;> decide

theorem exists_cons_lexeme (ht : t.Spelled) (hkind : t.kind ∈ Token.wordKinds) :
    ∃ c cs, t.lexeme.toList = c :: cs ∧ c ≠ '=' := by
  obtain ⟨c, cs, hlexeme, hc⟩ := ht.exists_cons hkind
  refine ⟨c, cs, hlexeme, ?_⟩
  rintro rfl
  revert hc
  decide

/-- The tokens of leaves other than strings are words and numbers. -/
theorem kind_mem_wordKinds (h : t.Denotes e) (hstring : e.nodeType ≠ .string) :
    t.kind ∈ Token.wordKinds := by
  cases h with
  | identifier kind => rw [kind]; decide
  | integer kind => rw [kind]; decide
  | real kind => rw [kind]; decide
  | string => exact absurd rfl hstring
  | @boolean value kind => rw [kind]; cases value <;> decide

/-- No expression begins with an equals sign, so an exclamation mark can stand before it. -/
theorem exists_cons_render : (e : Expr) → e.WellFormed →
    ∃ c cs, e.render.toList = c :: cs ∧ c ≠ '='
  | .identifier name => by
    rintro ⟨⟨hkind, hspelled⟩, hvalue⟩
    rw [Expr.render, hvalue]
    exact exists_cons_lexeme hspelled (by rw [hkind]; decide)
  | .integer _ _ => fun h ↦ exists_cons_lexeme h.1 (kind_mem_wordKinds h.2 nofun)
  | .real _ _ => fun h ↦ exists_cons_lexeme h.1 (kind_mem_wordKinds h.2 nofun)
  | .boolean _ _ => fun h ↦ exists_cons_lexeme h.1 (kind_mem_wordKinds h.2 nofun)
  | .function token _ _ _ => by
    rintro ⟨⟨hkind, hspelled⟩, -⟩
    obtain ⟨c, cs, hlexeme, hc⟩ := exists_cons_lexeme hspelled (by rw [hkind]; decide)
    exact ⟨c, _, by simp [Expr.render, hlexeme]; rfl, hc⟩
  | .call _ callee _ => by
    intro h
    obtain ⟨c, cs, hcallee, hc⟩ := exists_cons_render callee h.2.1
    exact ⟨c, _, by simp [Expr.render, hcallee]; rfl, hc⟩
  | .string _ _ => fun _ ↦
    ⟨'"', _, by simp [Expr.render, StringLiteral.render]; rfl, by decide⟩
  | .unary _ _ _ => fun _ ↦ ⟨'(', _, by simp [Expr.render]; rfl, by decide⟩
  | .binary _ _ _ _ => fun _ ↦ ⟨'(', _, by simp [Expr.render]; rfl, by decide⟩
  | .array _ _ => fun _ ↦ ⟨'[', _, by simp [Expr.render]; rfl, by decide⟩
  | .index _ _ _ => fun _ ↦ ⟨'(', _, by simp [Expr.render]; rfl, by decide⟩

/-- A leaf is spelled by its token. -/
theorem scansTo_leaf (h : t.Denotes e) (htext : ScansTo text (Copies t) rest) :
    ScansTo text (Spells .applied e 1 0) rest := by
  refine htext.imp ?_
  rintro _ ⟨u, rfl, hu⟩
  exact (Spells.of_denotes h hu).looser .applied (by decide)

theorem scansTo_names : (ps : List Identifier) → (∀ name ∈ ps, name.WellFormed) → Stops rest →
    ScansTo (renderParameters ps).toList (SpellsNames ps) rest
  | [], _, _ => (ScansTo.nil rest).imp fun ts hts ↦ by
    rw [hts]
    exact ⟨.empty, rfl⟩
  | [name], hps, hrest => by
    have hname := hps name (List.mem_cons_self ..)
    obtain ⟨⟨hkind, hspelled⟩, hvalue⟩ := id hname
    rw [renderParameters, List.map_singleton, String.intercalate_singleton, hvalue]
    refine (hspelled.scansTo (by rw [hkind]; decide) hrest).imp ?_
    rintro _ ⟨u, rfl, hu⟩
    exact .singleton hname hu
  | name :: name' :: ps, hps, hrest => by
    have hname := hps name (List.mem_cons_self ..)
    obtain ⟨⟨hkind, hspelled⟩, hvalue⟩ := id hname
    have hmore := scansTo_names (name' :: ps) (fun n hn ↦ hps n (List.mem_cons_of_mem name hn))
      hrest
    have htext : (renderParameters (name :: name' :: ps)).toList
        = name.token.lexeme.toList ++ ',' :: ' ' :: (renderParameters (name' :: ps)).toList := by
      simp [renderParameters, String.intercalate_cons_cons, hvalue]
    have hcomma := (hmore.blank (c := ' ') rfl).mark ',' .comma (by decide) rfl
    have hall := hcomma.prepend (fun _ ↦ hspelled.scansTo (by rw [hkind]; decide))
      (Token.stops_cons (by decide) (by decide) _)
    rw [htext]
    refine hall.imp ?_
    rintro _ ⟨_, _, rfl, ⟨u, rfl, hu⟩, _, us, rfl, ⟨comma, rfl, hcomma⟩, hus⟩
    exact .cons (.singleton hname hu) (kind_eq_of_unplaced_eq hcomma) hus

/-- The end of a body, with or without a statement before it. -/
theorem scansTo_unbrace (empty : Bool) (rest : List Char) :
    ScansTo (if empty then "\x7d" else " \x7d").toList (Copies (mark .rbrace)) rest := by
  have hmark : ScansTo ['\x7d'] (Copies (mark .rbrace)) rest := Token.scansTo_mark (by decide) rest
  cases empty with
  | true => exact hmark
  | false => exact hmark.blank (c := ' ') rfl

theorem stops_unbrace (empty : Bool) (rest : List Char) :
    Stops ((if empty then "\x7d" else " \x7d").toList ++ rest) := by
  cases empty with
  | true => exact Token.stops_cons (c := '\x7d') (by decide) (by decide) rest
  | false => exact Token.stops_cons (c := ' ') (by decide) (by decide) _

/-! ## Texts of trees -/

mutual

/-- **Canonical text is derived.** Wherever the text of a well-formed expression stops, it is
scanned to a phrase with the tree of that expression. -/
theorem scansTo_expression : (e : Expr) → e.WellFormed → ∀ rest, Stops rest →
    ScansTo e.render.toList (Spells .applied e e.depth e.calls) rest
  | .identifier name => by
    rintro ⟨⟨hkind, hspelled⟩, hvalue⟩ rest hrest
    have hdenotes : name.token.Denotes (.identifier name) := by
      have hname : Identifier.ofToken name.token = name := by rw [Identifier.ofToken, ← hvalue]
      exact hname ▸ .identifier hkind
    rw [Expr.render, hvalue]
    exact scansTo_leaf hdenotes (hspelled.scansTo (by rw [hkind]; decide) hrest)
  | .integer _ _ => fun h _ hrest ↦
    scansTo_leaf h.2 (h.1.scansTo (kind_mem_wordKinds h.2 nofun) hrest)
  | .real _ _ => fun h _ hrest ↦
    scansTo_leaf h.2 (h.1.scansTo (kind_mem_wordKinds h.2 nofun) hrest)
  | .boolean _ _ => fun h _ hrest ↦
    scansTo_leaf h.2 (h.1.scansTo (kind_mem_wordKinds h.2 nofun) hrest)
  | .string token value => by
    rintro ⟨-, hdenotes⟩ rest -
    cases hdenotes with
    | string kind => exact scansTo_leaf (.string kind) (Token.scansTo_string kind rest)
  | .unary token operator right => by
    rintro ⟨hspelled, hoperator, hright⟩ rest -
    have htext : (Expr.unary token operator right).render.toList
        = '(' :: (operator.text.toList ++ right.render.toList ++ [')']) := by
      simp [Expr.render]
    -- a sign must not run into the operand, as an exclamation mark would into an equals sign
    obtain ⟨c, cs, hcons, hc⟩ := exists_cons_render right hright
    have hsign : ScansTo operator.text.toList (Copies token)
        (right.render.toList ++ ')' :: rest) :=
      scansTo_unaryOperator hspelled hoperator (by rw [hcons]; simpa using hc)
    have hoperand := scansTo_expression right hright (')' :: rest)
      (Token.stops_cons (by decide) (by decide) rest)
    rw [htext]
    refine scansTo_group (k := 0) ((hsign.append hoperand).imp ?_)
    rintro _ ⟨_, ts, rfl, ⟨u, rfl, hu⟩, hts⟩
    exact (Spells.unary hoperator hu (hts.looser .signed (by decide))).looser .equality (by decide)
  | .binary token left operator right => by
    rintro ⟨hspelled, hoperator, hleft, hright⟩ rest -
    obtain ⟨σ, hσ, hmark, hname, hσrank, hσrank'⟩ := exists_stratum hoperator
    have htext : (Expr.binary token left operator right).render.toList
        = '(' :: (left.render.toList ++ ' ' :: (token.kind.name.toList ++ ' ' ::
            right.render.toList) ++ [')']) := by
      simp [Expr.render, hname]
    have hr := scansTo_expression right hright (')' :: rest)
      (Token.stops_cons (by decide) (by decide) rest)
    have ho := (Token.scansTo_mark hmark _).append (hr.blank (c := ' ') rfl)
    have hall := (ho.blank (c := ' ') rfl).prepend (scansTo_expression left hleft)
      (Token.stops_blank rfl _)
    rw [htext]
    refine scansTo_group (k := left.calls + 1) (hall.imp ?_)
    rintro _ ⟨ls, _, rfl, hls, os, rs, rfl, hos, hrs⟩
    obtain ⟨u, rfl, hu⟩ := hos.of_mark hspelled (.inl hmark)
    exact (Spells.binary hσ hoperator hu (hls.looser σ hσrank)
      (hrs.looser σ.tighter hσrank')).looser .equality (Nat.zero_le _)
  | .index token left position => by
    rintro ⟨htoken, hleft, hposition⟩ rest -
    have htext : (Expr.index token left position).render.toList
        = '(' :: (left.render.toList ++ '[' :: (position.render.toList ++ [']']) ++ [')']) := by
      simp [Expr.render]
    have hp := ((ScansTo.nil (')' :: rest)).mark ']' .rbracket (by decide) rfl).prepend
      (scansTo_expression position hposition) (Token.stops_cons (by decide) (by decide) _)
    have hall := (hp.mark '[' .lbracket (by decide) rfl).prepend (scansTo_expression left hleft)
      (Token.stops_cons (by decide) (by decide) _)
    rw [htext]
    refine scansTo_group (k := left.calls + 1) (hall.imp ?_)
    rintro _ ⟨ls, _, rfl, hls, _, _, rfl, hopen, ps, _, rfl, hps, _, _, rfl, ⟨close, rfl, hclose⟩,
      rfl⟩
    obtain ⟨u, rfl, hu⟩ := hopen.of_isA htoken (by decide)
    have hindex := Spells.index htoken.1 hu (kind_eq_of_unplaced_eq hclose) hls
      (hps.looser .equality (by decide))
    simpa using hindex.looser .equality (by decide)
  | .call token callee arguments => by
    rintro ⟨htoken, hcallee, harguments⟩ rest -
    have htext : (Expr.call token callee arguments).render.toList
        = callee.render.toList ++ '(' :: ((Expr.renderList arguments).toList ++ [')']) := by
      simp [Expr.render]
    have hlist := ((ScansTo.nil rest).mark ')' .rparen (by decide) rfl).prepend
      (scansTo_expressions arguments harguments) (Token.stops_cons (by decide) (by decide) _)
    have hall := (hlist.mark '(' .lparen (by decide) rfl).prepend
      (scansTo_expression callee hcallee) (Token.stops_cons (by decide) (by decide) _)
    rw [htext]
    refine hall.imp ?_
    rintro _ ⟨fs, _, rfl, hfs, _, _, rfl, hopen, as, _, rfl, has, _, _, rfl, ⟨close, rfl, hclose⟩,
      rfl⟩
    obtain ⟨u, rfl, hu⟩ := hopen.of_isA htoken (by decide)
    have hcall := Spells.call htoken.1 hu (kind_eq_of_unplaced_eq hclose) hfs has
    simpa [Expr.depth, Expr.calls] using hcall
  | .array token elements => by
    rintro ⟨htoken, helements⟩ rest -
    have htext : (Expr.array token elements).render.toList
        = '[' :: ((Expr.renderList elements).toList ++ [']']) := by
      simp [Expr.render]
    have hlist := ((ScansTo.nil rest).mark ']' .rbracket (by decide) rfl).prepend
      (scansTo_expressions elements helements) (Token.stops_cons (by decide) (by decide) _)
    rw [htext]
    refine (hlist.mark '[' .lbracket (by decide) rfl).imp ?_
    rintro _ ⟨_, _, rfl, hopen, es, _, rfl, hes, _, _, rfl, ⟨close, rfl, hclose⟩, rfl⟩
    obtain ⟨u, rfl, hu⟩ := hopen.of_isA htoken (by decide)
    exact (Spells.array htoken.1 hu (kind_eq_of_unplaced_eq hclose) hes).looser .applied (by decide)
  | .function token parameters brace body => by
    rintro ⟨htoken, hparameters, hbrace, hbody⟩ rest -
    have htext : (Expr.function token parameters brace body).render.toList
        = token.lexeme.toList ++ '(' :: ((renderParameters parameters).toList ++ ')' :: ' ' ::
            '\x7b' :: ' ' :: ((Stmt.renderList " " body).toList ++
              (if body.isEmpty then "\x7d" else " \x7d").toList)) := by
      simp [Expr.render]
    have hend := scansTo_unbrace body.isEmpty rest
    have hstatements := hend.prepend
      (scansTo_statements " " ' ' rfl rfl body hbody) (stops_unbrace body.isEmpty rest)
    have hbraced := (hstatements.blank (c := ' ') rfl).mark '\x7b' .lbrace (by decide) rfl
    have hnames := ((hbraced.blank (c := ' ') rfl).mark ')' .rparen (by decide) rfl).prepend
      (fun _ ↦ scansTo_names parameters hparameters) (Token.stops_cons (by decide) (by decide) _)
    have hall := (hnames.mark '(' .lparen (by decide) rfl).prepend
      (fun _ ↦ htoken.2.scansTo (by rw [htoken.1]; decide))
      (Token.stops_cons (by decide) (by decide) _)
    rw [htext]
    refine hall.imp ?_
    rintro _ ⟨_, _, rfl, ⟨u, rfl, hu⟩, _, _, rfl, ⟨opening, rfl, hopen⟩, ps, _, rfl, hps, _, _, rfl,
      ⟨close, rfl, hclose⟩, _, _, rfl, hopened, bs, _, rfl, hbs, ⟨unbrace, rfl, hunbrace⟩⟩
    obtain ⟨brace', rfl, hbrace'⟩ := hopened.of_isA hbrace (by decide)
    have hfunction := Spells.function htoken.1 hu (kind_eq_of_unplaced_eq hopen)
      (kind_eq_of_unplaced_eq hclose) hbrace.1 hbrace' (kind_eq_of_unplaced_eq hunbrace) hps hbs
    simpa [Expr.depth, Expr.calls] using hfunction.looser .applied (by decide)

theorem scansTo_expressions : (es : List Expr) → Expr.WellFormedList es → ∀ rest, Stops rest →
    ScansTo (Expr.renderList es).toList (SpellsList es (Expr.depthList es)) rest
  | [] => fun _ rest _ ↦ (ScansTo.nil rest).imp fun ts hts ↦ by
    rw [hts]
    exact ⟨.empty, rfl, rfl⟩
  | [e] => by
    rintro ⟨he, -⟩ rest hrest
    rw [Expr.renderList, Expr.depthList, Expr.depthList, Nat.max_zero]
    refine (scansTo_expression e he rest hrest).imp fun ts hts ↦ ?_
    exact .singleton (hts.looser .equality (by decide))
  | e :: e' :: es => by
    rintro ⟨he, hes⟩ rest hrest
    have htext : (Expr.renderList (e :: e' :: es)).toList
        = e.render.toList ++ ',' :: ' ' :: (Expr.renderList (e' :: es)).toList := by
      simp [Expr.renderList]
    have hmore := (scansTo_expressions (e' :: es) hes rest hrest).blank (c := ' ') rfl
    have hall := (hmore.mark ',' .comma (by decide) rfl).prepend (scansTo_expression e he)
      (Token.stops_cons (by decide) (by decide) _)
    rw [htext]
    refine hall.imp ?_
    rintro _ ⟨ts, _, rfl, hts, _, us, rfl, ⟨comma, rfl, hcomma⟩, hus⟩
    exact .cons (hts.looser .equality (by decide)) (kind_eq_of_unplaced_eq hcomma) hus

theorem scansTo_statements (separator : String) (c : Char) (hseparator : separator.toList = [c])
    (hc : Token.isBlank c = true) : (ss : List Stmt) → Stmt.WellFormedList ss →
    ∀ rest, Stops rest →
      ScansTo (Stmt.renderList separator ss).toList (SpellsBody ss (Stmt.depthList ss)) rest
  | [] => fun _ rest _ ↦ (ScansTo.nil rest).imp fun ts hts ↦ by
    rw [hts]
    exact .nil
  | [.comment token] => by
    rintro ⟨⟨hkind, hspelled⟩, -⟩ rest -
    have htext : (Stmt.renderList separator [.comment token]).toList
        = token.lexeme.toList ++ ['\n'] := by
      simp [Stmt.renderList, Stmt.render]
    -- a comment closes its line even as the last statement, or it would swallow the brace
    have hcomment : ScansTo token.lexeme.toList (Copies token) ('\n' :: rest) :=
      Token.scansTo_comment hkind hspelled (by simp)
    rw [htext]
    refine (hcomment.append ((ScansTo.nil rest).blank rfl)).imp ?_
    rintro _ ⟨_, _, rfl, ⟨u, rfl, hu⟩, rfl⟩
    exact .comment hkind hu .nil
  | [.expression first value] => by
    rintro ⟨hvalue, -⟩ rest hrest
    rw [Stmt.renderList, Stmt.render]
    refine (scansTo_expression value hvalue rest hrest).imp fun ts hts ↦ ?_
    have hbody : SpellsBody [.expression first value] (max value.depth 0) (ts ++ [] ++ []) :=
      .expression first [] (hts.looser .equality (by decide)) .nil fun _ ↦ rfl
    simpa [Stmt.depthList, Stmt.depth] using hbody
  | .comment token :: s' :: ss => by
    rintro ⟨⟨hkind, hspelled⟩, hmore⟩ rest hrest
    have htext : (Stmt.renderList separator (.comment token :: s' :: ss)).toList
        = token.lexeme.toList ++ '\n' :: (Stmt.renderList separator (s' :: ss)).toList := by
      simp [Stmt.renderList]
    have hstatements := scansTo_statements separator c hseparator hc (s' :: ss) hmore rest hrest
    have hcomment : ScansTo token.lexeme.toList (Copies token)
        ('\n' :: (Stmt.renderList separator (s' :: ss)).toList ++ rest) :=
      Token.scansTo_comment hkind hspelled (by simp)
    rw [htext]
    refine (hcomment.append (hstatements.blank rfl)).imp ?_
    rintro _ ⟨_, us, rfl, ⟨u, rfl, hu⟩, hus⟩
    exact .comment hkind hu hus
  | .expression first value :: s' :: ss => by
    rintro ⟨hvalue, hmore⟩ rest hrest
    have htext : (Stmt.renderList separator (.expression first value :: s' :: ss)).toList
        = value.render.toList ++ '.' :: c :: (Stmt.renderList separator (s' :: ss)).toList := by
      simp [Stmt.renderList, hseparator]
    have hstatements := scansTo_statements separator c hseparator hc (s' :: ss) hmore rest hrest
    -- the blank behind the period keeps an integer from running into a statement that is a number
    have hall := ((hstatements.blank hc).mark '.' .period (by decide) rfl).prepend
      (scansTo_expression value hvalue) (Token.stops_point_blank hc _)
    rw [htext]
    refine hall.imp ?_
    rintro _ ⟨ts, _, rfl, hts, _, us, rfl, ⟨period, rfl, hperiod⟩, hus⟩
    have hbody := SpellsBody.expression first [⟨period, kind_eq_of_unplaced_eq hperiod⟩]
      (hts.looser .equality (by decide)) hus fun h ↦ absurd h (List.cons_ne_nil _ _)
    simpa [Stmt.depthList, Stmt.depth] using hbody

end

/-! ## Scripts -/

/-- The canonical text of a well-formed script has a derivation of that script. -/
theorem exists_body_render {p : Program} (hp : p.WellFormed) :
    ∃ b : Body (Token.scan 0 0 p.render.toList),
      Program.unplaced ⟨b.statements⟩ = p.unplaced ∧ b.levels = p.depth := by
  obtain ⟨ts, ⟨b, hstatements, hlevels⟩, hscan⟩ :=
    scansTo_statements "\n" '\n' rfl rfl p.statements hp [] Token.stops_nil 0
  rw [List.append_nil, Token.scan, List.append_nil] at hscan
  subst hscan
  exact ⟨b, congrArg Program.mk hstatements, hlevels⟩

/-- The depth of a script decides whether its canonical text is too deep for the parser. -/
theorem isTooDeep_render_iff {p : Program} (hp : p.WellFormed) :
    (Document.ofSource p.render).IsTooDeep ↔ nestingLimit < p.depth := by
  obtain ⟨b, -, hlevels⟩ := exists_body_render hp
  rw [← hlevels, ← Nat.not_le, b.levels_le_iff, not_not]

/-- What is read back from canonical text that is not too deep. -/
theorem document_eq_of_render {p : Program} (hp : p.WellFormed)
    (hdeep : ¬(Document.ofSource p.render).IsTooDeep) :
    (Document.ofSource p.render).isClean = true ∧
      (Document.ofSource p.render).program.unplaced = p.unplaced := by
  obtain ⟨b, hunplaced, -⟩ := exists_body_render hp
  obtain ⟨hclean, hprogram⟩ := b.document_eq hdeep
  exact ⟨hclean, by rw [hprogram, hunplaced]⟩

/-- What is read back from canonical text that is too deep is smaller than what was rendered. -/
theorem sizeList_lt_of_isTooDeep {p : Program} (hp : p.WellFormed)
    (hdeep : (Document.ofSource p.render).IsTooDeep) :
    Stmt.sizeList (Document.ofSource p.render).program.statements < Stmt.sizeList p.statements := by
  obtain ⟨b, hunplaced, hlevels⟩ := exists_body_render hp
  have hlost := (b.program_fallsShort (by rw [hlevels]; exact (isTooDeep_render_iff hp).mp hdeep)).2
  rwa [Program.sizeList_eq_of_unplaced_eq hunplaced] at hlost

/-- Canonical text determines its script, up to places. -/
theorem unplaced_eq_of_render_eq {p q : Program} (hp : p.WellFormed) (hq : q.WellFormed)
    (h : p.render = q.render) : p.unplaced = q.unplaced := by
  obtain ⟨b, hb, -⟩ := exists_body_render hp
  obtain ⟨b', hb', -⟩ := exists_body_render hq
  rw [← hb, ← hb']
  -- both are derivations of one text, and the grammar is unambiguous
  revert b'
  rw [← h]
  intro b' _
  rw [b.statements_unique b']

/-- **Parsing undoes rendering.** The canonical text of a well-formed script parses without a remark
to the same script, up to the places of tokens, unless it is nested too deeply. -/
theorem document_render (p : Program) (hp : p.WellFormed)
    (hdeep : ¬(Document.ofSource p.render).IsTooDeep) :
    (Document.ofSource p.render).isClean = true ∧
      (Document.ofSource p.render).program.unplaced = p.unplaced :=
  document_eq_of_render hp hdeep

/-- A comment, and a call of a negated string that holds a quote and a line break. -/
def remarkScript : Program :=
  ⟨[.comment ⟨.comment, "% remark", ⟨0, 0⟩⟩,
    .expression (.eof 0) (.call ⟨.lparen, "(", ⟨0, 0⟩⟩
      (.unary ⟨.bang, "!", ⟨0, 0⟩⟩ .bang (.string ⟨.string, "ü\"\n", ⟨0, 0⟩⟩ "ü\"\n")) [])]⟩

theorem document_render_remark :
    remarkScript.WellFormed ∧ ¬(Document.ofSource remarkScript.render).IsTooDeep ∧
      (Document.ofSource remarkScript.render).program.unplaced = remarkScript.unplaced := by
  have hwell : remarkScript.WellFormed :=
    ⟨⟨rfl, [' ', 'r', 'e', 'm', 'a', 'r', 'k'], rfl, by decide⟩,
      ⟨⟨rfl, rfl⟩, ⟨rfl, rfl, trivial, .string rfl⟩, trivial⟩, trivial⟩
  have hdeep : ¬(Document.ofSource remarkScript.render).IsTooDeep := by
    rw [isTooDeep_render_iff hwell]
    decide
  exact ⟨hwell, hdeep, (document_render remarkScript hwell hdeep).2⟩

end Grammar

end DrawScript
