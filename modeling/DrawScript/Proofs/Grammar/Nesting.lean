import DrawScript.Proofs.Grammar.Reading
import DrawScript.Proofs.Tree.Unplaced

/-!
# Derivations without room

Where `DrawScript.Proofs.Grammar.Reading` has room for all levels of a derivation, here is too
little of it. The parse is then given up, and what it has built is smaller than the tree of the
derivation: the operand or the continuation at which room ran out is missing, and nothing is built
afterwards that could make up for it.

Together the two modules say that the levels of a derivation are exactly the room it takes.
-/

namespace DrawScript.Grammar

open Token (Kind)
open DrawScript.Parser

variable {s : State} {sub : ExprRule} {room size : Nat} {level : Precedence}

/-! ## Runs that fall short -/

/-- The run gave up, and what it built has fewer nodes than `size`. -/
def FallsShort (size : Nat) (run : Option Expr × State) : Prop :=
  run.2.abandoned = true ∧ ∀ e ∈ run.1, e.size < size

/-- The run gave up, and the expressions it built have fewer nodes than `size`. -/
def ListFallsShort (size : Nat) (run : List Expr × State) : Prop :=
  run.2.abandoned = true ∧ Expr.sizeList run.1 < size

/-- The run gave up, and the statements it built have fewer nodes than `size`. -/
def BodyFallsShort (size : Nat) (run : List Stmt × State) : Prop :=
  run.2.abandoned = true ∧ Stmt.sizeList run.1 < size

theorem FallsShort.mono {size' : Nat} {run : Option Expr × State} (h : FallsShort size run)
    (hle : size ≤ size') : FallsShort size' run :=
  ⟨h.1, fun e he ↦ Nat.lt_of_lt_of_le (h.2 e he) hle⟩

/-! ## Rules after the parse was given up -/

theorem abandon_of_abandoned (hs : s.abandoned = true) : s.abandon = s := by
  rw [State.abandon, if_pos hs]

theorem expression_of_abandoned (hs : s.abandoned = true) :
    expression room level s = (none, s) := by
  cases room with
  | zero => rw [expression, abandon_of_abandoned hs]
  | succ room => rw [expression, if_pos hs]

theorem chain_of_abandoned {left : Expr} (hs : s.abandoned = true) :
    chain room level left s = (some left, s) := by
  cases room with
  | zero => rw [chain, abandon_of_abandoned hs, ite_self]
  | succ room => simp [chain, hs]

theorem expect_of_abandoned {kind : Kind} (hs : s.abandoned = true) :
    s.expect kind = (false, s) := by
  rw [State.expect, if_pos hs]

/-- Commas may still be passed over, but no expression is read behind them. -/
theorem moreItems_of_abandoned (room : Nat) (level : Precedence) (bound : Nat)
    (hs : s.abandoned = true) :
    (moreItems (expression room level) bound s).1 = [] ∧
      (moreItems (expression room level) bound s).2.abandoned = true := by
  induction bound generalizing s with
  | zero => exact ⟨rfl, hs⟩
  | succ bound ih =>
    rw [moreItems]
    split_ifs with hcomma
    · have hs' : s.advance.advance.abandoned = true := hs
      obtain ⟨hitems, habandoned⟩ := ih hs'
      simp [expression_of_abandoned hs', hitems, habandoned]
    · exact ⟨rfl, hs⟩

theorem statementsUntil_of_abandoned {ends : Kind → Bool} (bound : Nat)
    (hs : s.abandoned = true) : statementsUntil sub ends bound s = ([], s) := by
  cases bound with
  | zero => rfl
  | succ bound => simp [statementsUntil, hs]

/-! ## Constructs of which a part falls short -/

theorem FallsShort.expression_zero : FallsShort size (expression 0 level s) :=
  ⟨State.abandoned_abandon s, by simp [expression]⟩

theorem FallsShort.expression_succ (hs : s.abandoned = false)
    (h : FallsShort size (primary (expression room) s)) :
    FallsShort size (expression (room + 1) level s) := by
  obtain ⟨habandoned, hsize⟩ := h
  rw [expression, hs]
  simp only [Bool.false_eq_true, if_false]
  split
  · next s' heq => rw [heq] at habandoned; exact ⟨habandoned, by simp⟩
  · next left s' heq =>
    rw [heq] at habandoned hsize
    rw [chain_of_abandoned habandoned]
    exact ⟨habandoned, hsize⟩

theorem FallsShort.chain_succ {left : Expr} {rule : Rule (Option Expr)} {t u : Token}
    {ts : List Token} (hs : s.abandoned = false) (hlevel : level < .of u.kind)
    (hrule : continuation? (expression room) left u.kind = some rule)
    (h : FallsShort size (rule (s.facing (u :: ts)))) :
    FallsShort size (chain (room + 1) level left (s.facing (t :: u :: ts))) := by
  obtain ⟨habandoned, hsize⟩ := h
  have hgo : continues level (s.facing (t :: u :: ts)) = true := by
    rw [continues_facing, headKind_cons, decide_eq_true hlevel]
  rw [chain]
  simp only [hgo, State.abandoned_facing, hs, Bool.not_true, Bool.or_self, Bool.false_eq_true,
    if_false, State.advance_facing, List.tail_cons, State.current_facing_cons, hrule]
  split
  · next s' heq => rw [heq] at habandoned; exact ⟨habandoned, by simp⟩
  · next left' s' heq =>
    rw [heq] at habandoned hsize
    rw [chain_of_abandoned habandoned]
    exact ⟨habandoned, hsize⟩

/-- Without room, the loop gives up at a token that would continue the expression. -/
theorem FallsShort.chain_zero {left : Expr} {t u : Token} {ts : List Token}
    (hlevel : level < .of u.kind) (hsize : left.size < size) :
    FallsShort size (chain 0 level left (s.facing (t :: u :: ts))) := by
  have hgo : continues level (s.facing (t :: u :: ts)) = true := by
    rw [continues_facing, headKind_cons, decide_eq_true hlevel]
  simp only [chain, hgo, if_true]
  exact ⟨State.abandoned_abandon _, by simpa using hsize⟩

theorem FallsShort.primary_group {opening : Token} {ts : List Token}
    (hopen : opening.kind = .lparen) (h : FallsShort size (sub .lowest (s.facing ts))) :
    FallsShort size (primary sub (s.facing (opening :: ts))) := by
  simp only [primary, State.current_facing_cons, hopen, groupRule, State.advance_facing,
    List.tail_cons, expect_of_abandoned h.1]
  exact h

theorem FallsShort.primary_array {opening : Token} {ts : List Token}
    (hopen : opening.kind = .lbracket)
    (h : ListFallsShort size (expressionList sub .rbracket (s.facing (opening :: ts)))) :
    FallsShort (size + 1) (primary sub (s.facing (opening :: ts))) := by
  simp only [primary, State.current_facing_cons, hopen, arrayRule]
  exact ⟨h.1, by simpa [Expr.size] using h.2⟩

theorem FallsShort.primary_unary {t : Token} {ts : List Token} {operator : UnaryOperator}
    (ht : UnaryOperator.ofKind? t.kind = some operator)
    (h : FallsShort size (sub .unary (s.facing ts))) :
    FallsShort (size + 1) (primary sub (s.facing (t :: ts))) := by
  rw [primary_of_unary ht]
  simp only [unaryRule, State.current_facing_cons, ht, State.advance_facing, List.tail_cons]
  refine ⟨h.1, fun e he ↦ ?_⟩
  obtain ⟨right, hright, rfl⟩ := Option.map_eq_some_iff.mp he
  exact Nat.succ_lt_succ (h.2 right hright)

theorem FallsShort.primary_function {keyword opening close brace : Token} {ps ts : List Token}
    {names : List Identifier} (hs : s.abandoned = false) (hkeyword : keyword.kind = .function)
    (hopen : opening.kind = .lparen) (hbrace : brace.kind = .lbrace)
    (hnames : parameters (s.facing (opening :: ps))
      = (some names, s.facing (close :: brace :: ts)))
    (h : BodyFallsShort size (body sub (s.facing (brace :: ts)))) :
    FallsShort (size + 1) (primary sub (s.facing (keyword :: opening :: ps))) := by
  simp only [primary, State.current_facing_cons, hkeyword, functionRule, expect_facing hs hopen,
    Bool.not_true, Bool.false_eq_true, if_false, hnames, expect_facing hs hbrace]
  exact ⟨h.1, by simpa [Expr.size] using h.2⟩

theorem FallsShort.callRule {opening : Token} {ts : List Token} {callee : Expr}
    (h : ListFallsShort size (expressionList sub .rparen (s.facing (opening :: ts)))) :
    FallsShort (callee.size + size + 1) (callRule sub callee (s.facing (opening :: ts))) := by
  simp only [Parser.callRule, State.current_facing_cons]
  refine ⟨h.1, ?_⟩
  have := h.2
  simp only [Option.mem_def, Option.some.injEq, forall_eq', Expr.size]
  omega

theorem FallsShort.indexRule {opening : Token} {ts : List Token} {left : Expr}
    (h : FallsShort size (sub .lowest (s.facing ts))) :
    FallsShort (left.size + size + 1) (indexRule sub left (s.facing (opening :: ts))) := by
  simp only [Parser.indexRule, State.advance_facing, List.tail_cons, expect_of_abandoned h.1]
  refine ⟨h.1, fun e he ↦ ?_⟩
  obtain ⟨position, hposition, rfl⟩ := Option.map_eq_some_iff.mp he
  have := h.2 position hposition
  rw [Expr.size]
  omega

theorem FallsShort.binaryRule {t : Token} {ts : List Token} {left : Expr}
    {operator : BinaryOperator} (h : FallsShort size (sub (.of t.kind) (s.facing ts))) :
    FallsShort (left.size + size + 1) (binaryRule sub left operator (s.facing (t :: ts))) := by
  simp only [Parser.binaryRule, State.current_facing_cons, State.advance_facing, List.tail_cons]
  refine ⟨h.1, fun e he ↦ ?_⟩
  obtain ⟨right, hright, rfl⟩ := Option.map_eq_some_iff.mp he
  have := h.2 right hright
  rw [Expr.size]
  omega

/-! ## Lists and bodies of which a part falls short -/

theorem sizeList_toList_lt {x : Option Expr} (h : ∀ e ∈ x, e.size < size) (hsize : 0 < size) :
    Expr.sizeList x.toList < size := by
  cases x with
  | none => exact hsize
  | some e => simpa [Expr.sizeList] using h e rfl

/-- Behind an item at which the parse was given up, the list gets no further items. -/
theorem ListFallsShort.of_item (bound : Nat) (hsize : 0 < size)
    (h : FallsShort size (expression room level s)) :
    ListFallsShort size
      ((expression room level s).1.toList ++
        (moreItems (expression room level) bound (expression room level s).2).1,
        (moreItems (expression room level) bound (expression room level s).2).2) := by
  obtain ⟨hitems, habandoned⟩ := moreItems_of_abandoned room level bound h.1
  refine ⟨habandoned, ?_⟩
  rw [hitems, List.append_nil]
  exact sizeList_toList_lt h.2 hsize

theorem ListFallsShort.cons {run : List Expr × State} (e : Expr) (h : ListFallsShort size run) :
    ListFallsShort (e.size + size) (e :: run.1, run.2) :=
  ⟨h.1, Nat.add_lt_add_left h.2 e.size⟩

theorem ListFallsShort.expressionList {opening : Token} {ts : List Token} {kind : Kind}
    (hfirst : headKind ts ≠ kind) (h : ListFallsShort size (items (sub .lowest) (s.facing ts))) :
    ListFallsShort size (expressionList sub kind (s.facing (opening :: ts))) := by
  simp only [Parser.expressionList, State.advance_facing, List.tail_cons, kind_current_facing,
    if_neg hfirst, expect_of_abandoned h.1]
  exact h

/-- Behind a statement at which the parse was given up, the body gets no further statements. -/
theorem BodyFallsShort.of_statement {ends : Kind → Bool} {t : Token} {ts : List Token}
    (bound : Nat) (hs : s.abandoned = false) (hend : ends t.kind = false)
    (ht : t.kind ≠ .comment) (h : FallsShort size (sub .lowest (s.facing (t :: ts)))) :
    BodyFallsShort (size + 1) (statementsUntil sub ends (bound + 1) (s.facing (t :: ts))) := by
  have habandoned : (sub .lowest (s.facing (t :: ts))).2.skipPeriods.advance.abandoned = true := h.1
  simp only [statementsUntil, State.abandoned_facing, hs, State.current_facing_cons, hend,
    Bool.or_self, Bool.false_eq_true, if_false, statement, ht,
    statementsUntil_of_abandoned bound habandoned, List.append_nil]
  refine ⟨habandoned, ?_⟩
  cases hvalue : (sub .lowest (s.facing (t :: ts))).1 with
  | none => exact Nat.succ_pos size
  | some e => simpa [Stmt.sizeList, Stmt.size] using h.2 e hvalue

theorem BodyFallsShort.statementsUntil_step {ends : Kind → Bool} {bound : Nat} {last : Token}
    {ts rest : List Token} {x : Stmt} (hs : s.abandoned = false)
    (hend : ends (headKind ts) = false)
    (hstatement : statement sub (s.facing ts) = (some x, s.facing (last :: rest)))
    (h : BodyFallsShort size (statementsUntil sub ends bound (s.facing rest))) :
    BodyFallsShort (x.size + size) (statementsUntil sub ends (bound + 1) (s.facing ts)) := by
  rw [Grammar.statementsUntil_step hs hend hstatement rfl]
  exact ⟨h.1, Nat.add_lt_add_left h.2 x.size⟩

theorem BodyFallsShort.body {brace : Token} {ts : List Token}
    (h : BodyFallsShort size (statementsUntil sub endsBody ts.length (s.facing ts))) :
    BodyFallsShort size (body sub (s.facing (brace :: ts))) := by
  have hgoing : ¬((statementsUntil sub endsBody ts.length (s.facing ts)).2.current.kind = .eof ∧
      (!(statementsUntil sub endsBody ts.length (s.facing ts)).2.abandoned) = true) := by
    simp [h.1]
  simp only [Parser.body, State.advance_facing, List.tail_cons, State.pending_facing, hgoing,
    if_false]
  exact h

/-! ## Phrases -/

/-- Where a token continues a phrase, room runs out inside the phrase, at the token or behind it. -/
theorem Phrase.fallsShort_of_continued {σ : Stratum} {ls ts : List Token} (left : Phrase σ ls)
    {t : Token} {rule : ExprRule → Rule (Option Expr)} (hs : s.abandoned = false)
    (hlevel : (Stratum.above level).rank ≤ σ.rank) (hmeets : σ.MeetsAt t.kind)
    (hlt : level < .of t.kind) (hsize : left.tree.size < size)
    (hrule : ∀ sub, continuation? sub left.tree t.kind = some (rule sub))
    (hleft : room < left.levels →
      FallsShort left.tree.size (expression room level (s.facing (ls ++ t :: ts))))
    (hright : left.levels ≤ room → ∀ n, room = n + left.folds + 2 →
      FallsShort size (rule (expression n) (s.facing (t :: ts)))) :
    FallsShort size (expression room level (s.facing (ls ++ t :: ts))) := by
  by_cases hfits : left.levels ≤ room
  · rw [left.expression_eq_chain room level s (t :: ts) hs hlevel hmeets hfits]
    cases hn : room - 1 - left.folds with
    -- the phrase is complete, but there is no room for another round
    | zero => exact .chain_zero hlt hsize
    | succ n => exact .chain_succ hs hlt (hrule _) (hright hfits n (by omega))
  · exact (hleft (Nat.lt_of_not_le hfits)).mono (Nat.le_of_lt hsize)

mutual

/-- **Deep phrases are lost.** Without room for its levels, the rule for expressions gives up on a
phrase and yields less than its tree. -/
theorem Phrase.fallsShort {σ : Stratum} {ts : List Token} :
    (d : Phrase σ ts) → ∀ (room : Nat) (level : Precedence) (s : State) (rest : List Token),
      s.abandoned = false → (Stratum.above level).rank ≤ σ.rank → σ.MeetsAt (headKind rest) →
      room < d.levels → FallsShort d.tree.size (expression room level (s.facing (ts ++ rest)))
  | .leaf e h => by
    rintro (_ | room) level s rest - - - hroom
    · exact .expression_zero
    · rw [Phrase.levels] at hroom; omega
  | .group opening inner close => by
    rintro (_ | room) level s rest hs - - hroom
    · exact .expression_zero
    have hinner := inner.fallsShort room .lowest s (close.1 :: rest) hs (Nat.zero_le _)
      (.of_lowest _ (by rw [headKind_cons, close.2]; rfl)) (Nat.lt_of_succ_lt_succ hroom)
    simp only [List.cons_append, List.append_assoc, List.nil_append]
    exact .expression_succ hs (.primary_group opening.2 hinner)
  | .array opening elements close => by
    rintro (_ | room) level s rest hs - - hroom
    · exact .expression_zero
    have hlist := elements.fallsShort room s opening.1 close.1 rest .rbracket hs close.2
      (.inr rfl) (Nat.lt_of_succ_lt_succ hroom)
    simp only [List.cons_append, List.append_assoc, List.nil_append]
    exact .expression_succ hs (.primary_array opening.2 hlist)
  | @Phrase.function ps ts keyword opening parameters close brace body unbrace => by
    rintro (_ | room) level s rest hs - - hroom
    · exact .expression_zero
    have hends : EndsAt endsBody (headKind (unbrace.1 :: rest)) := by
      rw [headKind_cons, unbrace.2]
      exact endsAt_rbrace
    have hread := body.fallsShort room (ts ++ unbrace.1 :: rest).length s endsBody
      (unbrace.1 :: rest) hs hends (by simp) (Nat.lt_of_succ_lt_succ hroom)
    have hnames := parameters.parameters_eq opening.1 (brace.1 :: (ts ++ unbrace.1 :: rest)) hs
      close.2
    simp only [List.cons_append, List.append_assoc, List.nil_append]
    exact .expression_succ hs (.primary_function hs keyword.2 opening.2 brace.2 hnames
      (.body hread))
  | @Phrase.call fs ts callee opening arguments close => by
    intro room level s rest hs hlevel _ hroom
    rw [Phrase.levels] at hroom
    rw [Phrase.tree, Expr.size]
    simp only [List.cons_append, List.append_assoc, List.nil_append]
    have hcall : level < .of opening.1.kind := by
      rw [opening.2]; exact (Stratum.lt_call_of_above hlevel).1
    have hmeets := Stratum.meetsAt_applied opening.1.kind
    refine callee.fallsShort_of_continued hs hlevel hmeets hcall (by omega)
      (fun _ ↦ by rw [opening.2]; rfl) (callee.fallsShort room level s _ hs hlevel hmeets)
      fun hfits n hn ↦ ?_
    exact .callRule (arguments.fallsShort n s opening.1 close.1 rest .rparen hs close.2 (.inl rfl)
      (by omega))
  | @Phrase.index ls ts left opening position close => by
    intro room level s rest hs hlevel _ hroom
    rw [Phrase.levels] at hroom
    rw [Phrase.tree, Expr.size]
    simp only [List.cons_append, List.append_assoc, List.nil_append]
    have hindex : level < .of opening.1.kind := by
      rw [opening.2]; exact (Stratum.lt_call_of_above hlevel).2
    have hmeets := Stratum.meetsAt_applied opening.1.kind
    refine left.fallsShort_of_continued hs hlevel hmeets hindex (by omega)
      (fun _ ↦ by rw [opening.2]; rfl) (left.fallsShort room level s _ hs hlevel hmeets)
      fun hfits n hn ↦ ?_
    exact .indexRule (position.fallsShort n .lowest s (close.1 :: rest) hs (Nat.zero_le _)
      (.of_lowest _ (by rw [headKind_cons, close.2]; rfl)) (by omega))
  | .unary t operator ht right => by
    rintro (_ | room) level s rest hs - hrest hroom
    · exact .expression_zero
    have hright := right.fallsShort room .unary s rest hs (Nat.le_refl _) hrest
      (Nat.lt_of_succ_lt_succ hroom)
    exact .expression_succ hs (.primary_unary ht hright)
  | @Phrase.binary σ ls rs left t operator hσ ht right => by
    intro room level s rest hs hlevel hrest hroom
    rw [Phrase.levels] at hroom
    rw [Phrase.tree, Expr.size]
    simp only [List.cons_append, List.append_assoc]
    have hmeets := Stratum.meetsAt_of_mem_operators hσ
    refine left.fallsShort_of_continued hs hlevel hmeets (Stratum.lt_of_mem_operators hσ hlevel)
      (by omega) (fun _ ↦ continuation?_of_operator ht)
      (left.fallsShort room level s _ hs hlevel hmeets) fun hfits n hn ↦ ?_
    exact .binaryRule (right.fallsShort n (.of t.kind) s rest hs
      (by rw [Stratum.above_of_mem_operators hσ])
      (hrest.mono (Stratum.rank_le_rank_tighter σ)) (by omega))
  | .tighter _ inner => by
    intro room level s rest hs hlevel hrest hroom
    exact inner.fallsShort room level s rest hs
      (hlevel.trans (Stratum.rank_le_rank_tighter _))
      (hrest.mono (Stratum.rank_le_rank_tighter _)) hroom

theorem Listing.fallsShort {ts : List Token} :
    (d : Listing ts) → ∀ (room : Nat) (s : State) (opening close : Token) (rest : List Token)
      (kind : Kind), s.abandoned = false → close.kind = kind →
      kind = .rparen ∨ kind = .rbracket → room < d.levels →
      ListFallsShort (Expr.sizeList d.trees)
        (expressionList (expression room) kind (s.facing (opening :: (ts ++ close :: rest))))
  | .empty => fun _ _ _ _ _ _ _ _ _ hroom ↦ absurd hroom (Nat.not_lt_zero _)
  | @Listing.items ts us first more => by
    intro room s opening close rest kind hs hclose hkind hroom
    rw [Listing.levels] at hroom
    rw [Listing.trees, Expr.sizeList, List.append_assoc]
    have hlowest := of_headKind_close rest hclose hkind
    have hnext := more.of_headKind_append hlowest
    refine .expressionList (first.headKind_ne_close hkind) ?_
    -- what room runs out for is the first expression or one behind it
    by_cases hfits : first.levels ≤ room
    · have hfirst := first.expression_eq_chain room .lowest s (us ++ close :: rest) hs
        (Nat.zero_le _) (.of_lowest _ hnext) hfits
      have hread := read_of_eq_chain hfirst (by rw [hnext]; decide)
      have hmore := more.fallsShort room ((us ++ close :: rest).length + 1) s first.last
        (close :: rest) hs hlowest (by simp; omega) (by omega)
      rw [items_eq hread rfl]
      exact hmore.cons first.tree
    · have hfirst := first.fallsShort room .lowest s (us ++ close :: rest) hs
        (Nat.zero_le _) (.of_lowest _ hnext) (Nat.lt_of_not_le hfits)
      exact .of_item _ (by have := first.tree.size_pos; omega) (hfirst.mono (by omega))

theorem More.fallsShort {ts : List Token} :
    (d : More ts) → ∀ (room bound : Nat) (s : State) (last : Token) (rest : List Token),
      s.abandoned = false → Precedence.of (headKind rest) = .lowest → ts.length ≤ bound →
      room < d.levels →
      ListFallsShort (Expr.sizeList d.trees)
        (moreItems (expression room .lowest) bound (s.facing (last :: (ts ++ rest))))
  | .done => fun _ _ _ _ _ _ _ _ hroom ↦ absurd hroom (Nat.not_lt_zero _)
  | @More.item ts us comma next more => by
    rintro room (_ | bound) s last rest hs hlowest hbound hroom
    · simp at hbound
    rw [More.levels] at hroom
    rw [More.trees, Expr.sizeList]
    simp only [List.cons_append, List.append_assoc]
    have hnext := more.of_headKind_append hlowest
    by_cases hfits : next.levels ≤ room
    · have hitem := next.expression_eq_chain room .lowest s (us ++ rest) hs (Nat.zero_le _)
        (.of_lowest _ hnext) hfits
      have hread := read_of_eq_chain hitem (by rw [hnext]; decide)
      have hmore := more.fallsShort room bound s next.last rest hs hlowest
        (by simp at hbound; omega) (by omega)
      rw [moreItems_step comma.2 hread rfl]
      exact hmore.cons next.tree
    · have hitem := next.fallsShort room .lowest s (us ++ rest) hs (Nat.zero_le _)
        (.of_lowest _ hnext) (Nat.lt_of_not_le hfits)
      rw [moreItems, kind_peek_facing, headKind_cons, if_pos comma.2]
      exact .of_item _ (by have := next.tree.size_pos; omega) (hitem.mono (by omega))

theorem Body.fallsShort {ts : List Token} :
    (d : Body ts) → ∀ (room bound : Nat) (s : State) (ends : Kind → Bool) (rest : List Token),
      s.abandoned = false → EndsAt ends (headKind rest) → ts.length ≤ bound → room < d.levels →
      BodyFallsShort (Stmt.sizeList d.statements)
        (statementsUntil (expression room) ends bound (s.facing (ts ++ rest)))
  | .done => fun _ _ _ _ _ _ _ _ hroom ↦ absurd hroom (Nat.not_lt_zero _)
  | @Body.comment ts t more => by
    rintro room (_ | bound) s ends rest hs hends hbound hroom
    · simp at hbound
    have hmore := more.fallsShort room bound s ends rest hs hends
      (Nat.le_of_succ_le_succ hbound) hroom
    have hend : ends (headKind (t.1 :: ts ++ rest)) = false := by
      rw [List.cons_append, headKind_cons, t.2]
      exact hends.not_comment
    exact .statementsUntil_step hs hend (statement_comment t _) hmore
  | @Body.expression t ts us value periods split more => by
    rintro room (_ | bound) s ends rest hs hends hbound hroom
    · simp at hbound
    rw [Body.levels] at hroom
    rw [Body.statements, Stmt.sizeList]
    have hfollow := Body.of_headKind_eq_lowest periods split fun _ _ ↦ hends.not_continuer
    have hstarter := value.kind_mem_starters
    have hcomment := kind_ne_comment_of_mem_starters hstarter
    have hend := hends.not_starter _ hstarter
    by_cases hfits : value.levels ≤ room
    · have hvalue := value.expression_eq_chain room .lowest s (periods.map (·.1) ++ (us ++ rest))
        hs (Nat.zero_le _) (.of_lowest _ hfollow) hfits
      have hread := read_of_eq_chain hvalue (by rw [hfollow]; decide)
      obtain ⟨last, hskip⟩ := exists_skipPeriods_eq (s := s) value.last periods
        (more.headKind_append_ne_period hends.not_period)
      have hmore := more.fallsShort room bound s ends rest hs hends
        (by simp at hbound; omega) (by omega)
      simp only [List.cons_append, List.append_assoc] at hread ⊢
      exact .statementsUntil_step hs hend (statement_expression hcomment hread hskip) hmore
    · have hvalue := value.fallsShort room .lowest s (periods.map (·.1) ++ (us ++ rest)) hs
        (Nat.zero_le _) (.of_lowest _ hfollow) (Nat.lt_of_not_le hfits)
      simp only [List.cons_append, List.append_assoc] at hvalue ⊢
      have hshort := BodyFallsShort.of_statement bound hs hend hcomment hvalue
      exact ⟨hshort.1, Nat.lt_of_lt_of_le hshort.2 (Nat.le_add_right _ _)⟩

end

end DrawScript.Grammar
