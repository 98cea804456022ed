import DrawScript.Proofs.Parser.Relocation

/-!
# The tokens that trees keep

Every token that a tree keeps, the tokens of statements included, was the token at hand at some
point of the parse, and the parse had not been given up by then (`visited_program`). In particular
it is a token of the source and never the end mark. So a relocation that leaves the tokens of the
source where they are leaves the tree as it is, whatever it does to the end mark
(`relocate_program_eq_self`).

The yield of a tree says more about the order of its tokens, but it leaves out the tokens of
expression statements, which repeat others.
-/

namespace DrawScript

/-! ## Kept tokens -/

mutual

/-- All tokens that an expression keeps. -/
def Expr.tokens : Expr → List Token
  | .identifier name => [name.token]
  | .integer token _ | .real token _ | .string token _ | .boolean token _ => [token]
  | .unary token _ right => token :: right.tokens
  | .binary token left _ right => left.tokens ++ token :: right.tokens
  | .function token parameters brace body =>
    token :: (parameters.map (·.token) ++ brace :: Stmt.tokensList body)
  | .call token callee arguments => callee.tokens ++ token :: Expr.tokensList arguments
  | .array token elements => token :: Expr.tokensList elements
  | .index token left position => left.tokens ++ token :: position.tokens

/-- All tokens that expressions keep. -/
def Expr.tokensList : List Expr → List Token
  | [] => []
  | e :: es => e.tokens ++ Expr.tokensList es

/-- All tokens that a statement keeps, its own included. -/
def Stmt.tokens : Stmt → List Token
  | .comment token => [token]
  | .expression token value => token :: value.tokens

/-- All tokens that statements keep. -/
def Stmt.tokensList : List Stmt → List Token
  | [] => []
  | s :: ss => s.tokens ++ Stmt.tokensList ss

end

/-- All tokens that a script keeps. -/
def Program.tokens (program : Program) : List Token :=
  Stmt.tokensList program.statements

theorem Expr.tokensList_eq_flatMap (es : List Expr) :
    Expr.tokensList es = es.flatMap (·.tokens) := by
  induction es with
  | nil => rfl
  | cons e es ih => rw [Expr.tokensList, ih, List.flatMap_cons]

theorem Stmt.tokensList_eq_flatMap (ss : List Stmt) :
    Stmt.tokensList ss = ss.flatMap (·.tokens) := by
  induction ss with
  | nil => rfl
  | cons s ss ih => rw [Stmt.tokensList, ih, List.flatMap_cons]

/-! ## Relocations that leave tokens in place -/

/-- The relocation leaves these tokens where they are. -/
def Relocation.Fixes (r : Relocation) (ts : List Token) : Prop :=
  ∀ t ∈ ts, t.relocate r = t

variable {r : Relocation} {t : Token} {ts us : List Token}

theorem Relocation.fixes_cons : r.Fixes (t :: ts) ↔ t.relocate r = t ∧ r.Fixes ts :=
  List.forall_mem_cons

theorem Relocation.fixes_append : r.Fixes (ts ++ us) ↔ r.Fixes ts ∧ r.Fixes us :=
  List.forall_mem_append

theorem Identifier.relocate_eq_self {names : List Identifier}
    (h : r.Fixes (names.map (·.token))) : names.map (·.relocate r) = names := by
  induction names with
  | nil => rfl
  | cons name names ih =>
    obtain ⟨htoken, hnames⟩ := Relocation.fixes_cons.mp h
    rw [List.map_cons, ih hnames, Identifier.relocate, htoken]

mutual

theorem Expr.relocate_eq_self : (e : Expr) → r.Fixes e.tokens → e.relocate r = e
  | .identifier name => fun h ↦ by
    rw [Expr.relocate, Identifier.relocate, h name.token (List.mem_singleton_self _)]
  | .integer token _ => fun h ↦ by rw [Expr.relocate, h token (List.mem_singleton_self _)]
  | .real token _ => fun h ↦ by rw [Expr.relocate, h token (List.mem_singleton_self _)]
  | .string token _ => fun h ↦ by rw [Expr.relocate, h token (List.mem_singleton_self _)]
  | .boolean token _ => fun h ↦ by rw [Expr.relocate, h token (List.mem_singleton_self _)]
  | .unary _ _ right => fun h ↦ by
    obtain ⟨htoken, hright⟩ := Relocation.fixes_cons.mp h
    rw [Expr.relocate, htoken, Expr.relocate_eq_self right hright]
  | .binary _ left _ right => fun h ↦ by
    obtain ⟨hleft, h⟩ := Relocation.fixes_append.mp h
    obtain ⟨htoken, hright⟩ := Relocation.fixes_cons.mp h
    rw [Expr.relocate, htoken, Expr.relocate_eq_self left hleft,
      Expr.relocate_eq_self right hright]
  | .function _ parameters _ body => fun h ↦ by
    obtain ⟨htoken, h⟩ := Relocation.fixes_cons.mp h
    obtain ⟨hnames, h⟩ := Relocation.fixes_append.mp h
    obtain ⟨hbrace, hbody⟩ := Relocation.fixes_cons.mp h
    rw [Expr.relocate, htoken, hbrace, Identifier.relocate_eq_self hnames,
      Stmt.relocateList_eq_self body hbody]
  | .call _ callee arguments => fun h ↦ by
    obtain ⟨hcallee, h⟩ := Relocation.fixes_append.mp h
    obtain ⟨htoken, harguments⟩ := Relocation.fixes_cons.mp h
    rw [Expr.relocate, htoken, Expr.relocate_eq_self callee hcallee,
      Expr.relocateList_eq_self arguments harguments]
  | .array _ elements => fun h ↦ by
    obtain ⟨htoken, helements⟩ := Relocation.fixes_cons.mp h
    rw [Expr.relocate, htoken, Expr.relocateList_eq_self elements helements]
  | .index _ left position => fun h ↦ by
    obtain ⟨hleft, h⟩ := Relocation.fixes_append.mp h
    obtain ⟨htoken, hposition⟩ := Relocation.fixes_cons.mp h
    rw [Expr.relocate, htoken, Expr.relocate_eq_self left hleft,
      Expr.relocate_eq_self position hposition]

theorem Expr.relocateList_eq_self :
    (es : List Expr) → r.Fixes (Expr.tokensList es) → Expr.relocateList r es = es
  | [] => fun _ ↦ rfl
  | e :: es => fun h ↦ by
    obtain ⟨he, hes⟩ := Relocation.fixes_append.mp h
    rw [Expr.relocateList, Expr.relocate_eq_self e he, Expr.relocateList_eq_self es hes]

theorem Stmt.relocate_eq_self : (s : Stmt) → r.Fixes s.tokens → s.relocate r = s
  | .comment token => fun h ↦ by rw [Stmt.relocate, h token (List.mem_singleton_self _)]
  | .expression _ value => fun h ↦ by
    obtain ⟨htoken, hvalue⟩ := Relocation.fixes_cons.mp h
    rw [Stmt.relocate, htoken, Expr.relocate_eq_self value hvalue]

theorem Stmt.relocateList_eq_self :
    (ss : List Stmt) → r.Fixes (Stmt.tokensList ss) → Stmt.relocateList r ss = ss
  | [] => fun _ ↦ rfl
  | s :: ss => fun h ↦ by
    obtain ⟨hs, hss⟩ := Relocation.fixes_append.mp h
    rw [Stmt.relocateList, Stmt.relocate_eq_self s hs, Stmt.relocateList_eq_self ss hss]

end

theorem Program.relocate_eq_self {program : Program} (h : r.Fixes program.tokens) :
    program.relocate r = program :=
  congrArg Program.mk (Stmt.relocateList_eq_self program.statements h)

namespace Parser

open Token (Kind)

variable {s s' s'' : State} {sub : ExprRule}

/-! ## Tokens at hand -/

/-- The token was at hand on the way from `s` to `s'`, before the parse was given up. -/
def Visited (s s' : State) (t : Token) : Prop :=
  ∃ s₁, Steps s s₁ ∧ Steps s₁ s' ∧ s₁.abandoned = false ∧ s₁.pending.head? = some t

theorem Visited.mem_pending (h : Visited s s' t) : t ∈ s.pending := by
  obtain ⟨s₁, hsteps, -, -, hhead⟩ := h
  exact hsteps.pending_suffix.subset (List.mem_of_mem_head? hhead)

theorem Visited.later (h : Visited s s' t) (hsteps : Steps s' s'') : Visited s s'' t := by
  obtain ⟨s₁, hbefore, hbehind, hgoing, hhead⟩ := h
  exact ⟨s₁, hbefore, hbehind.trans hsteps, hgoing, hhead⟩

theorem Visited.earlier (h : Visited s' s'' t) (hsteps : Steps s s') : Visited s s'' t := by
  obtain ⟨s₁, hbefore, hbehind, hgoing, hhead⟩ := h
  exact ⟨s₁, hsteps.trans hbefore, hbehind, hgoing, hhead⟩

/-- The token at hand, if it is not the end mark. -/
theorem visited_current (hgoing : s.abandoned = false) (hkind : s.current.kind ≠ .eof)
    (hsteps : Steps s s') : Visited s s' s.current := by
  refine ⟨s, .refl, hsteps, hgoing, ?_⟩
  obtain ⟨_ | ⟨t, ts⟩, stop, abandoned, diagnostics, log⟩ := s
  · exact absurd rfl hkind
  · rfl

/-- All these tokens were at hand on the way. -/
def VisitedAll (s s' : State) (ts : List Token) : Prop :=
  ∀ t ∈ ts, Visited s s' t

namespace VisitedAll

theorem nil : VisitedAll s s' [] := fun _ ht ↦ absurd ht List.not_mem_nil

theorem cons (ht : Visited s s' t) (hts : VisitedAll s s' ts) : VisitedAll s s' (t :: ts) :=
  List.forall_mem_cons.mpr ⟨ht, hts⟩

theorem append (hts : VisitedAll s s' ts) (hus : VisitedAll s s' us) :
    VisitedAll s s' (ts ++ us) :=
  List.forall_mem_append.mpr ⟨hts, hus⟩

theorem later (h : VisitedAll s s' ts) (hsteps : Steps s' s'') : VisitedAll s s'' ts :=
  fun t ht ↦ (h t ht).later hsteps

theorem earlier (h : VisitedAll s' s'' ts) (hsteps : Steps s s') : VisitedAll s s'' ts :=
  fun t ht ↦ (h t ht).earlier hsteps

end VisitedAll

/-! ## Lists and statements -/

section Lists

variable {α : Type} {item : Rule (Option α)} {P : State → Prop} {tokens : α → List Token}

/-- What an item of a list needs: it moves by steps from states with a property that it keeps, and
it keeps only tokens that were at hand. -/
structure KeepsVisited (P : State → Prop) (tokens : α → List Token) (item : Rule (Option α)) :
    Prop where
  advance : ∀ s, P s → P s.advance
  moves : ∀ s, P s → Steps s (item s).2 ∧ P (item s).2
  visited : ∀ s, P s → VisitedAll s (item s).2 ((item s).1.toList.flatMap tokens)

theorem visitedAll_moreItems (hitem : KeepsVisited P tokens item) (bound : Nat) (s : State)
    (hs : P s) :
    VisitedAll s (moreItems item bound s).2 ((moreItems item bound s).1.flatMap tokens) := by
  induction bound generalizing s with
  | zero => exact .nil
  | succ bound ih =>
    rw [moreItems]
    split_ifs with hcomma
    · have hnext := hitem.advance _ (hitem.advance s hs)
      obtain ⟨-, hrest⟩ := hitem.moves _ hnext
      obtain ⟨hsteps, -⟩ := moves_moreItems hitem.advance hitem.moves bound _ hrest
      have hfirst := (hitem.visited _ hnext).later hsteps
      have hmore := (ih _ hrest).earlier (hitem.moves _ hnext).1
      rw [List.flatMap_append]
      exact (hfirst.append hmore).earlier ((Steps.advance s).trans (Steps.advance _))
    · exact .nil

theorem visitedAll_items (hitem : KeepsVisited P tokens item) (s : State) (hs : P s) :
    VisitedAll s (items item s).2 ((items item s).1.flatMap tokens) := by
  obtain ⟨hsteps, hrest⟩ := hitem.moves s hs
  have hmoves := moves_moreItems hitem.advance hitem.moves (item s).2.pending.length _ hrest
  have hmore := visitedAll_moreItems hitem (item s).2.pending.length _ hrest
  rw [items]
  dsimp only
  rw [List.flatMap_append]
  exact ((hitem.visited s hs).later hmoves.1).append (hmore.earlier hsteps)

end Lists

/-- A rule for expressions that moves by steps and keeps only tokens that were at hand. -/
structure Visits (sub : ExprRule) : Prop where
  moves : ∀ level, Moves (sub level)
  visited : ∀ level s, ∀ e ∈ (sub level s).1, VisitedAll s (sub level s).2 e.tokens

theorem Visits.keepsVisited (hsub : Visits sub) (level : Precedence) :
    KeepsVisited (fun _ ↦ True) (·.tokens) (sub level) where
  advance _ _ := trivial
  moves s _ := ⟨hsub.moves level s, trivial⟩
  visited s _ := by
    have hvisited := hsub.visited level s
    cases hrun : (sub level s).1 with
    | none => exact .nil
    | some e => simpa using hvisited e hrun

theorem Visits.visitedAll_statement (hsub : Visits sub) (hgoing : s.abandoned = false)
    (hkind : s.current.kind ≠ .eof) :
    ∀ x ∈ (statement sub s).1, VisitedAll s (statement sub s).2 x.tokens := by
  intro x hx
  have hmoves := moves_statement hsub.moves s
  rw [statement] at hx hmoves ⊢
  split_ifs at hx hmoves ⊢ with hcomment
  · obtain rfl := Option.some.inj hx
    exact .cons (visited_current hgoing hkind hmoves) .nil
  · obtain ⟨value, hvalue, rfl⟩ := Option.map_eq_some_iff.mp hx
    exact .cons (visited_current hgoing hkind hmoves)
      ((hsub.visited .lowest s value hvalue).later (Steps.skipPeriods _))

theorem Visits.visitedAll_statementsUntil (hsub : Visits sub) {ends : Kind → Bool}
    (hends : ends .eof = true) (bound : Nat) (s : State) :
    VisitedAll s (statementsUntil sub ends bound s).2
      (Stmt.tokensList (statementsUntil sub ends bound s).1) := by
  induction bound generalizing s with
  | zero => exact .nil
  | succ bound ih =>
    rw [statementsUntil]
    split_ifs with hend
    · exact .nil
    rw [Bool.or_eq_true, not_or, Bool.not_eq_true, Bool.not_eq_true] at hend
    have hkind : s.current.kind ≠ .eof := fun heof ↦ by
      rw [heof, hends] at hend
      exact absurd hend.2 (by decide)
    have hfirst := hsub.visitedAll_statement hend.1 hkind
    have hsteps := moves_statement hsub.moves s
    have hadvance := Steps.advance (statement sub s).2
    have hmore := moves_statementsUntil hsub.moves ends bound (statement sub s).2.advance
    have hrest := (ih (statement sub s).2.advance).earlier (hsteps.trans hadvance)
    dsimp only
    rw [Stmt.tokensList_eq_flatMap] at hrest ⊢
    rw [List.flatMap_append]
    refine .append ?_ hrest
    cases hrun : (statement sub s).1 with
    | none => exact .nil
    | some x => simpa using (hfirst x hrun).later (hadvance.trans hmore)

theorem Visits.visitedAll_body (hsub : Visits sub) (s : State) :
    VisitedAll s (body sub s).2 (Stmt.tokensList (body sub s).1) := by
  have hends : endsBody .eof = true := rfl
  have hread := (hsub.visitedAll_statementsUntil hends s.advance.pending.length s.advance).earlier
    (Steps.advance s)
  simp only [body]
  split_ifs with hopen
  · exact hread.later (.single (.report (by simpa using hopen.2) (.unclosedBody hopen.1)))
  · exact hread

theorem Visits.visitedAll_expressionList (hsub : Visits sub) (close : Kind) (s : State) :
    VisitedAll s (expressionList sub close s).2
      (Expr.tokensList (expressionList sub close s).1) := by
  have hitems := (visitedAll_items (hsub.keepsVisited .lowest) s.advance trivial).earlier
    (Steps.advance s)
  have hexpect := hitems.later (Steps.expect _ close)
  simp only [expressionList, Expr.tokensList_eq_flatMap]
  split_ifs with hempty hclosed
  · exact .nil
  · exact hexpect
  · exact hexpect.later (.single (.log _ close))

/-! ## Expressions that a token begins -/

theorem keepsVisited_parameter :
    KeepsVisited (·.abandoned = false) (fun name : Identifier ↦ [name.token]) parameter where
  advance _ hs := hs
  moves := moves_parameter
  visited s hs := by
    rw [parameter]
    split_ifs with hident
    · exact .cons (visited_current hs (by rw [hident]; decide) .refl) .nil
    · exact .nil

theorem visitedAll_parameters (hgoing : s.abandoned = false) :
    ∀ names ∈ (parameters s).1, VisitedAll s (parameters s).2 (names.map (·.token)) := by
  intro names hnames
  have hitems := ((visitedAll_items keepsVisited_parameter s.advance hgoing).earlier
    (Steps.advance s)).later (Steps.expect _ .rparen)
  rw [← List.map_eq_flatMap] at hitems
  simp only [parameters] at hnames ⊢
  split_ifs at hnames ⊢ with hempty hclosed
  · obtain rfl := Option.some.inj hnames
    exact .nil
  · obtain rfl := Option.some.inj hnames
    exact hitems
  · exact absurd hnames (Option.not_mem_none _)

theorem Visits.visitedAll_functionRule (hsub : Visits sub) (hgoing : s.abandoned = false)
    (hkind : s.current.kind = .function) :
    ∀ e ∈ (functionRule sub s).1, VisitedAll s (functionRule sub s).2 e.tokens := by
  intro e he
  have hmoves := moves_functionRule hsub.moves s hgoing
  simp only [functionRule] at he hmoves ⊢
  split_ifs at he hmoves ⊢ with hfail
  · exact absurd he (Option.not_mem_none e)
  obtain ⟨-, hopened, -⟩ := State.abandoned_expect_of_opened (s := s) (by simpa using hfail)
  rw [hopened] at he hmoves ⊢
  have hnames := visitedAll_parameters (s := s.advance) hgoing
  have hsteps := moves_parameters s.advance hgoing
  rcases hparameters : parameters s.advance with ⟨_ | names, s₁⟩
  · simp only [hparameters] at he
    exact absurd he (Option.not_mem_none e)
  simp only [hparameters] at he hmoves hnames hsteps ⊢
  split_ifs at he hmoves ⊢ with hfail'
  · exact absurd he (Option.not_mem_none e)
  obtain ⟨hgoing', hbraced, hbrace⟩ :=
    State.abandoned_expect_of_opened (s := s₁) (by simpa using hfail')
  rw [hbraced] at he hmoves ⊢
  obtain rfl := Option.some.inj he
  -- the keyword, the parameters, the brace and the body are at hand one after the other
  have hbody := moves_body hsub.moves s₁.advance
  have hbefore : Steps s s₁.advance :=
    (Steps.advance s).trans (hsteps.trans (Steps.advance s₁))
  refine .cons (visited_current hgoing (by rw [hkind]; decide) hmoves) (.append ?_ (.cons ?_ ?_))
  · exact ((hnames names rfl).later ((Steps.advance s₁).trans hbody)).earlier (Steps.advance s)
  · exact (visited_current (s := s₁.advance) hgoing'
      (by rw [State.current_advance, hbrace]; decide) hbody).earlier hbefore
  · exact (hsub.visitedAll_body s₁.advance).earlier hbefore

theorem visitedAll_literal {α : Type} {target : String} {value : Option α}
    {leaf : Token → α → Expr} (hgoing : s.abandoned = false) (hkind : s.current.kind ≠ .eof)
    (hleaf : ∀ t v, (leaf t v).tokens = [t]) :
    ∀ e ∈ (literal target value leaf s).1,
      VisitedAll s (literal target value leaf s).2 e.tokens := by
  intro e he
  cases value with
  | none => exact absurd he (Option.not_mem_none e)
  | some v =>
    obtain rfl := Option.some.inj he
    rw [hleaf]
    exact .cons (visited_current hgoing hkind .refl) .nil

theorem Visits.visitedAll_unaryRule (hsub : Visits sub) (hgoing : s.abandoned = false)
    (hkind : s.current.kind ≠ .eof) :
    ∀ e ∈ (unaryRule sub s).1, VisitedAll s (unaryRule sub s).2 e.tokens := by
  intro e he
  rw [unaryRule] at he ⊢
  split at he
  · exact absurd he (Option.not_mem_none e)
  · obtain ⟨right, hright, rfl⟩ := Option.map_eq_some_iff.mp he
    have hadvance := Steps.advance s
    exact .cons (visited_current hgoing hkind (hadvance.trans (hsub.moves .unary _)))
      ((hsub.visited .unary _ right hright).earlier hadvance)

theorem Visits.visitedAll_primary (hsub : Visits sub) (hgoing : s.abandoned = false) :
    ∀ e ∈ (primary sub s).1, VisitedAll s (primary sub s).2 e.tokens := by
  have hcurrent : ∀ kind, s.current.kind = kind → kind ≠ .eof → s.current.kind ≠ .eof :=
    fun _ hkind hne ↦ hkind ▸ hne
  rw [primary]
  split
  case h_1 hkind =>
    intro e he
    obtain rfl := Option.some.inj he
    exact .cons (visited_current hgoing (hcurrent _ hkind (by decide)) .refl) .nil
  case h_2 hkind => exact visitedAll_literal hgoing (hcurrent _ hkind (by decide)) fun _ _ ↦ rfl
  case h_3 hkind => exact visitedAll_literal hgoing (hcurrent _ hkind (by decide)) fun _ _ ↦ rfl
  case h_4 hkind =>
    intro e he
    obtain rfl := Option.some.inj he
    exact .cons (visited_current hgoing (hcurrent _ hkind (by decide)) .refl) .nil
  case h_5 hkind => exact visitedAll_literal hgoing (hcurrent _ hkind (by decide)) fun _ _ ↦ rfl
  case h_6 hkind => exact visitedAll_literal hgoing (hcurrent _ hkind (by decide)) fun _ _ ↦ rfl
  case h_7 hkind => exact hsub.visitedAll_unaryRule hgoing (hcurrent _ hkind (by decide))
  case h_8 hkind => exact hsub.visitedAll_unaryRule hgoing (hcurrent _ hkind (by decide))
  case h_9 =>
    exact fun e he ↦ ((hsub.visited .lowest s.advance e he).earlier (Steps.advance s)).later
      (Steps.expect _ .rparen)
  case h_10 hkind => exact hsub.visitedAll_functionRule hgoing hkind
  case h_11 hkind =>
    intro e he
    obtain rfl := Option.some.inj he
    exact .cons (visited_current hgoing (hcurrent _ hkind (by decide))
      (moves_expressionList hsub.moves .rbracket s)) (hsub.visitedAll_expressionList .rbracket s)
  case h_12 => exact fun e he ↦ absurd he (Option.not_mem_none e)

/-! ## Expressions that a token continues -/

theorem Visits.visitedAll_continuation (hsub : Visits sub) {s₀ : State} (hsteps : Steps s₀ s)
    (hgoing : s.abandoned = false) {left : Expr} (hleft : VisitedAll s₀ s left.tokens)
    {rule : Rule (Option Expr)} (hrule : continuation? sub left s.current.kind = some rule) :
    ∀ e ∈ (rule s).1, VisitedAll s₀ (rule s).2 e.tokens := by
  intro e he
  have hkind : s.current.kind ≠ .eof := by
    intro heof
    rw [heof] at hrule
    cases hrule
  have hmoves := moves_continuation hsub.moves hrule s
  have hcurrent := (visited_current hgoing hkind hmoves).earlier hsteps
  have hleft' := hleft.later hmoves
  unfold continuation? at hrule
  split at hrule
  · obtain rfl := Option.some.inj hrule
    obtain rfl := Option.some.inj he
    exact hleft'.append (.cons hcurrent
      ((hsub.visitedAll_expressionList .rparen s).earlier hsteps))
  · obtain rfl := Option.some.inj hrule
    obtain ⟨position, hposition, rfl⟩ := Option.map_eq_some_iff.mp he
    exact hleft'.append (.cons hcurrent (((hsub.visited .lowest _ position hposition).earlier
      (hsteps.trans (Steps.advance s))).later (Steps.expect _ .rbracket)))
  · obtain ⟨operator, -, rfl⟩ := Option.map_eq_some_iff.mp hrule
    obtain ⟨right, hright, rfl⟩ := Option.map_eq_some_iff.mp he
    exact hleft'.append (.cons hcurrent ((hsub.visited _ _ right hright).earlier
      (hsteps.trans (Steps.advance s))))

/-- The recursion of the rules is closed here: both of its branches descend in `room`. -/
theorem visits_expression_and_chain (room : Nat) :
    Visits (expression room) ∧ ∀ s₀ level left s, Steps s₀ s → VisitedAll s₀ s left.tokens →
      ∀ e ∈ (chain room level left s).1, VisitedAll s₀ (chain room level left s).2 e.tokens := by
  induction room with
  | zero =>
    refine ⟨⟨moves_expression 0, fun level s e he ↦ absurd he (Option.not_mem_none e)⟩, ?_⟩
    intro s₀ level left s _ hleft e he
    obtain rfl := Option.some.inj he
    exact hleft.later (moves_chain 0 level left s)
  | succ room ih =>
    obtain ⟨hexpression, hchain⟩ := ih
    refine ⟨⟨moves_expression (room + 1), fun level s ↦ ?_⟩, fun s₀ level left s hsteps hleft ↦ ?_⟩
    · rw [expression]
      split_ifs with hgoing
      · exact fun e he ↦ absurd he (Option.not_mem_none e)
      have hprimary := hexpression.visitedAll_primary (Bool.not_eq_true _ ▸ hgoing)
      have hmoves := moves_primary hexpression.moves s (Bool.not_eq_true _ ▸ hgoing)
      split
      · exact fun e he ↦ absurd he (Option.not_mem_none e)
      · next left s' heq =>
        rw [heq] at hprimary hmoves
        exact hchain s level left s' hmoves (hprimary left rfl)
    · have hstay : ∀ s', Steps s s' → ∀ e ∈ some left, VisitedAll s₀ s' e.tokens :=
        fun s' hsteps' e he ↦ Option.some.inj he ▸ hleft.later hsteps'
      rw [chain]
      split_ifs with hstop
      · exact hstay s .refl
      split
      · exact hstay _ (Steps.advance s)
      next rule hrule =>
      rw [Bool.or_eq_true, not_or, Bool.not_eq_true] at hstop
      have hgoing : s.advance.abandoned = false := Bool.not_eq_true _ ▸ hstop.2
      have hnext := hsteps.trans (Steps.advance s)
      have hround := hexpression.visitedAll_continuation hnext hgoing
        (hleft.later (Steps.advance s)) hrule
      have hmoves := moves_continuation hexpression.moves hrule s.advance
      split
      · exact fun e he ↦ absurd he (Option.not_mem_none e)
      · next left' s' heq =>
        rw [heq] at hround hmoves
        exact hchain s₀ level left' s' (hnext.trans hmoves) (hround left' rfl)

theorem visits_expression (room : Nat) : Visits (expression room) :=
  (visits_expression_and_chain room).1

/-- Every token that a script keeps was at hand before the parse was given up. -/
theorem visited_program (s : State) : VisitedAll s (program s).2 (program s).1.tokens :=
  (visits_expression nestingLimit).visitedAll_statementsUntil rfl s.pending.length s

/-- A script stays in place if the tokens ahead do, wherever the end mark goes. -/
theorem relocate_program_eq_self (s : State) (h : r.Fixes s.pending) :
    (program s).1.relocate r = (program s).1 :=
  Program.relocate_eq_self fun t ht ↦ h t (visited_program s t ht).mem_pending

end Parser

end DrawScript
