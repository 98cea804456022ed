import DrawScript.Proofs.Extraction.Unplaced
import Mathlib.Tactic.SplitIfs

/-!
# The nodes that extraction comes to

Extraction starts at the expressions of the statements and goes on to the elements of arrays and to
the elements of the arrays among the arguments of a container call. What it comes to that way is
*reached* (`Reached`). Nothing else is: not the arguments of other calls, not the operands of
operators, not the bodies of functions.

Two nodes of a script can be equal, so a node is identified by its address, the way to it from the
top. `Program.reached` lists the reached nodes with their addresses in the order of the walk, which
is the lexicographic order of addresses: a node before what is below it, and what is on the left
before what is on the right. Membership (`mem_reached_iff`) and order (`pairwise_reached`) determine
the list.

The walk is a mutual recursion over expressions, arrays and arguments. Its theory is not: `children`
says which nodes come next behind a node, `Expr.reached_eq` unfolds the walk by them, and everything
is shown by the one induction `Expr.walk_induction`.
-/

namespace DrawScript

/-! ## Addresses -/

/-- The way to a node: the number of a statement, and then numbers of arguments and elements. -/
abbrev Address := List Nat

/-- The ways part, and the first one goes to the left. -/
def LeftOf (a b : Address) : Prop :=
  ∃ w i j x y, a = w ++ i :: x ∧ b = w ++ j :: y ∧ i < j

namespace LeftOf

variable {a b : Address}

theorem of_lt {i j : Nat} (h : i < j) (x y : Address) : LeftOf (i :: x) (j :: y) :=
  ⟨[], i, j, x, y, rfl, rfl, h⟩

theorem append_left (h : LeftOf a b) (w : Address) : LeftOf (w ++ a) (w ++ b) := by
  obtain ⟨v, i, j, x, y, rfl, rfl, hlt⟩ := h
  exact ⟨w ++ v, i, j, x, y, (List.append_assoc ..).symm, (List.append_assoc ..).symm, hlt⟩

/-- Ways that have parted stay apart. -/
theorem of_isPrefix {a' b' : Address} (h : LeftOf a b) (ha : a <+: a') (hb : b <+: b') :
    LeftOf a' b' := by
  obtain ⟨w, i, j, x, y, rfl, rfl, hlt⟩ := h
  obtain ⟨x', rfl⟩ := ha
  obtain ⟨y', rfl⟩ := hb
  exact ⟨w, i, j, x ++ x', y ++ y', List.append_assoc .., List.append_assoc .., hlt⟩

theorem lt (h : LeftOf a b) : a < b := by
  obtain ⟨w, i, j, x, y, rfl, rfl, hlt⟩ := h
  exact List.append_left_lt (List.cons_lt_cons_iff.mpr (.inl hlt))

end LeftOf

theorem lt_of_isPrefix {a b : Address} (h : a <+: b) (hne : a ≠ b) : a < b := by
  obtain ⟨_ | ⟨i, x⟩, rfl⟩ := h
  · exact absurd (List.append_nil a).symm hne
  · have hlt : a ++ [] < a ++ i :: x := List.append_left_lt (List.nil_lt_cons i x)
    rwa [List.append_nil] at hlt

/-! ## Reached nodes -/

/-- The names of the calls whose arrays are looked into. -/
def containerNames : List String :=
  ["text", "minilines", "mini_line", "str_block"]

/-- Does the callee have one of these names? -/
def Expr.namesContainer (callee : Expr) : Bool :=
  callee.identifier?.any containerNames.contains

/-- Extraction comes to the expression, and this is the way to it. -/
inductive Reached (program : Program) : Address → Expr → Prop
  | statement {i : Nat} {token : Token} {value : Expr}
      (h : program.statements[i]? = some (.expression token value)) : Reached program [i] value
  | element {address : Address} {token : Token} {elements : List Expr} {i : Nat} {e : Expr}
      (array : Reached program address (.array token elements)) (h : elements[i]? = some e) :
      Reached program (address ++ [i]) e
  | argument {address : Address} {token bracket : Token} {callee : Expr}
      {arguments elements : List Expr} {i j : Nat} {e : Expr}
      (call : Reached program address (.call token callee arguments))
      (name : callee.namesContainer = true)
      (array : arguments[i]? = some (.array bracket elements)) (h : elements[j]? = some e) :
      Reached program (address ++ [i, j]) e

mutual

/-- The nodes that extraction comes to from an expression on, with their addresses. -/
def Expr.reached (address : Address) : Expr → List (Address × Expr)
  | .array token elements =>
    (address, .array token elements) :: Expr.reachedList address 0 elements
  | .call token callee arguments =>
    (address, .call token callee arguments) ::
      if callee.namesContainer then Expr.reachedArrays address 0 arguments else []
  | e => [(address, e)]

/-- The nodes that extraction comes to from the elements of an array on, the first of which has the
number `i`. -/
def Expr.reachedList (address : Address) (i : Nat) : List Expr → List (Address × Expr)
  | [] => []
  | e :: es => e.reached (address ++ [i]) ++ Expr.reachedList address (i + 1) es

/-- The nodes that extraction comes to from the arguments of a container call on, the first of which
has the number `i`. -/
def Expr.reachedArrays (address : Address) (i : Nat) : List Expr → List (Address × Expr)
  | [] => []
  | .array _ elements :: es =>
    Expr.reachedList (address ++ [i]) 0 elements ++ Expr.reachedArrays address (i + 1) es
  | _ :: es => Expr.reachedArrays address (i + 1) es

end

/-! ## Children -/

/-- The elements, if the expression is an array. -/
def Expr.elements? : Expr → Option (List Expr)
  | .array _ elements => some elements
  | _ => none

/-- Elements with their numbers as addresses. -/
def numbered (elements : List Expr) : List (Address × Expr) :=
  elements.zipIdx.map fun x ↦ ([x.2], x.1)

/-- The arrays among the arguments of a call, with their numbers, the first argument having the
number `i`. -/
def arraysFrom (i : Nat) (arguments : List Expr) : List (Nat × List Expr) :=
  (arguments.zipIdx i).filterMap fun x ↦ x.1.elements?.map fun elements ↦ (x.2, elements)

/-- The nodes that come next behind an expression, and the ways to them. -/
def Expr.children : Expr → List (Address × Expr)
  | .array _ elements => numbered elements
  | .call _ callee arguments =>
    if callee.namesContainer then
      (arraysFrom 0 arguments).flatMap fun a ↦ (numbered a.2).map fun c ↦ (a.1 :: c.1, c.2)
    else []
  | _ => []

/-- The expressions of the statements, and the ways to them. -/
def Program.children (program : Program) : List (Address × Expr) :=
  program.statements.zipIdx.filterMap fun x ↦ x.1.expression?.map fun value ↦ ([x.2], value)

/-- The nodes that extraction comes to, with their addresses, in the order of the walk. -/
def Program.reached (program : Program) : List (Address × Expr) :=
  program.children.flatMap fun c ↦ c.2.reached c.1

theorem mem_numbered {elements : List Expr} {c : Address × Expr} :
    c ∈ numbered elements ↔ ∃ i, c.1 = [i] ∧ elements[i]? = some c.2 := by
  rw [numbered, List.mem_map]
  constructor
  · rintro ⟨⟨e, i⟩, hmem, rfl⟩
    exact ⟨i, rfl, List.mem_zipIdx_iff_getElem?.mp hmem⟩
  · rintro ⟨i, haddress, helement⟩
    exact ⟨(c.2, i), List.mem_zipIdx_iff_getElem?.mpr helement, Prod.ext haddress.symm rfl⟩

theorem mem_arraysFrom {arguments : List Expr} {a : Nat × List Expr} :
    a ∈ arraysFrom 0 arguments ↔ ∃ bracket, arguments[a.1]? = some (.array bracket a.2) := by
  rw [arraysFrom, List.mem_filterMap]
  constructor
  · rintro ⟨⟨e, i⟩, hmem, harray⟩
    rw [List.mem_zipIdx_iff_getElem?] at hmem
    cases e with
    | array bracket elements =>
      obtain rfl := Option.some.inj harray
      exact ⟨bracket, hmem⟩
    | _ => cases harray
  · rintro ⟨bracket, hmem⟩
    exact ⟨(.array bracket a.2, a.1), List.mem_zipIdx_iff_getElem?.mpr hmem, rfl⟩

theorem mem_children_call {token : Token} {callee : Expr} {arguments : List Expr}
    {c : Address × Expr} :
    c ∈ (Expr.call token callee arguments).children ↔ callee.namesContainer = true ∧
      ∃ i j bracket elements, c.1 = [i, j] ∧ arguments[i]? = some (.array bracket elements) ∧
        elements[j]? = some c.2 := by
  rw [Expr.children]
  cases callee.namesContainer with
  | false => simp
  | true =>
    rw [if_pos rfl, List.mem_flatMap]
    constructor
    · rintro ⟨⟨i, elements⟩, harray, hmem⟩
      obtain ⟨bracket, harray⟩ := mem_arraysFrom.mp harray
      obtain ⟨⟨address, e⟩, helement, rfl⟩ := List.mem_map.mp hmem
      obtain ⟨j, rfl, helement⟩ := mem_numbered.mp helement
      exact ⟨rfl, i, j, bracket, elements, rfl, harray, helement⟩
    · rintro ⟨-, i, j, bracket, elements, haddress, harray, helement⟩
      refine ⟨(i, elements), mem_arraysFrom.mpr ⟨bracket, harray⟩, List.mem_map.mpr
        ⟨([j], c.2), mem_numbered.mpr ⟨j, rfl, helement⟩, Prod.ext haddress.symm rfl⟩⟩

theorem Program.mem_children {program : Program} {c : Address × Expr} :
    c ∈ program.children ↔
      ∃ i token, c.1 = [i] ∧ program.statements[i]? = some (.expression token c.2) := by
  rw [Program.children, List.mem_filterMap]
  constructor
  · rintro ⟨⟨s, i⟩, hmem, hvalue⟩
    rw [List.mem_zipIdx_iff_getElem?] at hmem
    cases s with
    | comment token => cases hvalue
    | expression token value =>
      obtain rfl := Option.some.inj hvalue
      exact ⟨i, token, rfl, hmem⟩
  · rintro ⟨i, token, haddress, hmem⟩
    exact ⟨(.expression token c.2, i), List.mem_zipIdx_iff_getElem?.mpr hmem,
      congrArg some (Prod.ext haddress.symm rfl)⟩

/-- A child is smaller than its parent. -/
theorem Expr.sizeOf_lt_of_mem_children {e : Expr} {c : Address × Expr} (h : c ∈ e.children) :
    sizeOf c.2 < sizeOf e := by
  cases e with
  | array token elements =>
    obtain ⟨i, -, helement⟩ := mem_numbered.mp h
    have hlt := List.sizeOf_lt_of_mem (List.mem_of_getElem? helement)
    rw [Expr.array.sizeOf_spec]
    omega
  | call token callee arguments =>
    obtain ⟨-, i, j, bracket, elements, -, harray, helement⟩ := mem_children_call.mp h
    have hlt := List.sizeOf_lt_of_mem (List.mem_of_getElem? harray)
    have hlt' := List.sizeOf_lt_of_mem (List.mem_of_getElem? helement)
    rw [Expr.array.sizeOf_spec] at hlt
    rw [Expr.call.sizeOf_spec]
    omega
  | _ => exact absurd h List.not_mem_nil

/-- The induction of the walk: from the children of a node to the node. -/
theorem Expr.walk_induction {motive : Expr → Prop}
    (node : ∀ e : Expr, (∀ c ∈ e.children, motive c.2) → motive e) (e : Expr) : motive e :=
  node e fun c hc ↦
    have := Expr.sizeOf_lt_of_mem_children hc
    Expr.walk_induction node c.2
termination_by sizeOf e

/-! ## The walk -/

theorem Expr.reachedList_eq (address : Address) (i : Nat) (es : List Expr) :
    Expr.reachedList address i es
      = (es.zipIdx i).flatMap fun x ↦ x.1.reached (address ++ [x.2]) := by
  induction es generalizing i with
  | nil => rfl
  | cons e es ih => rw [Expr.reachedList, ih, List.zipIdx_cons, List.flatMap_cons]

theorem Expr.reachedList_eq_numbered (address : Address) (es : List Expr) :
    Expr.reachedList address 0 es
      = (numbered es).flatMap fun c ↦ c.2.reached (address ++ c.1) := by
  rw [Expr.reachedList_eq, numbered, List.flatMap_map]

theorem Expr.reachedArrays_eq (address : Address) (i : Nat) (es : List Expr) :
    Expr.reachedArrays address i es
      = (arraysFrom i es).flatMap fun a ↦ Expr.reachedList (address ++ [a.1]) 0 a.2 := by
  induction es generalizing i with
  | nil => rfl
  | cons e es ih =>
    cases e with
    | array token elements =>
      rw [Expr.reachedArrays, ih]
      rfl
    | _ => exact ih (i + 1)

/-- The walk comes to a node and then to what is below its children. -/
theorem Expr.reached_eq (address : Address) (e : Expr) :
    e.reached address
      = (address, e) :: e.children.flatMap fun c ↦ c.2.reached (address ++ c.1) := by
  cases e with
  | array token elements => rw [Expr.reached, Expr.reachedList_eq_numbered, Expr.children]
  | call token callee arguments =>
    rw [Expr.reached, Expr.children]
    split_ifs with hname
    · rw [Expr.reachedArrays_eq, List.flatMap_assoc]
      simp only [Expr.reachedList_eq_numbered, List.flatMap_map, List.append_assoc,
        List.singleton_append]
    · rfl
  | _ => rfl

theorem Expr.mem_reached_self (address : Address) (e : Expr) :
    (address, e) ∈ e.reached address := by
  rw [Expr.reached_eq]
  exact List.mem_cons_self

theorem Expr.mem_reached_of_mem_children {address : Address} {e : Expr} {c n : Address × Expr}
    (hc : c ∈ e.children) (hn : n ∈ c.2.reached (address ++ c.1)) : n ∈ e.reached address := by
  rw [Expr.reached_eq]
  exact List.mem_cons_of_mem _ (List.mem_flatMap.mpr ⟨c, hc, hn⟩)

/-! ### Membership -/

theorem Reached.of_mem_children {program : Program} {address : Address} {e : Expr}
    {c : Address × Expr} (h : Reached program address e) (hc : c ∈ e.children) :
    Reached program (address ++ c.1) c.2 := by
  cases e with
  | array token elements =>
    obtain ⟨i, haddress, helement⟩ := mem_numbered.mp hc
    rw [haddress]
    exact .element h helement
  | call token callee arguments =>
    obtain ⟨hname, i, j, bracket, elements, haddress, harray, helement⟩ :=
      mem_children_call.mp hc
    rw [haddress]
    exact .argument h hname harray helement
  | _ => exact absurd hc List.not_mem_nil

theorem Reached.of_mem_reached {program : Program} {address : Address} {e : Expr}
    (h : Reached program address e) : ∀ n ∈ e.reached address, Reached program n.1 n.2 := by
  induction e using Expr.walk_induction generalizing address with
  | node e ih =>
    rw [Expr.reached_eq, List.forall_mem_cons]
    refine ⟨h, fun n hn ↦ ?_⟩
    obtain ⟨c, hc, hn⟩ := List.mem_flatMap.mp hn
    exact ih c hc (h.of_mem_children hc) n hn

/-- What is reached from a reached node is reached. -/
theorem Expr.reached_subset {address : Address} {e : Expr} :
    ∀ n ∈ e.reached address, n.2.reached n.1 ⊆ e.reached address := by
  induction e using Expr.walk_induction generalizing address with
  | node e ih =>
    intro n hn
    have hcases := hn
    rw [Expr.reached_eq, List.mem_cons, List.mem_flatMap] at hcases
    rcases hcases with rfl | ⟨c, hc, hbelow⟩
    · exact List.Subset.refl _
    · exact fun m hm ↦ Expr.mem_reached_of_mem_children hc (ih c hc n hbelow hm)

theorem Program.mem_reached_of_mem_children {program : Program} {n c : Address × Expr}
    (hn : n ∈ program.reached) (hc : c ∈ n.2.children) :
    (n.1 ++ c.1, c.2) ∈ program.reached := by
  obtain ⟨top, htop, hn⟩ := List.mem_flatMap.mp hn
  refine List.mem_flatMap.mpr ⟨top, htop, Expr.reached_subset n hn ?_⟩
  exact Expr.mem_reached_of_mem_children hc (Expr.mem_reached_self _ _)

theorem Program.mem_reached_iff {program : Program} {address : Address} {e : Expr} :
    (address, e) ∈ program.reached ↔ Reached program address e := by
  constructor
  · intro h
    obtain ⟨c, hc, h⟩ := List.mem_flatMap.mp h
    obtain ⟨i, token, haddress, hstatement⟩ := Program.mem_children.mp hc
    rw [haddress] at h
    exact (Reached.statement hstatement).of_mem_reached _ h
  · intro h
    induction h with
    | @statement i token value h =>
      exact List.mem_flatMap.mpr ⟨([i], value), Program.mem_children.mpr ⟨i, token, rfl, h⟩,
        Expr.mem_reached_self _ _⟩
    | @element _ _ _ i e _ h ih =>
      exact Program.mem_reached_of_mem_children ih (c := ([i], e)) (mem_numbered.mpr ⟨i, rfl, h⟩)
    | @argument _ _ _ _ _ _ i j e _ name array h ih =>
      exact Program.mem_reached_of_mem_children ih (c := ([i, j], e))
        (mem_children_call.mpr ⟨name, i, j, _, _, rfl, array, h⟩)

/-! ### Order -/

theorem pairwise_zipIdx {α : Type} (xs : List α) (i : Nat) :
    (xs.zipIdx i).Pairwise fun x y ↦ x.2 < y.2 := by
  have hnumbers : ((xs.zipIdx i).map Prod.snd).Pairwise (· < ·) := by
    rw [List.zipIdx_map_snd]
    exact List.pairwise_lt_range' 1
  exact List.pairwise_map.mp hnumbers

theorem pairwise_numbered (elements : List Expr) :
    (numbered elements).Pairwise fun c d ↦ LeftOf c.1 d.1 :=
  List.pairwise_map.mpr ((pairwise_zipIdx elements 0).imp fun hlt ↦ .of_lt hlt [] [])

theorem pairwise_arraysFrom (i : Nat) (arguments : List Expr) :
    (arraysFrom i arguments).Pairwise fun a b ↦ a.1 < b.1 := by
  refine (pairwise_zipIdx arguments i).filterMap _ fun x y hlt a ha b hb ↦ ?_
  obtain ⟨-, -, rfl⟩ := Option.map_eq_some_iff.mp ha
  obtain ⟨-, -, rfl⟩ := Option.map_eq_some_iff.mp hb
  exact hlt

theorem Expr.pairwise_children (e : Expr) : e.children.Pairwise fun c d ↦ LeftOf c.1 d.1 := by
  cases e with
  | array token elements => exact pairwise_numbered elements
  | call token callee arguments =>
    rw [Expr.children]
    split_ifs with hname
    · refine List.pairwise_flatMap.mpr ⟨fun a _ ↦ ?_, ?_⟩
      · exact List.pairwise_map.mpr
          ((pairwise_numbered a.2).imp fun hleft ↦ hleft.append_left [a.1])
      · refine (pairwise_arraysFrom 0 arguments).imp fun hlt c hc d hd ↦ ?_
        obtain ⟨c, -, rfl⟩ := List.mem_map.mp hc
        obtain ⟨d, -, rfl⟩ := List.mem_map.mp hd
        exact .of_lt hlt c.1 d.1
    · exact .nil
  | _ => exact .nil

theorem Program.pairwise_children (program : Program) :
    program.children.Pairwise fun c d ↦ LeftOf c.1 d.1 := by
  refine (pairwise_zipIdx program.statements 0).filterMap _ fun x y hlt c hc d hd ↦ ?_
  obtain ⟨-, -, rfl⟩ := Option.map_eq_some_iff.mp hc
  obtain ⟨-, -, rfl⟩ := Option.map_eq_some_iff.mp hd
  exact .of_lt hlt [] []

theorem Expr.ne_nil_of_mem_children {e : Expr} {c : Address × Expr} (h : c ∈ e.children) :
    c.1 ≠ [] := by
  cases e with
  | array token elements =>
    obtain ⟨i, haddress, -⟩ := mem_numbered.mp h
    exact haddress ▸ List.cons_ne_nil i []
  | call token callee arguments =>
    obtain ⟨-, i, j, -, -, haddress, -⟩ := mem_children_call.mp h
    exact haddress ▸ List.cons_ne_nil i [j]
  | _ => exact absurd h List.not_mem_nil

/-- What is reached from a node is below it. -/
theorem Expr.isPrefix_of_mem_reached {address : Address} {e : Expr} :
    ∀ n ∈ e.reached address, address <+: n.1 := by
  induction e using Expr.walk_induction generalizing address with
  | node e ih =>
    rw [Expr.reached_eq, List.forall_mem_cons]
    refine ⟨List.prefix_refl _, fun n hn ↦ ?_⟩
    obtain ⟨c, hc, hn⟩ := List.mem_flatMap.mp hn
    exact (List.prefix_append _ _).trans (ih c hc n hn)

/-- What is reached from the children of a node has another address than the node. -/
theorem Expr.ne_of_mem_flatMap_reached {address : Address} {e : Expr} {n : Address × Expr}
    (h : n ∈ e.children.flatMap fun c ↦ c.2.reached (address ++ c.1)) :
    address <+: n.1 ∧ address ≠ n.1 := by
  obtain ⟨c, hc, hn⟩ := List.mem_flatMap.mp h
  have hbelow := Expr.isPrefix_of_mem_reached n hn
  refine ⟨(List.prefix_append _ _).trans hbelow, fun heq ↦ Expr.ne_nil_of_mem_children hc ?_⟩
  rw [← heq] at hbelow
  exact List.append_right_eq_self.mp (hbelow.eq_of_length_le (by simp))

/-- What is reached from one child is left of what is reached from a later one. -/
theorem Expr.pairwise_below (address : Address) (e : Expr) :
    e.children.Pairwise fun c d ↦ ∀ m ∈ c.2.reached (address ++ c.1),
      ∀ n ∈ d.2.reached (address ++ d.1), LeftOf m.1 n.1 :=
  e.pairwise_children.imp fun hleft m hm n hn ↦
    (hleft.append_left address).of_isPrefix (Expr.isPrefix_of_mem_reached m hm)
      (Expr.isPrefix_of_mem_reached n hn)

theorem Program.pairwise_below (program : Program) :
    program.children.Pairwise fun c d ↦ ∀ m ∈ c.2.reached c.1, ∀ n ∈ d.2.reached d.1,
      LeftOf m.1 n.1 :=
  program.pairwise_children.imp fun hleft m hm n hn ↦
    hleft.of_isPrefix (Expr.isPrefix_of_mem_reached m hm) (Expr.isPrefix_of_mem_reached n hn)

theorem Expr.pairwise_reached (address : Address) (e : Expr) :
    (e.reached address).Pairwise fun m n ↦ m.1 < n.1 := by
  induction e using Expr.walk_induction generalizing address with
  | node e ih =>
    rw [Expr.reached_eq, List.pairwise_cons, List.pairwise_flatMap]
    refine ⟨fun n hn ↦ ?_, fun c hc ↦ ih c hc _, ?_⟩
    · obtain ⟨hbelow, hne⟩ := Expr.ne_of_mem_flatMap_reached hn
      exact lt_of_isPrefix hbelow hne
    · exact (e.pairwise_below address).imp fun h m hm n hn ↦ (h m hm n hn).lt

/-- Reached nodes are listed from left to right, each before what is below it. -/
theorem Program.pairwise_reached (program : Program) :
    program.reached.Pairwise fun m n ↦ m.1 < n.1 :=
  List.pairwise_flatMap.mpr ⟨fun c _ ↦ Expr.pairwise_reached c.1 c.2,
    program.pairwise_below.imp fun h m hm n hn ↦ (h m hm n hn).lt⟩

end DrawScript
