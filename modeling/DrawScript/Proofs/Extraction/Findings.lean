import DrawScript.Proofs.Extraction.Reached
import Mathlib.Data.List.Basic

/-!
# What extraction finds

What extraction tells besides the strings is read off the reached nodes one by one. A node that has
no place where text is looked for is an anomaly, and so is a segment without arguments; a call to
something outside the vocabulary is passed over with a remark. Neither depends on the separator or
on what stands around the node, so the anomalies and the log are the reached nodes in the order of
the walk, each looked at by itself.

The harvest of a node is made of the harvests of its children (`Expr.findings_harvest_eq`), and that
is how the walk unfolds, so the theorems follow by the induction of the walk.
-/

namespace DrawScript

/-! ## Names of forms -/

/-- The name of the calls that have the form. -/
def CallForm.name : CallForm → String
  | paragraph => "text"
  | lines => "minilines"
  | line => "mini_line"
  | block => "str_block"
  | segment => "str_seg"

theorem CallForm.ofName?_eq_some_iff {name : String} {form : CallForm} :
    CallForm.ofName? name = some form ↔ name = form.name := by
  constructor
  · intro h
    unfold CallForm.ofName? at h
    split_ifs at h <;> obtain rfl := Option.some.inj h <;> assumption
  · rintro rfl
    cases form <;> rfl

/-- The form of the calls to an expression. -/
def Expr.form? (callee : Expr) : Option CallForm :=
  callee.identifier?.bind CallForm.ofName?

theorem Expr.form?_eq_some_iff {callee : Expr} {form : CallForm} :
    callee.form? = some form ↔ callee.identifier? = some form.name := by
  rw [Expr.form?, Option.bind_eq_some_iff]
  constructor
  · rintro ⟨name, hcallee, hform⟩
    rw [hcallee, CallForm.ofName?_eq_some_iff.mp hform]
  · exact fun h ↦ ⟨form.name, h, CallForm.ofName?_eq_some_iff.mpr rfl⟩

theorem Expr.identifier?_of_form? {callee : Expr} {form : CallForm}
    (h : callee.form? = some form) : callee.identifier? = some form.name :=
  Expr.form?_eq_some_iff.mp h

theorem Expr.namesContainer_of_form? {callee : Expr} {form : CallForm}
    (h : callee.form? = some form) : callee.namesContainer = decide (form ≠ .segment) := by
  rw [Expr.namesContainer, Expr.identifier?_of_form? h]
  cases form <;> rfl

theorem Expr.namesContainer_of_ne_segment {callee : Expr} {form : CallForm}
    (h : callee.form? = some form) (hne : form ≠ .segment) : callee.namesContainer = true :=
  (Expr.namesContainer_of_form? h).trans (decide_eq_true hne)

/-! ## Nodes by themselves -/

/-- A call to the name of segments that has no arguments. -/
def Expr.isBareSegment : Expr → Bool
  | .call _ callee [] => callee.identifier? == some "str_seg"
  | _ => false

/-- The anomaly that a node is, if it is one. -/
def Expr.anomaly? (e : Expr) : Option Anomaly :=
  if e.nodeType ∈ foreignTypes ∨ e.isBareSegment then some ⟨e.nodeType, e.render⟩ else none

/-- What is called, if the node is a call to something outside the vocabulary. -/
def Expr.unknownCallee? : Expr → Option Expr
  | .call _ callee _ =>
    if callee.namesContainer || callee.identifier? == some "str_seg" then none else some callee
  | _ => none

/-- What the log says of a node. Anomalies are logged only if they are to be reported. -/
def Expr.remark? (report : Bool) (e : Expr) : Option LogRecord :=
  match e.anomaly? with
  | some a => if report then some ⟨.warn, a.message⟩ else none
  | none => e.unknownCallee?.map fun callee ↦ ⟨.debug, "skipping call to " ++ callee.render⟩

/-- What extraction finds at a node. -/
def Expr.finding? (e : Expr) : Option Finding :=
  match e.anomaly? with
  | some a => some (.anomaly a)
  | none => e.unknownCallee?.map fun callee ↦ .skippedCall callee.render

theorem Expr.anomaly?_finding? (e : Expr) : e.finding?.bind Finding.anomaly? = e.anomaly? := by
  rw [Expr.finding?]
  cases e.anomaly? with
  | some a => rfl
  | none => cases e.unknownCallee? <;> rfl

theorem Expr.record?_finding? (report : Bool) (e : Expr) :
    e.finding?.bind (Finding.record? report) = e.remark? report := by
  rw [Expr.finding?, Expr.remark?]
  cases e.anomaly? with
  | some a => rfl
  | none => cases e.unknownCallee? <;> rfl

theorem Expr.finding?_of_foreign {e : Expr} (h : e.nodeType ∈ foreignTypes) :
    e.finding? = some (.anomaly ⟨e.nodeType, e.render⟩) := by
  rw [Expr.finding?, Expr.anomaly?, if_pos (.inl h)]

theorem Expr.nodeType_call_notMem {token : Token} {callee : Expr} {arguments : List Expr} :
    (Expr.call token callee arguments).nodeType ∉ foreignTypes := by
  rw [Expr.nodeType]
  decide

theorem Expr.anomaly?_call_of_form? {token : Token} {callee : Expr} {arguments : List Expr}
    {form : CallForm} (h : callee.form? = some form)
    (hform : form ≠ .segment ∨ arguments ≠ []) :
    (Expr.call token callee arguments).anomaly? = none := by
  have hname := Expr.identifier?_of_form? h
  rw [Expr.anomaly?, if_neg]
  rintro (hforeign | hbare)
  · exact Expr.nodeType_call_notMem hforeign
  · cases arguments with
    | nil =>
      rw [Expr.isBareSegment, hname] at hbare
      cases form with
      | segment => simp at hform
      | _ => exact absurd hbare (by decide)
    | cons e es => exact Bool.false_ne_true hbare

theorem Expr.unknownCallee?_of_form? {token : Token} {callee : Expr} {arguments : List Expr}
    {form : CallForm} (h : callee.form? = some form) :
    (Expr.call token callee arguments).unknownCallee? = none := by
  rw [Expr.unknownCallee?, Expr.namesContainer_of_form? h, Expr.identifier?_of_form? h]
  cases form <;> rfl

/-- A call that carries text is found only if it is a segment without arguments. -/
theorem Expr.finding?_call_of_form? {token : Token} {callee : Expr} {arguments : List Expr}
    {form : CallForm} (h : callee.form? = some form)
    (hform : form ≠ .segment ∨ arguments ≠ []) :
    (Expr.call token callee arguments).finding? = none := by
  rw [Expr.finding?, Expr.anomaly?_call_of_form? h hform, Expr.unknownCallee?_of_form? h]
  rfl

theorem Expr.finding?_bareSegment {token : Token} {callee : Expr}
    (h : callee.form? = some .segment) :
    (Expr.call token callee []).finding?
      = some (.anomaly ⟨.call, (Expr.call token callee []).render⟩) := by
  have hbare : (Expr.call token callee []).isBareSegment = true := by
    rw [Expr.isBareSegment, Expr.identifier?_of_form? h]
    rfl
  rw [Expr.finding?, Expr.anomaly?, if_pos (.inr hbare)]
  rfl

theorem Expr.namesContainer_eq_false {callee : Expr} (h : callee.form? = none) :
    callee.namesContainer = false := by
  cases hname : callee.identifier? with
  | none => rw [Expr.namesContainer, hname]; rfl
  | some name =>
    rw [Expr.namesContainer, hname, Option.any_some, ← Bool.not_eq_true, List.contains_iff_mem]
    intro hmem
    simp only [containerNames, List.mem_cons, List.not_mem_nil, or_false] at hmem
    rw [Expr.form?, hname] at h
    rcases hmem with rfl | rfl | rfl | rfl <;> cases h

theorem Expr.finding?_of_form?_eq_none {token : Token} {callee : Expr} {arguments : List Expr}
    (h : callee.form? = none) :
    (Expr.call token callee arguments).finding? = some (.skippedCall callee.render) := by
  have hname : callee.identifier? ≠ some "str_seg" := fun hname ↦ by
    have hform : callee.form? = some .segment := Expr.form?_eq_some_iff.mpr hname
    rw [hform] at h
    cases h
  have hbare : (Expr.call token callee arguments).isBareSegment = false := by
    cases arguments with
    | nil => exact beq_eq_false_iff_ne.mpr hname
    | cons e es => rfl
  rw [Expr.finding?, Expr.anomaly?, if_neg (by rw [hbare]; simpa using Expr.nodeType_call_notMem),
    Expr.unknownCallee?, Expr.namesContainer_eq_false h, beq_eq_false_iff_ne.mpr hname]
  rfl

/-! ## Harvests by children -/

section Children

variable {β : Type} (f : Expr → List β)

theorem flatMap_numbered (es : List Expr) :
    (numbered es).flatMap (fun c ↦ f c.2) = es.flatMap f := by
  rw [numbered, List.flatMap_map, ← List.flatMap_map Prod.fst f, List.zipIdx_map_fst]

theorem Expr.flatMap_children_call (token : Token) {callee : Expr} (arguments : List Expr)
    (h : callee.namesContainer = true) :
    (Expr.call token callee arguments).children.flatMap (fun c ↦ f c.2)
      = (arraysFrom 0 arguments).flatMap fun a ↦ a.2.flatMap f := by
  rw [Expr.children, if_pos h, List.flatMap_assoc]
  simp only [List.flatMap_map, flatMap_numbered]

theorem Expr.children_call_eq_nil {token : Token} {callee : Expr} {arguments : List Expr}
    (h : callee.namesContainer = false) : (Expr.call token callee arguments).children = [] := by
  rw [Expr.children, h]
  rfl

theorem Program.flatMap_children (program : Program) :
    program.children.flatMap (fun c ↦ f c.2)
      = program.statements.flatMap fun s ↦ s.expression?.toList.flatMap f := by
  have hfrom : ∀ (ss : List Stmt) (i : Nat),
      ((ss.zipIdx i).filterMap fun x ↦ x.1.expression?.map fun value ↦ ([x.2], value)).flatMap
        (fun c : Address × Expr ↦ f c.2) = ss.flatMap fun s ↦ s.expression?.toList.flatMap f := by
    intro ss
    induction ss with
    | nil => exact fun _ ↦ rfl
    | cons s ss ih =>
      intro i
      rw [List.zipIdx_cons, List.flatMap_cons, ← ih (i + 1)]
      cases s with
      | comment token => rfl
      | expression token value => simp [Stmt.expression?]
  exact hfrom program.statements 0

end Children

variable (separator : String)

theorem Expr.harvestList_eq_concat (es : List Expr) :
    Expr.harvestList separator es = .concat (es.map (·.harvest separator)) := by
  induction es with
  | nil => rfl
  | cons e es ih =>
    rw [Expr.harvestList, ih]
    rfl

theorem Expr.harvestArrays_eq (i : Nat) (es : List Expr) :
    Expr.harvestArrays separator es
      = (arraysFrom i es).map fun a ↦ Expr.harvestList separator a.2 := by
  induction es generalizing i with
  | nil => rfl
  | cons e es ih =>
    cases e with
    | array token elements =>
      rw [Expr.harvestArrays, ih (i + 1)]
      rfl
    | _ => exact ih (i + 1)

/-- A script yields what the expressions of its statements yield. -/
theorem Program.harvest_eq_concat (program : Program) :
    program.harvest separator = .concat (program.children.map fun c ↦ c.2.harvest separator) := by
  have hpart : ∀ {β : Type} (part : Harvest → List β), part .empty = [] →
      (program.statements.map (Stmt.harvest separator)).flatMap part
        = (program.children.map fun c ↦ c.2.harvest separator).flatMap part := by
    intro β part hempty
    rw [List.flatMap_map, List.flatMap_map,
      Program.flatMap_children (fun e ↦ part (e.harvest separator))]
    refine List.flatMap_congr fun s _ ↦ ?_
    cases s with
    | comment token => exact hempty
    | expression token value => simp [Stmt.harvest, Stmt.expression?]
  rw [Program.harvest, Harvest.concat, hpart _ rfl, hpart _ rfl]
  rfl

section Parts

/-! Strings and findings are parts of a harvest that are put together in the same way. -/

variable {β : Type} (part : Harvest → List β) (hpart : ∀ hs, part (.concat hs) = hs.flatMap part)

include hpart

theorem Expr.part_harvestList (es : List Expr) :
    part (Expr.harvestList separator es) = es.flatMap fun e ↦ part (e.harvest separator) := by
  rw [Expr.harvestList_eq_concat, hpart, List.flatMap_map]

theorem Expr.part_harvestArrays (token : Token) {callee : Expr} (arguments : List Expr)
    (h : callee.namesContainer = true) :
    (Expr.harvestArrays separator arguments).flatMap part
      = (Expr.call token callee arguments).children.flatMap
          fun c ↦ part (c.2.harvest separator) := by
  rw [Expr.flatMap_children_call (fun e ↦ part (e.harvest separator)) token arguments h,
    Expr.harvestArrays_eq separator 0, List.flatMap_map]
  simp only [Expr.part_harvestList separator part hpart]

theorem Program.part_harvest (program : Program) :
    part (program.harvest separator)
      = program.children.flatMap fun c ↦ part (c.2.harvest separator) := by
  rw [Program.harvest_eq_concat, hpart, List.flatMap_map]

end Parts

/-- What a call yields, by its form. -/
theorem Expr.harvest_call (token : Token) (callee : Expr) (arguments : List Expr) :
    (Expr.call token callee arguments).harvest separator
      = match callee.form? with
        | none => .finding (.skippedCall callee.render)
        | some .paragraph => .paragraph separator (Expr.harvestArrays separator arguments)
        | some .lines | some .line | some .block =>
          .concat (Expr.harvestArrays separator arguments)
        | some .segment =>
          match arguments.getLast? with
          | some text => ⟨[text.plainText], []⟩
          | none => .finding (.anomaly ⟨.call, (Expr.call token callee arguments).render⟩) := by
  rw [Expr.harvest]
  rfl

theorem Expr.findings_harvest_call (token : Token) (callee : Expr) (arguments : List Expr) :
    ((Expr.call token callee arguments).harvest separator).findings
      = (Expr.call token callee arguments).finding?.toList ++
          (Expr.call token callee arguments).children.flatMap
            fun c ↦ (c.2.harvest separator).findings := by
  -- a container has no finding of its own, and its children are the elements of its arrays
  have hcontainer : ∀ form, callee.form? = some form → form ≠ .segment →
      (Expr.harvestArrays separator arguments).flatMap (·.findings)
        = (Expr.call token callee arguments).finding?.toList ++
            (Expr.call token callee arguments).children.flatMap
              fun c ↦ (c.2.harvest separator).findings := by
    intro form hform hne
    rw [Expr.finding?_call_of_form? hform (.inl hne), Option.toList_none, List.nil_append]
    exact Expr.part_harvestArrays separator (·.findings) (fun _ ↦ rfl) token arguments
      (Expr.namesContainer_of_ne_segment hform hne)
  rw [Expr.harvest_call]
  cases hform : callee.form? with
  | none =>
    rw [Expr.finding?_of_form?_eq_none hform,
      Expr.children_call_eq_nil (Expr.namesContainer_eq_false hform)]
    rfl
  | some form =>
    cases form with
    | paragraph => exact hcontainer _ hform (by decide)
    | lines => exact hcontainer _ hform (by decide)
    | line => exact hcontainer _ hform (by decide)
    | block => exact hcontainer _ hform (by decide)
    | segment =>
      rw [Expr.children_call_eq_nil (Expr.namesContainer_of_form? hform)]
      cases arguments with
      | nil => rw [Expr.finding?_bareSegment hform]; rfl
      | cons e es =>
        rw [Expr.finding?_call_of_form? hform (.inr (List.cons_ne_nil e es)),
          List.getLast?_eq_some_getLast (List.cons_ne_nil e es)]
        rfl

theorem Expr.children_of_foreign {e : Expr} (h : e.nodeType ∈ foreignTypes) : e.children = [] := by
  cases e with
  | array | call => exact absurd h (by simp [Expr.nodeType, foreignTypes])
  | _ => rfl

/-- What is found at and below a node is what is found at the node and then below its children. -/
theorem Expr.findings_harvest_eq (e : Expr) :
    (e.harvest separator).findings = e.finding?.toList ++
      e.children.flatMap fun c ↦ (c.2.harvest separator).findings := by
  by_cases hforeign : e.nodeType ∈ foreignTypes
  · rw [Expr.harvest_of_foreign separator hforeign, Expr.finding?_of_foreign hforeign,
      Expr.children_of_foreign hforeign]
    rfl
  cases e with
  | call token callee arguments => exact Expr.findings_harvest_call separator token callee arguments
  | array token elements =>
    rw [Expr.harvest, Expr.part_harvestList separator (·.findings) fun _ ↦ rfl,
      Expr.children, flatMap_numbered (fun e ↦ (e.harvest separator).findings)]
    rfl
  | integer | real | string | boolean =>
    rw [Expr.harvest]
    rfl
  | identifier | unary | binary | function | index =>
    exact absurd (by simp [Expr.nodeType, foreignTypes]) hforeign

theorem Expr.findings_harvest (address : Address) (e : Expr) :
    (e.harvest separator).findings = (e.reached address).filterMap fun n ↦ n.2.finding? := by
  induction e using Expr.walk_induction generalizing address with
  | node e ih =>
    rw [Expr.findings_harvest_eq, Expr.reached_eq, List.filterMap_cons, List.filterMap_flatMap]
    rw [List.flatMap_congr fun c hc ↦ ih c hc (address ++ c.1)]
    cases e.finding? <;> rfl

theorem Program.findings_harvest (program : Program) :
    (program.harvest separator).findings = program.reached.filterMap fun n ↦ n.2.finding? := by
  rw [Program.part_harvest separator (·.findings) fun _ ↦ rfl, Program.reached,
    List.filterMap_flatMap]
  exact List.flatMap_congr fun c _ ↦ Expr.findings_harvest separator c.1 c.2

/-- **Anomalies and remarks are the reached nodes in order.** The list of reached nodes holds
exactly the nodes that extraction comes to, in the order of their addresses, each once. The
anomalies are those of the listed nodes that are anomalies, and the log has the remarks about the
listed nodes. Reporting changes the log alone. -/
theorem Extractor.extract_eq_reached (program : Program) :
    (∀ address e, (address, e) ∈ program.reached ↔ Reached program address e) ∧
      program.reached.Pairwise (fun m n ↦ m.1 < n.1) ∧
      ∀ (separator : String) (report : Bool),
        ((Extractor.mk separator report).extract program).anomalies
            = program.reached.filterMap (fun n ↦ n.2.anomaly?) ∧
          ((Extractor.mk separator report).extract program).log
            = program.reached.filterMap (fun n ↦ n.2.remark? report) ∧
          ∀ report', ((Extractor.mk separator report').extract program).strings
                = ((Extractor.mk separator report).extract program).strings ∧
            ((Extractor.mk separator report').extract program).anomalies
                = ((Extractor.mk separator report).extract program).anomalies := by
  refine ⟨fun _ _ ↦ Program.mem_reached_iff, program.pairwise_reached, fun separator report ↦
    ⟨?_, ?_, fun _ ↦ ⟨rfl, rfl⟩⟩⟩
  · simp only [Extractor.extract, Program.findings_harvest, List.filterMap_filterMap,
      Expr.anomaly?_finding?]
  · simp only [Extractor.extract, Program.findings_harvest, List.filterMap_filterMap,
      Expr.record?_finding?]

end DrawScript
