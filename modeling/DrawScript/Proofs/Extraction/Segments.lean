import DrawScript.Proofs.Extraction.Findings
import DrawScript.Document

/-!
# Segments and strings

The text of a drawing is in its segments. Extraction hands the text of every reached segment on,
once and in order, and adds nothing but separators; what is left to say is where the strings begin
and end. Outside paragraphs every segment is a string. A paragraph is one string, whatever is in it,
paragraphs in it included.

Three statements say this without following how paragraphs are joined. Without a separator the
strings are together the segments. With a separator they are what they are with a mark that occurs
in no segment, the mark then being replaced. And there are as many strings as there are segments and
paragraphs outside every paragraph.
-/

namespace DrawScript

/-! ## Segments and paragraphs -/

/-- The text of a node, if it is a segment. -/
def Expr.segment? : Expr → Option String
  | .call _ callee arguments =>
    if callee.identifier? = some "str_seg" then arguments.getLast?.map (·.plainText) else none
  | _ => none

/-- Is the node a call to the name of paragraphs? -/
def Expr.isParagraph (e : Expr) : Bool :=
  e.calleeName? == some "text"

/-- The texts of the reached segments, in the order of the walk. -/
def Program.segments (program : Program) : List String :=
  program.reached.filterMap fun n ↦ n.2.segment?

/-- Is the place inside one of the paragraphs among the nodes? -/
def insideParagraph (nodes : List (Address × Expr)) (address : Address) : Bool :=
  nodes.any fun n ↦ n.2.isParagraph && n.1.isPrefixOf address && n.1 != address

/-- The nodes outside every paragraph among them. -/
def outermost (nodes : List (Address × Expr)) : List (Address × Expr) :=
  nodes.filter fun n ↦ !insideParagraph nodes n.1

/-- The text with another text in place of every occurrence of a character. -/
def replaceChar (mark : Char) (replacement text : String) : String :=
  String.ofList (text.toList.flatMap fun c ↦ if c = mark then replacement.toList else [c])

theorem Expr.segment?_of_form?_ne {token : Token} {callee : Expr} {arguments : List Expr}
    (h : callee.form? ≠ some .segment) : (Expr.call token callee arguments).segment? = none :=
  if_neg fun hname ↦ h (Expr.form?_eq_some_iff.mpr hname)

theorem Expr.segment?_of_form? {token : Token} {callee : Expr} {arguments : List Expr}
    (h : callee.form? = some .segment) :
    (Expr.call token callee arguments).segment? = arguments.getLast?.map (·.plainText) :=
  if_pos (Expr.identifier?_of_form? h)

theorem Expr.segment?_of_foreign {e : Expr} (h : e.nodeType ∈ foreignTypes) :
    e.segment? = none := by
  cases e with
  | call => exact absurd h Expr.nodeType_call_notMem
  | _ => rfl

theorem Expr.isParagraph_iff {e : Expr} : e.isParagraph = true ↔
    ∃ token callee arguments, e = .call token callee arguments ∧
      callee.form? = some .paragraph := by
  rw [Expr.isParagraph, beq_iff_eq]
  constructor
  · intro h
    cases e with
    | call token callee arguments =>
      exact ⟨token, callee, arguments, rfl, Expr.form?_eq_some_iff.mpr h⟩
    | _ => cases h
  · rintro ⟨token, callee, arguments, rfl, hform⟩
    exact Expr.identifier?_of_form? hform

/-! ## Strings by children -/

section Strings

variable (separator : String)

/-- A paragraph is one string, joined array by array. -/
theorem Expr.strings_harvest_paragraph {token : Token} {callee : Expr} {arguments : List Expr}
    (h : callee.form? = some .paragraph) :
    ((Expr.call token callee arguments).harvest separator).strings
      = [String.join ((arraysFrom 0 arguments).map fun a ↦
          separator.intercalate (a.2.flatMap fun e ↦ (e.harvest separator).strings))] := by
  rw [Expr.harvest_call, h]
  simp only [Harvest.paragraph, Expr.harvestArrays_eq separator 0, List.map_map,
    Function.comp_def, Expr.part_harvestList separator (·.strings) fun _ ↦ rfl]

theorem Expr.strings_harvest_call (token : Token) {callee : Expr} (arguments : List Expr)
    (h : callee.form? ≠ some .paragraph) :
    ((Expr.call token callee arguments).harvest separator).strings
      = (Expr.call token callee arguments).segment?.toList ++
          (Expr.call token callee arguments).children.flatMap
            fun c ↦ (c.2.harvest separator).strings := by
  have hcontainer : ∀ form, callee.form? = some form → form ≠ .segment →
      (Expr.harvestArrays separator arguments).flatMap (·.strings)
        = (Expr.call token callee arguments).segment?.toList ++
            (Expr.call token callee arguments).children.flatMap
              fun c ↦ (c.2.harvest separator).strings := by
    intro form hform hne
    rw [Expr.segment?_of_form?_ne (fun hsegment ↦ hne (by simpa [hform] using hsegment)),
      Option.toList_none, List.nil_append]
    exact Expr.part_harvestArrays separator (·.strings) (fun _ ↦ rfl) token arguments
      (Expr.namesContainer_of_ne_segment hform hne)
  rw [Expr.harvest_call]
  cases hform : callee.form? with
  | none =>
    rw [Expr.segment?_of_form?_ne (by rw [hform]; exact Option.some_ne_none _ |>.symm),
      Expr.children_call_eq_nil (Expr.namesContainer_eq_false hform)]
    rfl
  | some form =>
    cases form with
    | paragraph => exact absurd hform h
    | lines => exact hcontainer _ hform (by decide)
    | line => exact hcontainer _ hform (by decide)
    | block => exact hcontainer _ hform (by decide)
    | segment =>
      rw [Expr.segment?_of_form? hform,
        Expr.children_call_eq_nil (Expr.namesContainer_of_form? hform)]
      cases arguments.getLast? <;> rfl

/-- Outside paragraphs the strings of a node are its own text and then those of its children. -/
theorem Expr.strings_harvest_eq {e : Expr} (h : e.isParagraph = false) :
    (e.harvest separator).strings = e.segment?.toList ++
      e.children.flatMap fun c ↦ (c.2.harvest separator).strings := by
  by_cases hforeign : e.nodeType ∈ foreignTypes
  · rw [Expr.harvest_of_foreign separator hforeign, Expr.segment?_of_foreign hforeign,
      Expr.children_of_foreign hforeign]
    rfl
  cases e with
  | call token callee arguments =>
    refine Expr.strings_harvest_call separator token arguments fun hform ↦ ?_
    rw [Expr.isParagraph_iff.mpr ⟨token, callee, arguments, rfl, hform⟩] at h
    cases h
  | array token elements =>
    rw [Expr.harvest, Expr.part_harvestList separator (·.strings) fun _ ↦ rfl, Expr.children,
      flatMap_numbered (fun e ↦ (e.harvest separator).strings)]
    rfl
  | integer | real | string | boolean =>
    rw [Expr.harvest]
    rfl
  | identifier | unary | binary | function | index =>
    exact absurd (by simp [Expr.nodeType, foreignTypes]) hforeign

end Strings

theorem Expr.segment?_of_isParagraph {e : Expr} (h : e.isParagraph = true) : e.segment? = none := by
  obtain ⟨token, callee, arguments, rfl, hform⟩ := Expr.isParagraph_iff.mp h
  exact Expr.segment?_of_form?_ne (by rw [hform]; decide)

theorem Expr.segments_eq (address : Address) (e : Expr) :
    (e.reached address).filterMap (fun n ↦ n.2.segment?)
      = e.segment?.toList ++ e.children.flatMap fun c ↦
          (c.2.reached (address ++ c.1)).filterMap fun n ↦ n.2.segment? := by
  rw [Expr.reached_eq, List.filterMap_cons, List.filterMap_flatMap]
  cases e.segment? <;> rfl

/-! ## Without a separator -/

theorem intercalate_empty (texts : List String) : "".intercalate texts = String.join texts := by
  induction texts with
  | nil => rfl
  | cons text texts ih =>
    cases texts with
    | nil =>
      rw [String.intercalate_singleton, String.join_cons, String.join_nil, String.append_empty]
    | cons next texts =>
      rw [String.intercalate_cons_cons, ih, String.append_empty, ← String.join_cons]

theorem join_flatMap {α : Type} (f : α → List String) (xs : List α) :
    String.join (xs.flatMap f) = String.join (xs.map fun x ↦ String.join (f x)) := by
  induction xs with
  | nil => rfl
  | cons x xs ih =>
    rw [List.flatMap_cons, String.join_append, ih, List.map_cons, String.join_cons]

theorem join_flatMap_congr {α : Type} {f g : α → List String} {xs : List α}
    (h : ∀ x ∈ xs, String.join (f x) = String.join (g x)) :
    String.join (xs.flatMap f) = String.join (xs.flatMap g) := by
  rw [join_flatMap, join_flatMap, List.map_congr_left h]

/-- Without a separator nothing is added to the segments. -/
theorem Expr.join_strings_harvest (address : Address) (e : Expr) :
    String.join (e.harvest "").strings
      = String.join ((e.reached address).filterMap fun n ↦ n.2.segment?) := by
  induction e using Expr.walk_induction generalizing address with
  | node e ih =>
    have hchildren := join_flatMap_congr fun c hc ↦ ih c hc (address ++ c.1)
    rw [Expr.segments_eq]
    cases hparagraph : e.isParagraph with
    | false =>
      rw [Expr.strings_harvest_eq "" hparagraph, String.join_append, String.join_append, hchildren]
    | true =>
      rw [Expr.segment?_of_isParagraph hparagraph, Option.toList_none, List.nil_append,
        ← hchildren]
      obtain ⟨token, callee, arguments, rfl, hform⟩ := Expr.isParagraph_iff.mp hparagraph
      rw [Expr.strings_harvest_paragraph "" hform,
        Expr.flatMap_children_call (fun e ↦ (e.harvest "").strings) token arguments
          (Expr.namesContainer_of_form? hform), join_flatMap, String.join_cons, String.join_nil,
        String.append_empty]
      simp only [intercalate_empty]

/-! ## With a mark in place of the separator -/

section Replacing

variable {mark : Char} {separator : String}

theorem replaceChar_of_notMem {text : String} (h : mark ∉ text.toList) :
    replaceChar mark separator text = text := by
  have hsame : ∀ c ∈ text.toList, (if c = mark then separator.toList else [c]) = [c] := by
    intro c hc
    rw [if_neg]
    rintro rfl
    exact h hc
  rw [replaceChar, List.flatMap_congr hsame, List.flatMap_singleton', String.ofList_toList]

theorem replaceChar_append (a b : String) :
    replaceChar mark separator (a ++ b)
      = replaceChar mark separator a ++ replaceChar mark separator b := by
  rw [replaceChar, String.toList_append, List.flatMap_append, String.ofList_append]
  rfl

theorem replaceChar_singleton : replaceChar mark separator (String.singleton mark) = separator := by
  rw [replaceChar, String.toList_singleton, List.flatMap_singleton, if_pos rfl,
    String.ofList_toList]

theorem replaceChar_join (texts : List String) :
    replaceChar mark separator (String.join texts)
      = String.join (texts.map (replaceChar mark separator)) := by
  induction texts with
  | nil => rfl
  | cons text texts ih =>
    rw [String.join_cons, replaceChar_append, ih, List.map_cons, String.join_cons]

theorem replaceChar_intercalate (texts : List String) :
    replaceChar mark separator ((String.singleton mark).intercalate texts)
      = separator.intercalate (texts.map (replaceChar mark separator)) := by
  induction texts with
  | nil => rfl
  | cons text texts ih =>
    cases texts with
    | nil => rfl
    | cons next texts =>
      rw [String.intercalate_cons_cons, replaceChar_append, replaceChar_append, ih,
        replaceChar_singleton, List.map_cons, List.map_cons, List.map_cons,
        String.intercalate_cons_cons]

/-- If the mark occurs in no segment, replacing it by the separator is joining by the separator. -/
theorem Expr.strings_harvest_replaceChar (address : Address) {e : Expr}
    (h : ∀ n ∈ e.reached address, ∀ text ∈ n.2.segment?, mark ∉ text.toList) :
    (e.harvest separator).strings
      = (e.harvest (String.singleton mark)).strings.map (replaceChar mark separator) := by
  induction e using Expr.walk_induction generalizing address with
  | node e ih =>
    have hchild : ∀ c ∈ e.children, (c.2.harvest separator).strings
        = (c.2.harvest (String.singleton mark)).strings.map (replaceChar mark separator) :=
      fun c hc ↦ ih c hc (address ++ c.1) fun n hn ↦
        h n (Expr.mem_reached_of_mem_children hc hn)
    cases hparagraph : e.isParagraph with
    | false =>
      have hself : e.segment?.toList.map (replaceChar mark separator) = e.segment?.toList := by
        cases hsegment : e.segment? with
        | none => rfl
        | some text =>
          have hfree := h _ (Expr.mem_reached_self address e) text hsegment
          rw [Option.toList_some, List.map_singleton, replaceChar_of_notMem hfree]
      rw [Expr.strings_harvest_eq _ hparagraph, Expr.strings_harvest_eq _ hparagraph,
        List.map_append, hself, List.map_flatMap, List.flatMap_congr hchild]
    | true =>
      obtain ⟨token, callee, arguments, rfl, hform⟩ := Expr.isParagraph_iff.mp hparagraph
      -- a paragraph is joined array by array, so its children are needed as elements of arrays
      have helement : ∀ a ∈ arraysFrom 0 arguments, ∀ x ∈ a.2, (x.harvest separator).strings
          = (x.harvest (String.singleton mark)).strings.map (replaceChar mark separator) := by
        intro a ha x hx
        obtain ⟨bracket, ha⟩ := mem_arraysFrom.mp ha
        obtain ⟨j, hx⟩ := List.getElem?_of_mem hx
        exact hchild ([a.1, j], x) (mem_children_call.mpr
          ⟨Expr.namesContainer_of_form? hform, a.1, j, bracket, a.2, rfl, ha, hx⟩)
      rw [Expr.strings_harvest_paragraph _ hform, Expr.strings_harvest_paragraph _ hform,
        List.map_singleton, replaceChar_join, List.map_map]
      refine congrArg (fun texts ↦ [String.join texts]) (List.map_congr_left fun a ha ↦ ?_)
      rw [Function.comp_apply, replaceChar_intercalate, List.map_flatMap,
        List.flatMap_congr (helement a ha)]

end Replacing

/-! ## The number of strings -/

theorem insideParagraph_iff {nodes : List (Address × Expr)} {address : Address} :
    insideParagraph nodes address = true ↔
      ∃ n ∈ nodes, n.2.isParagraph = true ∧ n.1 <+: address ∧ n.1 ≠ address := by
  simp [insideParagraph, and_assoc]

/-- No way to one of the first leads on to one of the second. -/
def Apart (ms ns : List (Address × Expr)) : Prop :=
  ∀ m ∈ ms, ∀ n ∈ ns, ¬m.1 <+: n.1 ∧ ¬n.1 <+: m.1

theorem LeftOf.not_isPrefix {a b : Address} (h : LeftOf a b) : ¬a <+: b ∧ ¬b <+: a := by
  obtain ⟨w, i, j, x, y, rfl, rfl, hlt⟩ := h
  rw [List.prefix_append_right_inj, List.prefix_append_right_inj, List.cons_prefix_cons,
    List.cons_prefix_cons]
  exact ⟨fun hij ↦ Nat.ne_of_lt hlt hij.1, fun hij ↦ Nat.ne_of_gt hlt hij.1⟩

theorem outermost_append {ms ns : List (Address × Expr)} (h : Apart ms ns) :
    outermost (ms ++ ns) = outermost ms ++ outermost ns := by
  have happend : ∀ address, insideParagraph (ms ++ ns) address
      = (insideParagraph ms address || insideParagraph ns address) := fun _ ↦ List.any_append
  have hleft : ∀ m ∈ ms, insideParagraph ns m.1 = false := fun m hm ↦ by
    rw [← Bool.not_eq_true, insideParagraph_iff]
    rintro ⟨n, hn, -, hle, -⟩
    exact (h m hm n hn).2 hle
  have hright : ∀ n ∈ ns, insideParagraph ms n.1 = false := fun n hn ↦ by
    rw [← Bool.not_eq_true, insideParagraph_iff]
    rintro ⟨m, hm, -, hle, -⟩
    exact (h m hm n hn).1 hle
  rw [outermost, List.filter_append]
  refine congrArg₂ (· ++ ·) (List.filter_congr fun m hm ↦ ?_) (List.filter_congr fun n hn ↦ ?_)
  · rw [happend, hleft m hm, Bool.or_false]
  · rw [happend, hright n hn, Bool.false_or]

theorem outermost_flatMap {α : Type} {f : α → List (Address × Expr)} {cs : List α}
    (h : cs.Pairwise fun c d ↦ Apart (f c) (f d)) :
    outermost (cs.flatMap f) = cs.flatMap fun c ↦ outermost (f c) := by
  induction h with
  | nil => rfl
  | @cons c cs hc _ ih =>
    rw [List.flatMap_cons, List.flatMap_cons, outermost_append, ih]
    intro m hm n hn
    obtain ⟨d, hd, hn⟩ := List.mem_flatMap.mp hn
    exact hc d hd m hm n hn

theorem Expr.apart_children (address : Address) (e : Expr) :
    e.children.Pairwise fun c d ↦
      Apart (c.2.reached (address ++ c.1)) (d.2.reached (address ++ d.1)) :=
  (e.pairwise_below address).imp fun h m hm n hn ↦ (h m hm n hn).not_isPrefix

theorem Program.apart_children (program : Program) :
    program.children.Pairwise fun c d ↦ Apart (c.2.reached c.1) (d.2.reached d.1) :=
  program.pairwise_below.imp fun h m hm n hn ↦ (h m hm n hn).not_isPrefix

/-- Everything below a paragraph is inside it. -/
theorem Expr.outermost_reached_of_isParagraph {address : Address} {e : Expr}
    (h : e.isParagraph = true) : outermost (e.reached address) = [(address, e)] := by
  have hself : insideParagraph (e.reached address) address = false := by
    rw [← Bool.not_eq_true, insideParagraph_iff]
    rintro ⟨n, hn, -, hle, hne⟩
    exact hne (hle.eq_of_length_le (Expr.isPrefix_of_mem_reached n hn).length_le)
  have hbelow : ∀ n ∈ e.children.flatMap fun c ↦ c.2.reached (address ++ c.1),
      ¬(!insideParagraph (e.reached address) n.1) = true := fun n hn ↦ by
    rw [insideParagraph_iff.mpr ⟨_, Expr.mem_reached_self address e, h,
      Expr.ne_of_mem_flatMap_reached hn⟩]
    decide
  rw [outermost]
  nth_rewrite 2 [Expr.reached_eq]
  rw [List.filter_cons_of_pos (by rw [hself]; rfl), List.filter_eq_nil_iff.mpr hbelow]

/-- What is no paragraph hides nothing below it. -/
theorem Expr.outermost_reached {address : Address} {e : Expr} (h : e.isParagraph = false) :
    outermost (e.reached address)
      = (address, e) :: e.children.flatMap fun c ↦ outermost (c.2.reached (address ++ c.1)) := by
  rw [← outermost_flatMap (e.apart_children address)]
  -- the node is no paragraph, so nothing is inside one on its account
  have hcons : ∀ place, insideParagraph (e.reached address) place
      = insideParagraph (e.children.flatMap fun c ↦ c.2.reached (address ++ c.1)) place := by
    intro place
    rw [Expr.reached_eq, insideParagraph, List.any_cons, h, Bool.false_and, Bool.false_and,
      Bool.false_or]
    rfl
  have hself : insideParagraph (e.reached address) address = false := by
    rw [hcons, ← Bool.not_eq_true, insideParagraph_iff]
    rintro ⟨n, hn, -, hle, hne⟩
    exact hne (hle.eq_of_length_le (Expr.ne_of_mem_flatMap_reached hn).1.length_le)
  rw [outermost]
  nth_rewrite 2 [Expr.reached_eq]
  rw [List.filter_cons_of_pos (by rw [hself]; rfl)]
  simp only [hcons]
  rfl

/-- The number of segments and paragraphs among the nodes outside every paragraph. -/
def outermostCount (nodes : List (Address × Expr)) : Nat :=
  (outermost nodes).countP (fun n ↦ n.2.segment?.isSome) +
    (outermost nodes).countP fun n ↦ n.2.isParagraph

theorem length_flatMap_of_outermostCount {cs : List (Address × Expr)}
    {f : Address × Expr → List String} {g : Address × Expr → List (Address × Expr)}
    (h : ∀ c ∈ cs, (f c).length = outermostCount (g c)) :
    (cs.flatMap f).length
      = (cs.flatMap fun c ↦ outermost (g c)).countP (fun n ↦ n.2.segment?.isSome) +
        (cs.flatMap fun c ↦ outermost (g c)).countP fun n ↦ n.2.isParagraph := by
  induction cs with
  | nil => rfl
  | cons c cs ih =>
    have hfirst := h c List.mem_cons_self
    have hrest := ih fun d hd ↦ h d (List.mem_cons_of_mem c hd)
    rw [outermostCount] at hfirst
    simp only [List.flatMap_cons, List.length_append, List.countP_append]
    omega

theorem Expr.length_strings_harvest (separator : String) (address : Address) (e : Expr) :
    (e.harvest separator).strings.length = outermostCount (e.reached address) := by
  induction e using Expr.walk_induction generalizing address with
  | node e ih =>
    cases hparagraph : e.isParagraph with
    | false =>
      have hchildren := length_flatMap_of_outermostCount fun c hc ↦ ih c hc (address ++ c.1)
      rw [Expr.strings_harvest_eq separator hparagraph, outermostCount,
        Expr.outermost_reached hparagraph, List.length_append, hchildren, List.countP_cons,
        List.countP_cons, hparagraph]
      cases e.segment? with
      | none => simp
      | some text => simp; omega
    | true =>
      rw [outermostCount, Expr.outermost_reached_of_isParagraph hparagraph, List.countP_singleton,
        List.countP_singleton, Expr.segment?_of_isParagraph hparagraph, hparagraph]
      obtain ⟨token, callee, arguments, rfl, hform⟩ := Expr.isParagraph_iff.mp hparagraph
      rw [Expr.strings_harvest_paragraph separator hform]
      rfl

/-! ## Whole scripts -/

theorem Program.strings_harvest (separator : String) (program : Program) :
    (program.harvest separator).strings
      = program.children.flatMap fun c ↦ (c.2.harvest separator).strings :=
  Program.part_harvest separator (·.strings) (fun _ ↦ rfl) program

theorem Program.segments_eq (program : Program) :
    program.segments = program.children.flatMap fun c ↦
      (c.2.reached c.1).filterMap fun n ↦ n.2.segment? :=
  List.filterMap_flatMap

theorem Program.join_strings_harvest (program : Program) :
    String.join (program.harvest "").strings = String.join program.segments := by
  rw [Program.strings_harvest, Program.segments_eq]
  exact join_flatMap_congr fun c _ ↦ Expr.join_strings_harvest c.1 c.2

theorem Program.strings_harvest_replaceChar {mark : Char} (separator : String) {program : Program}
    (h : ∀ text ∈ program.segments, mark ∉ text.toList) :
    (program.harvest separator).strings
      = (program.harvest (String.singleton mark)).strings.map (replaceChar mark separator) := by
  rw [Program.strings_harvest, Program.strings_harvest, List.map_flatMap]
  refine List.flatMap_congr fun c hc ↦ Expr.strings_harvest_replaceChar c.1 ?_
  intro n hn text htext
  exact h text (List.mem_filterMap.mpr ⟨n, List.mem_flatMap.mpr ⟨c, hc, hn⟩, htext⟩)

theorem Program.length_strings_harvest (separator : String) (program : Program) :
    (program.harvest separator).strings.length = outermostCount program.reached := by
  rw [Program.strings_harvest, outermostCount, Program.reached,
    outermost_flatMap program.apart_children]
  exact length_flatMap_of_outermostCount fun c _ ↦ Expr.length_strings_harvest separator c.1 c.2

/-- **Extraction keeps the segments.** Without a separator the strings are together the segments, in
order. With a separator they are what they are with a mark that occurs in no segment, once the mark
is replaced by the separator, and the anomalies are the same. There are as many of them as there are
segments outside every paragraph and paragraphs outside every other. -/
theorem Extractor.extract_segments (program : Program) (report : Bool) :
    String.join ((Extractor.mk "" report).extract program).strings
        = String.join program.segments ∧
      (∀ (separator : String) (mark : Char), (∀ text ∈ program.segments, mark ∉ text.toList) →
        ((Extractor.mk separator report).extract program).strings
            = ((Extractor.mk (String.singleton mark) report).extract program).strings.map
                (replaceChar mark separator) ∧
          ((Extractor.mk separator report).extract program).anomalies
            = ((Extractor.mk (String.singleton mark) report).extract program).anomalies) ∧
      ∀ separator : String, ((Extractor.mk separator report).extract program).strings.length
        = (outermost program.reached).countP (fun n ↦ n.2.segment?.isSome) +
          (outermost program.reached).countP fun n ↦ n.2.isParagraph := by
  refine ⟨program.join_strings_harvest, fun separator mark hmark ↦
    ⟨Program.strings_harvest_replaceChar separator hmark, ?_⟩, fun separator ↦
    Program.length_strings_harvest separator program⟩
  simp only [Extractor.extract, Program.findings_harvest]

/-- A paragraph with two arrays, and in the first of them another paragraph and a name. The empty
segment is kept, and so is the separator before it. -/
theorem Extractor.extract_segments_nested :
    (∀ text ∈ (Document.ofSource
        "text([str_seg('a'), text([str_seg('b'), str_seg('')]), x], 0, [str_seg(1)]). str_seg('c')"
        ).program.segments, '|' ∉ text.toList) ∧
      ((Extractor.mk "|" true).extract (Document.ofSource
        "text([str_seg('a'), text([str_seg('b'), str_seg('')]), x], 0, [str_seg(1)]). str_seg('c')"
        ).program).strings = ["a|b|1", "c"] ∧
      ((Extractor.mk "; " true).extract (Document.ofSource
        "text([str_seg('a'), text([str_seg('b'), str_seg('')]), x], 0, [str_seg(1)]). str_seg('c')"
        ).program).strings = ["a; b; 1", "c"] := by
  have hfree : ∀ text ∈ (Document.ofSource
      "text([str_seg('a'), text([str_seg('b'), str_seg('')]), x], 0, [str_seg(1)]). str_seg('c')"
      ).program.segments, '|' ∉ text.toList := by
    decide +kernel
  have hmarked : ((Extractor.mk "|" true).extract (Document.ofSource
      "text([str_seg('a'), text([str_seg('b'), str_seg('')]), x], 0, [str_seg(1)]). str_seg('c')"
      ).program).strings = ["a|b|1", "c"] := by
    decide +kernel
  refine ⟨hfree, hmarked, ?_⟩
  rw [((Extractor.extract_segments _ true).2.1 "; " '|' hfree).1]
  exact (congrArg (List.map (replaceChar '|' "; ")) hmarked).trans (by decide +kernel)

end DrawScript
