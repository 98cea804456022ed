import DrawScript.Datum.Json
import DrawScript.Proofs.Canonical.Scan

/-!
# JSON texts are unambiguous

What the JSON text of a datum says is its *content*. Truth values and numbers are words in it, told
apart by their spelling alone, so that an integer and a real number could be the same content;
everything else is kept. Two data with one text have one content (`content_eq_of_toJson_eq`).

The single fact that carries this is that a datum can be cut off from the text behind it
(`SelfDelimiting`): words because they end in front of anything that is not a word, strings because
the escapes of characters are a prefix code without a bare quote, lists and records because their
items can be cut off in turn. Records and lists share one argument on lines that are joined by
commas, in which nothing is said about what the lines are (`bracketed_cut`).
-/

namespace DrawScript.Datum

/-! ## Contents -/

/-- What the JSON text of a datum says. -/
inductive Content where
  | word (spelling : String)
  | text (value : String)
  | list (items : List Content)
  | record (fields : List (String × Content))

mutual

/-- The content of a datum. -/
def content : Datum → Content
  | bool value => .word (if value then "true" else "false")
  | int value => .word value.repr
  | real value => .word (value.write jsonStyle)
  | text value => .text value
  | list items => .list (contentList items)
  | record fields => .record (contentFields fields)

/-- The contents of the items of a list. -/
def contentList : List Datum → List Content
  | [] => []
  | x :: xs => x.content :: contentList xs

/-- The contents of the fields of a record. -/
def contentFields : List (String × Datum) → List (String × Content)
  | [] => []
  | (name, x) :: fields => (name, x.content) :: contentFields fields

end

theorem contentList_eq_map (xs : List Datum) : contentList xs = xs.map content := by
  induction xs with
  | nil => rfl
  | cons x xs ih => rw [contentList, ih, List.map_cons]

theorem contentFields_eq_map (fields : List (String × Datum)) :
    contentFields fields = fields.map fun f ↦ (f.1, f.2.content) := by
  induction fields with
  | nil => rfl
  | cons f fields ih => rw [contentFields, ih, List.map_cons]

/-! ## Words -/

/-- The characters of truth values and numbers. -/
def isWordChar (c : Char) : Bool :=
  c.isAlphanum || c == '+' || c == '-' || c == '.'

/-- A text of word characters. -/
def Wordy (spelling : String) : Prop :=
  ∀ c ∈ spelling.toList, isWordChar c = true

instance (spelling : String) : Decidable (Wordy spelling) :=
  List.decidableBAll _ _

theorem Wordy.append {a b : String} (ha : Wordy a) (hb : Wordy b) : Wordy (a ++ b) := by
  intro c hc
  rw [String.toList_append, List.mem_append] at hc
  exact hc.elim (ha c) (hb c)

theorem wordy_ofList {a : String} (ha : Wordy a) {cs : List Char} (h : cs ⊆ a.toList) :
    Wordy (String.ofList cs) := by
  intro c hc
  rw [String.toList_ofList] at hc
  exact ha c (h hc)

theorem wordy_natRepr (n : Nat) : Wordy n.repr := by
  intro c hc
  rw [Nat.repr_eq_ofList_toDigits, String.toList_ofList] at hc
  have hdigit := Nat.isDigit_of_mem_toDigits (by decide) (by decide) hc
  simp [isWordChar, Char.isAlphanum, hdigit]

theorem wordy_zeros (n : Nat) : Wordy (Binary64.zeros n) := by
  intro c hc
  rw [Binary64.zeros, String.toList_ofList] at hc
  rw [List.eq_of_mem_replicate hc]
  decide

/-- A word is not empty, and it ends where its characters end. -/
def IsWord (spelling : String) : Prop :=
  spelling ≠ "" ∧ Wordy spelling

theorem isWord_intRepr (n : Int) : IsWord n.repr := by
  rw [Int.repr_eq_if]
  split
  · exact ⟨Nat.repr_ne_empty, wordy_natRepr _⟩
  · exact ⟨by simp, Wordy.append (by decide) (wordy_natRepr _)⟩

theorem isWord_scientific (d : Binary64.Decimal) : IsWord (d.scientific jsonStyle) := by
  have hdigits : Wordy d.text := wordy_natRepr _
  have htake (k : Nat) : Wordy (String.ofList (d.text.toList.take k)) :=
    wordy_ofList hdigits (List.take_subset k _)
  have hdrop (k : Nat) : Wordy (String.ofList (d.text.toList.drop k)) :=
    wordy_ofList hdigits (List.drop_subset k _)
  have hpoint : Wordy "." := by decide
  have hmantissa : Wordy (if (String.ofList (d.text.toList.drop 1)).isEmpty
      then String.ofList (d.text.toList.take 1)
      else String.ofList (d.text.toList.take 1) ++ "." ++
        String.ofList (d.text.toList.drop 1)) := by
    split
    · exact htake 1
    · exact ((htake 1).append hpoint).append (hdrop 1)
  have hsign : Wordy (if d.point - 1 < 0 then "-" else jsonStyle.exponentSign) := by
    split <;> decide
  unfold Binary64.Decimal.scientific Binary64.splitAt
  simp only
  split
  · split
    · exact ⟨by simp, (hdigits.append (wordy_zeros _)).append (by decide)⟩
    · exact ⟨by simp, ((htake _).append hpoint).append (hdrop _)⟩
  · split
    · exact ⟨by simp, (Wordy.append (by decide) (wordy_zeros _)).append hdigits⟩
    · refine ⟨by simp, ?_⟩
      exact ((hmantissa.append (by decide)).append hsign).append (wordy_natRepr _)

theorem isWord_write (x : Binary64) : IsWord (x.write jsonStyle) := by
  have hnull : IsWord "null" := ⟨by decide, by decide⟩
  have hsign : Wordy (if x.isNegative then "-" else "") := by split <;> decide
  unfold Binary64.write
  simp only
  split
  · exact hnull
  · split
    · split <;> exact hnull
    · split
      · exact ⟨by simp, hsign.append (by decide)⟩
      · obtain ⟨hne, hwordy⟩ := isWord_scientific (x.shortest .toEven)
        exact ⟨by simp [hne], hsign.append hwordy⟩

/-! ## Cutting texts -/

/-- Text that no word goes on with. -/
def Stops (rest : List Char) : Prop :=
  ∀ c ∈ rest.head?, isWordChar c = false

theorem stops_cons {c : Char} (h : isWordChar c = false) (rest : List Char) :
    Stops (c :: rest) := by
  rintro d ⟨⟩
  exact h

/-- The text of `a` can be cut off from what stands behind it, and it tells what `a` reads as. -/
def SelfDelimiting {α β : Type} (write : α → String) (read : α → β) (a : α) : Prop :=
  ∀ ⦃b : α⦄ ⦃u v : List Char⦄, Stops u → Stops v →
    (write a).toList ++ u = (write b).toList ++ v → read a = read b ∧ u = v

theorem IsWord.cut {a b : String} (ha : IsWord a) (hb : IsWord b) {u v : List Char} (hu : Stops u)
    (hv : Stops v) (h : a.toList ++ u = b.toList ++ v) : a = b ∧ u = v := by
  have hword : a.toList = b.toList := by
    rw [← Token.takeWhile_append_of_stops ha.2 hu, h, Token.takeWhile_append_of_stops hb.2 hv]
  rw [hword] at h
  exact ⟨String.toList_inj.mp hword, List.append_cancel_left h⟩

/-! ### Strings -/

/-- The characters that a string does not hold as they are. -/
def escaped : List Char :=
  '"' :: '\\' :: (List.range 0x20).map Char.ofNat

theorem toList_jsonChar {c : Char} (h : c ∉ escaped) : (jsonChar c).toList = [c] := by
  have hplain : ¬c.toNat < 0x20 := fun hlt ↦ h <| by
    refine List.mem_cons_of_mem _ (List.mem_cons_of_mem _ (List.mem_map.mpr ⟨c.toNat, ?_, ?_⟩))
    · exact List.mem_range.mpr hlt
    · exact Char.ofNat_toNat c
  unfold jsonChar
  split
  case h_8 => rw [if_neg hplain]; exact String.toList_singleton c
  all_goals exact absurd (by decide) h

theorem head?_jsonChar_append {c : Char} (h : c ∈ escaped) (u : List Char) :
    ((jsonChar c).toList ++ u).head? = some '\\' := by
  have hall : escaped.all fun c ↦ (jsonChar c).toList.head? = some '\\' := by decide +kernel
  rw [List.head?_append, of_decide_eq_true (List.all_eq_true.mp hall c h), Option.some_or]

/-- Escapes are a prefix code. -/
theorem prefixFree_jsonChar {c d : Char} (hc : c ∈ escaped) (hd : d ∈ escaped)
    (h : (jsonChar c).toList <+: (jsonChar d).toList) : c = d := by
  have hall : escaped.all fun c ↦ escaped.all fun d ↦
      (jsonChar c).toList <+: (jsonChar d).toList → c = d := by decide +kernel
  exact of_decide_eq_true (List.all_eq_true.mp (List.all_eq_true.mp hall c hc) d hd) h

/-- An escape is not confused with a character that stands for itself. -/
theorem jsonChar_append_ne {c d : Char} (hc : c ∈ escaped) (hd : d ∉ escaped) (u v : List Char) :
    (jsonChar c).toList ++ u ≠ d :: v := by
  intro h
  have hhead := head?_jsonChar_append hc u
  rw [h, List.head?_cons, Option.some.injEq] at hhead
  exact hd (by rw [hhead]; decide)

/-- No character is written with a bare quote in front. -/
theorem jsonChar_append_ne_quote (c : Char) (u v : List Char) :
    (jsonChar c).toList ++ u ≠ '"' :: v := by
  intro h
  by_cases hc : c ∈ escaped
  · have hhead := head?_jsonChar_append hc u
    rw [h, List.head?_cons, Option.some.injEq] at hhead
    exact absurd hhead (by decide)
  · rw [toList_jsonChar hc, List.singleton_append, List.cons.injEq] at h
    exact hc (by rw [h.1]; decide)

theorem jsonChar_cut {c d : Char} {u v : List Char}
    (h : (jsonChar c).toList ++ u = (jsonChar d).toList ++ v) : c = d ∧ u = v := by
  have hcd : c = d := by
    by_cases hc : c ∈ escaped <;> by_cases hd : d ∈ escaped
    · obtain hprefix | hprefix := List.prefix_or_prefix_of_prefix (List.prefix_append _ u)
        (h ▸ List.prefix_append (jsonChar d).toList v)
      · exact prefixFree_jsonChar hc hd hprefix
      · exact (prefixFree_jsonChar hd hc hprefix).symm
    · rw [toList_jsonChar hd] at h
      exact absurd h (jsonChar_append_ne hc hd u v)
    · rw [toList_jsonChar hc] at h
      exact absurd h.symm (jsonChar_append_ne hd hc v u)
    · rw [toList_jsonChar hc, toList_jsonChar hd] at h
      exact (List.cons.inj h).1
  rw [hcd] at h
  exact ⟨hcd, List.append_cancel_left h⟩

theorem jsonText_cut {cs ds u v : List Char}
    (h : (cs.flatMap fun c ↦ (jsonChar c).toList) ++ '"' :: u =
      (ds.flatMap fun c ↦ (jsonChar c).toList) ++ '"' :: v) : cs = ds ∧ u = v := by
  induction cs generalizing ds with
  | nil =>
    cases ds with
    | nil => exact ⟨rfl, (List.cons.inj h).2⟩
    | cons d ds =>
      rw [List.flatMap_cons, List.append_assoc] at h
      exact absurd h.symm (jsonChar_append_ne_quote d _ _)
  | cons c cs ih =>
    rw [List.flatMap_cons, List.append_assoc] at h
    cases ds with
    | nil => exact absurd h (jsonChar_append_ne_quote c _ _)
    | cons d ds =>
      rw [List.flatMap_cons, List.append_assoc] at h
      obtain ⟨rfl, hrest⟩ := jsonChar_cut h
      obtain ⟨rfl, htail⟩ := ih hrest
      exact ⟨rfl, htail⟩

theorem toList_jsonString (s : String) :
    (jsonString s).toList = '"' :: ((s.toList.flatMap fun c ↦ (jsonChar c).toList) ++ ['"']) := by
  simp [jsonString, String.toList_join, List.flatMap_map]

theorem jsonString_cut {s t : String} {u v : List Char}
    (h : (jsonString s).toList ++ u = (jsonString t).toList ++ v) : s = t ∧ u = v := by
  rw [toList_jsonString, toList_jsonString, List.cons_append, List.cons_append, List.append_assoc,
    List.append_assoc] at h
  obtain ⟨htext, hrest⟩ := jsonText_cut (List.cons.inj h).2
  exact ⟨String.toList_inj.mp htext, hrest⟩

/-! ### Lines joined by commas -/

/-- Lines with a comma and a line break in front of each, and a line break and `rest` at the end. -/
def commaLines : List String → List Char → List Char
  | [], rest => '\n' :: rest
  | line :: lines, rest => ',' :: '\n' :: (line.toList ++ commaLines lines rest)

theorem stops_commaLines (lines : List String) (rest : List Char) :
    Stops (commaLines lines rest) := by
  cases lines <;> exact stops_cons (by decide) _

/-- Lines of things that can be cut off tell how many there are and what they read as. -/
theorem commaLines_cut {α β : Type} {write : α → String} {read : α → β} {as bs : List α}
    {u v : List Char} (hcut : ∀ a ∈ as, SelfDelimiting write read a)
    (h : commaLines (as.map write) u = commaLines (bs.map write) v) :
    as.map read = bs.map read ∧ u = v := by
  induction as generalizing bs with
  | nil =>
    cases bs with
    | nil => exact ⟨rfl, (List.cons.inj h).2⟩
    | cons b bs => exact absurd (List.cons.inj h).1 (by decide)
  | cons a as ih =>
    cases bs with
    | nil => exact absurd (List.cons.inj h).1 (by decide)
    | cons b bs =>
      obtain ⟨hread, hrest⟩ := hcut a List.mem_cons_self (stops_commaLines _ u)
        (stops_commaLines _ v) (List.cons.inj (List.cons.inj h).2).2
      obtain ⟨hreads, hend⟩ := ih (fun c hc ↦ hcut c (List.mem_cons_of_mem a hc)) hrest
      rw [List.map_cons, List.map_cons, hread, hreads]
      exact ⟨rfl, hend⟩

/-- Lines between brackets of which the last stands at the given depth. Without lines there is no
line break between the brackets. -/
def bracketed (depth : Nat) (first last : Char) (lines : List String) (rest : List Char) :
    List Char :=
  if lines.isEmpty then first :: last :: rest
  else first :: (commaLines lines ((indentation depth).toList ++ last :: rest)).tail

theorem bracketed_cut {α β : Type} {write : α → String} {read : α → β} {as bs : List α}
    {depth : Nat} {first last : Char} {u v : List Char} (hlast : last ≠ '\n')
    (hcut : ∀ a ∈ as, SelfDelimiting write read a)
    (h : bracketed depth first last (as.map write) u =
      bracketed depth first last (bs.map write) v) :
    as.map read = bs.map read ∧ u = v := by
  cases as with
  | nil =>
    cases bs with
    | nil => exact ⟨rfl, (List.cons.inj (List.cons.inj h).2).2⟩
    | cons b bs => exact absurd (List.cons.inj (List.cons.inj h).2).1 hlast
  | cons a as =>
    cases bs with
    | nil => exact absurd (List.cons.inj (List.cons.inj h).2).1.symm hlast
    | cons b bs =>
      -- only the comma in front of the first line is missing between the brackets
      have hlines : commaLines ((a :: as).map write) ((indentation depth).toList ++ last :: u) =
          commaLines ((b :: bs).map write) ((indentation depth).toList ++ last :: v) :=
        congrArg (',' :: ·) (List.cons.inj h).2
      obtain ⟨hreads, hrest⟩ := commaLines_cut hcut hlines
      exact ⟨hreads, (List.cons.inj (List.append_cancel_left hrest)).2⟩

/-- The line of an item of a list. -/
def jsonItem (depth : Nat) (x : Datum) : String :=
  indentation depth ++ jsonAt depth x

/-- The line of a field of a record. -/
def jsonField (depth : Nat) (f : String × Datum) : String :=
  indentation depth ++ jsonString f.1 ++ ": " ++ jsonAt depth f.2

theorem commaLines_jsonItem (depth : Nat) (x : Datum) (xs : List Datum) (rest : List Char) :
    commaLines ((x :: xs).map (jsonItem depth)) rest =
      ',' :: '\n' :: ((jsonItems depth (x :: xs)).toList ++ '\n' :: rest) := by
  induction xs generalizing x with
  | nil => simp [commaLines, jsonItems, jsonItem]
  | cons y xs ih =>
    rw [List.map_cons, commaLines, ih, jsonItems, ← jsonItem]
    simp

theorem commaLines_jsonField (depth : Nat) (f : String × Datum) (fs : List (String × Datum))
    (rest : List Char) :
    commaLines ((f :: fs).map (jsonField depth)) rest =
      ',' :: '\n' :: ((jsonFields depth (f :: fs)).toList ++ '\n' :: rest) := by
  induction fs generalizing f with
  | nil => simp [commaLines, jsonFields, jsonField]
  | cons g fs ih =>
    rw [List.map_cons, commaLines, ih, jsonFields, ← jsonField]
    simp

theorem jsonAt_list (depth : Nat) (items : List Datum) (rest : List Char) :
    (jsonAt depth (list items)).toList ++ rest =
      bracketed depth '[' ']' (items.map (jsonItem (depth + 1))) rest := by
  cases items with
  | nil => simp [jsonAt, bracketed]
  | cons x xs =>
    rw [bracketed, if_neg (by simp), commaLines_jsonItem, jsonAt]
    simp

theorem jsonAt_record (depth : Nat) (fields : List (String × Datum)) (rest : List Char) :
    (jsonAt depth (record fields)).toList ++ rest =
      bracketed depth '\x7b' '\x7d' (fields.map (jsonField (depth + 1))) rest := by
  cases fields with
  | nil => simp [jsonAt, bracketed]
  | cons f fs =>
    rw [bracketed, if_neg (by simp), commaLines_jsonField, jsonAt]
    simp

/-! ## Data -/

/-- The bracket or quote that the text of a datum begins with, if it is not a word. -/
def opening : Datum → Option Char
  | bool _ | int _ | real _ => none
  | text _ => some '"'
  | list _ => some '['
  | record _ => some '\x7b'

/-- A datum without a bracket or quote is a word, and the word says it all. -/
theorem exists_word {x : Datum} (h : x.opening = none) :
    ∃ spelling, IsWord spelling ∧ x.content = .word spelling ∧
      ∀ depth, jsonAt depth x = spelling := by
  cases x with
  | bool value =>
    refine ⟨_, ?_, rfl, fun depth ↦ rfl⟩
    cases value <;> exact ⟨by decide, by decide⟩
  | int value => exact ⟨_, isWord_intRepr value, rfl, fun depth ↦ rfl⟩
  | real value => exact ⟨_, isWord_write value, rfl, fun depth ↦ rfl⟩
  | text value => cases h
  | list items => cases h
  | record fields => cases h

/-- The opening of a datum is the first character of its text, unless that is part of a word. -/
theorem filter_head?_jsonAt (depth : Nat) (x : Datum) (rest : List Char) :
    (((jsonAt depth x).toList ++ rest).head?.filter fun c ↦ !isWordChar c) = x.opening := by
  have hword (h : x.opening = none) :
      (((jsonAt depth x).toList ++ rest).head?.filter fun c ↦ !isWordChar c) = none := by
    obtain ⟨spelling, ⟨hne, hwordy⟩, -, hjson⟩ := exists_word h
    rw [hjson]
    obtain ⟨c, cs, hcs⟩ := List.exists_cons_of_ne_nil (mt String.toList_eq_nil_iff.mp hne)
    have hc : isWordChar c = true := hwordy c (hcs ▸ List.mem_cons_self)
    rw [hcs, List.cons_append, List.head?_cons, Option.filter_some, hc]
    rfl
  cases x with
  | bool _ | int _ | real _ => exact hword rfl
  | text value => rw [jsonAt, toList_jsonString]; rfl
  | list items => cases items <;> simp [jsonAt, opening] <;> decide
  | record fields => cases fields <;> simp [jsonAt, opening] <;> decide

theorem opening_eq_of_append_eq {depth : Nat} {x y : Datum} {u v : List Char}
    (h : (jsonAt depth x).toList ++ u = (jsonAt depth y).toList ++ v) :
    y.opening = x.opening := by
  rw [← filter_head?_jsonAt depth y v, ← h, filter_head?_jsonAt]

/-- A datum can be cut off, at any depth. -/
def Cuts (x : Datum) : Prop :=
  ∀ depth, SelfDelimiting (jsonAt depth) content x

theorem cuts_of_opening_eq_none {x : Datum} (h : x.opening = none) : x.Cuts := by
  intro depth y u v hu hv heq
  obtain ⟨spelling, hspelling, hcontent, hjson⟩ := exists_word h
  obtain ⟨spelling', hspelling', hcontent', hjson'⟩ :=
    exists_word ((opening_eq_of_append_eq heq).trans h)
  rw [hjson, hjson'] at heq
  obtain ⟨rfl, hrest⟩ := hspelling.cut hspelling' hu hv heq
  exact ⟨hcontent.trans hcontent'.symm, hrest⟩

theorem cuts_text (value : String) : (text value).Cuts := by
  intro depth y u v hu hv heq
  have hopening := opening_eq_of_append_eq heq
  cases y with
  | text value' =>
    obtain ⟨rfl, hrest⟩ := jsonString_cut heq
    exact ⟨rfl, hrest⟩
  | _ => cases hopening

theorem Cuts.jsonItem {x : Datum} (h : x.Cuts) (depth : Nat) :
    SelfDelimiting (jsonItem depth) content x := by
  intro y u v hu hv heq
  rw [Datum.jsonItem, Datum.jsonItem, String.toList_append, String.toList_append,
    List.append_assoc, List.append_assoc] at heq
  exact h depth hu hv (List.append_cancel_left heq)

theorem Cuts.jsonField {f : String × Datum} (h : f.2.Cuts) (depth : Nat) :
    SelfDelimiting (jsonField depth) (fun f ↦ (f.1, f.2.content)) f := by
  intro g u v hu hv heq
  simp only [Datum.jsonField, String.toList_append, List.append_assoc] at heq
  obtain ⟨hname, hrest⟩ := jsonString_cut (List.append_cancel_left heq)
  obtain ⟨hcontent, hend⟩ := h depth hu hv (List.append_cancel_left hrest)
  exact ⟨Prod.ext hname hcontent, hend⟩

theorem cuts_list {items : List Datum} (h : ∀ x ∈ items, x.Cuts) : (list items).Cuts := by
  intro depth y u v hu hv heq
  have hopening := opening_eq_of_append_eq heq
  cases y with
  | list items' =>
    rw [jsonAt_list, jsonAt_list] at heq
    obtain ⟨hitems, hrest⟩ := bracketed_cut (by decide) (fun x hx ↦ (h x hx).jsonItem _) heq
    rw [content, content, contentList_eq_map, contentList_eq_map, hitems]
    exact ⟨rfl, hrest⟩
  | _ => cases hopening

theorem cuts_record {fields : List (String × Datum)} (h : ∀ f ∈ fields, f.2.Cuts) :
    (record fields).Cuts := by
  intro depth y u v hu hv heq
  have hopening := opening_eq_of_append_eq heq
  cases y with
  | record fields' =>
    rw [jsonAt_record, jsonAt_record] at heq
    obtain ⟨hfields, hrest⟩ :=
      bracketed_cut (by decide) (fun f hf ↦ Cuts.jsonField (h f hf) _) heq
    rw [content, content, contentFields_eq_map, contentFields_eq_map, hfields]
    exact ⟨rfl, hrest⟩
  | _ => cases hopening

mutual

theorem cuts : (x : Datum) → x.Cuts
  | bool _ | int _ | real _ => cuts_of_opening_eq_none rfl
  | text value => cuts_text value
  | list items => cuts_list (cuts_of_mem items)
  | record fields => cuts_record (cuts_of_mem_fields fields)

theorem cuts_of_mem : (xs : List Datum) → ∀ x ∈ xs, x.Cuts
  | [] => List.forall_mem_nil _
  | x :: xs => List.forall_mem_cons.mpr ⟨cuts x, cuts_of_mem xs⟩

theorem cuts_of_mem_fields : (fields : List (String × Datum)) → ∀ f ∈ fields, f.2.Cuts
  | [] => List.forall_mem_nil _
  | (_, x) :: fields => List.forall_mem_cons.mpr ⟨cuts x, cuts_of_mem_fields fields⟩

end

/-- **JSON texts are unambiguous.** Data with the same text say the same. -/
theorem content_eq_of_toJson_eq {x y : Datum} (h : x.toJson = y.toJson) :
    x.content = y.content := by
  have hbreak : Stops ['\n'] := stops_cons (by decide) []
  refine (cuts x 0 hbreak hbreak ?_).1
  have htext := congrArg String.toList h
  rw [toJson, toJson, String.toList_append, String.toList_append] at htext
  exact htext

end DrawScript.Datum
