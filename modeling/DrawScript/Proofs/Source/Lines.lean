import DrawScript.Converter
import Mathlib.Data.List.Basic
import Mathlib.Data.List.Induction
import Mathlib.Data.List.TakeWhile
import Mathlib.Tactic.SplitIfs

/-!
# The bytes of a text are read back

Reading cuts bytes into lines before it decodes them. On the bytes of a text this is the same as
cutting the text: the byte of a line feed occurs in the code of a line feed only, and the byte of a
carriage return in that of a carriage return. So every text can be read back from its bytes, and
what comes back is the text with one carriage return less before each line feed and with its last
line closed (`read_encode`).

Other bytes cannot be read. Each line is decoded by itself, but the ends of lines that were cut off
are codes of characters too, so lines that can be decoded make up bytes that can be decoded as a
whole (`exists_encode_eq`). Reading is therefore decoding.

`unifyBreaks` says what happens to line breaks without any mention of lines. It takes away one
carriage return at a time, so it is not the identity on its own results: two of them before a line
feed become one.
-/

namespace DrawScript.Source

variable {a b cs : List Char} {c : Char}

/-- The bytes of a text. -/
def encode (text : String) : List UInt8 :=
  text.toUTF8.data.toList

/-- Leaves out every carriage return that stands right before a line feed. -/
def dropReturns : List Char → List Char
  | [] => []
  | c :: cs => if c = '\r' ∧ cs.head? = some '\n' then dropReturns cs else c :: dropReturns cs

/-- The text with every carriage return left out that stands right before a line feed. -/
def unifyBreaks (text : String) : String :=
  String.ofList (dropReturns text.toList)

/-! ## Line breaks -/

theorem length_dropReturns_le (cs : List Char) : (dropReturns cs).length ≤ cs.length := by
  induction cs with
  | nil => exact Nat.le_refl 0
  | cons c cs ih =>
    rw [dropReturns, List.length_cons]
    split_ifs
    · exact Nat.le_succ_of_le ih
    · exact Nat.succ_le_succ ih

/-- Only a text without line breaks of two characters stays as it is. -/
theorem dropReturns_eq_self_iff : dropReturns cs = cs ↔ ¬['\r', '\n'] <:+: cs := by
  induction cs with
  | nil => simp [dropReturns]
  | cons c cs ih =>
    have hhead : ['\r', '\n'] <+: c :: cs ↔ c = '\r' ∧ cs.head? = some '\n' := by
      rw [List.cons_prefix_cons, eq_comm, List.singleton_prefix_iff_head?_eq_some]
    rw [List.infix_cons_iff, hhead, not_or, ← ih, dropReturns]
    by_cases hbreak : c = '\r' ∧ cs.head? = some '\n'
    · have hshorter : dropReturns cs ≠ c :: cs := fun heq ↦ by
        have hle := length_dropReturns_le cs
        rw [heq, List.length_cons] at hle
        exact Nat.not_succ_le_self _ hle
      rw [if_pos hbreak]
      exact iff_of_false hshorter fun h ↦ h.1 hbreak
    · simp [hbreak]

/-- Texts without the one or the other character have no line break of two characters. -/
theorem dropReturns_of_not_mem (h : '\r' ∉ cs ∨ '\n' ∉ cs) : dropReturns cs = cs := by
  refine dropReturns_eq_self_iff.mpr fun hcs ↦ ?_
  rcases h with h | h <;> exact h (hcs.subset (by simp))

/-- The last character stays. -/
theorem getLast?_dropReturns (cs : List Char) : (dropReturns cs).getLast? = cs.getLast? := by
  induction cs with
  | nil => rfl
  | cons c cs ih =>
    rw [dropReturns]
    split_ifs with hbreak
    · obtain ⟨rest, rfl⟩ := List.head?_eq_some_iff.mp hbreak.2
      rw [ih, List.getLast?_cons_cons]
    · rw [List.getLast?_cons, List.getLast?_cons, ih]

/-- Two texts can be treated one by one if no line break of two characters arises where they
meet. -/
theorem dropReturns_append (h : a.getLast? ≠ some '\r' ∨ b.head? ≠ some '\n') :
    dropReturns (a ++ b) = dropReturns a ++ dropReturns b := by
  induction a with
  | nil => rfl
  | cons c a ih =>
    -- whether `c` stays is decided by the next character, which is one of `b` only if `a` is empty
    have hrest : dropReturns (a ++ b) = dropReturns a ++ dropReturns b := by
      cases a with
      | nil => rfl
      | cons d a => exact ih (by rwa [List.getLast?_cons_cons] at h)
    have hhead : (c = '\r' ∧ (a ++ b).head? = some '\n') ↔ c = '\r' ∧ a.head? = some '\n' := by
      cases a with
      | nil =>
        rw [List.getLast?_singleton, Ne, Option.some.injEq, ← not_and_or] at h
        exact iff_of_false h (by simp)
      | cons d a => rfl
    rw [List.cons_append, dropReturns, dropReturns, hrest]
    by_cases hc : c = '\r' ∧ a.head? = some '\n'
    · rw [if_pos hc, if_pos (hhead.mpr hc)]
    · rw [if_neg hc, if_neg (mt hhead.mp hc), List.cons_append]

/-- A line loses the carriage return at its end. -/
def chomp (line : List Char) : List Char :=
  if line.getLast? = some '\r' then line.dropLast else line

theorem chomp_cons (hc : c ≠ '\r') (cs : List Char) : chomp (c :: cs) = c :: chomp cs := by
  cases cs with
  | nil => simp [chomp, hc]
  | cons d cs =>
    rw [chomp, chomp, List.getLast?_cons_cons, List.dropLast_cons_cons]
    split_ifs <;> rfl

theorem chomp_subset (line : List Char) : chomp line ⊆ line := by
  rw [chomp]
  split_ifs
  · exact List.dropLast_subset line
  · exact List.Subset.refl line

theorem dropReturns_append_newline (h : '\n' ∉ a) (b : List Char) :
    dropReturns (a ++ '\n' :: b) = chomp a ++ '\n' :: dropReturns b := by
  have hbreak : dropReturns ('\n' :: b) = '\n' :: dropReturns b := by simp [dropReturns]
  rw [chomp]
  split_ifs with hlast
  · obtain ⟨line, rfl⟩ := List.getLast?_eq_some_iff.mp hlast
    have hreturn : dropReturns ('\r' :: '\n' :: b) = '\n' :: dropReturns b := by
      simp [dropReturns]
    rw [List.append_assoc, List.singleton_append, dropReturns_append (.inr (by simp)), hreturn,
      List.dropLast_concat, dropReturns_of_not_mem (.inr fun hmem ↦ h (by simp [hmem]))]
  · rw [dropReturns_append (.inl hlast), hbreak, dropReturns_of_not_mem (.inr h)]

/-! ## Texts -/

section Texts

variable {text s t : String}

theorem unifyBreaks_eq_self_iff : unifyBreaks text = text ↔ ¬['\r', '\n'] <:+: text.toList := by
  rw [← dropReturns_eq_self_iff, unifyBreaks, ← String.toList_inj, String.toList_ofList]

theorem unifyBreaks_append (h : s.toList.getLast? ≠ some '\r' ∨ t.toList.head? ≠ some '\n') :
    unifyBreaks (s ++ t) = unifyBreaks s ++ unifyBreaks t := by
  rw [unifyBreaks, String.toList_append, dropReturns_append h, String.ofList_append]
  rfl

theorem unifyBreaks_of_not_mem (h : '\r' ∉ text.toList ∨ '\n' ∉ text.toList) :
    unifyBreaks text = text := by
  rw [unifyBreaks, dropReturns_of_not_mem h, String.ofList_toList]

theorem unifyBreaks_append_left (h : '\r' ∉ s.toList) (t : String) :
    unifyBreaks (s ++ t) = s ++ unifyBreaks t := by
  rw [unifyBreaks_append (.inl fun hlast ↦ h (List.mem_of_getLast? hlast)),
    unifyBreaks_of_not_mem (.inl h)]

theorem unifyBreaks_append_right (h : '\n' ∉ t.toList) (s : String) :
    unifyBreaks (s ++ t) = unifyBreaks s ++ t := by
  rw [unifyBreaks_append (.inr fun hhead ↦ h (List.mem_of_mem_head? hhead)),
    unifyBreaks_of_not_mem (.inr h)]

/-- Texts around a mark in between can be treated one by one. -/
theorem unifyBreaks_append_mark {mark : String}
    (h : mark ≠ "" ∧ '\r' ∉ mark.toList ∧ '\n' ∉ mark.toList) (s t : String) :
    unifyBreaks (s ++ mark ++ t) = unifyBreaks s ++ mark ++ unifyBreaks t := by
  obtain ⟨hne, hreturn, hbreak⟩ := h
  have hhead : (mark ++ t).toList.head? ≠ some '\n' := by
    obtain ⟨c, cs, hmark⟩ := List.exists_cons_of_ne_nil (mt String.toList_eq_nil_iff.mp hne)
    rw [String.toList_append, hmark]
    rintro heq
    exact hbreak (by rw [hmark, Option.some.inj heq]; exact List.mem_cons_self)
  rw [String.append_assoc, unifyBreaks_append (.inr hhead), unifyBreaks_append_left hreturn,
    String.append_assoc]

/-- A line loses the carriage return before its line feed. -/
theorem unifyBreaks_append_newline (h : '\n' ∉ s.toList) (t : String) :
    unifyBreaks (s ++ "\n" ++ t)
      = String.ofList (chomp s.toList) ++ "\n" ++ unifyBreaks t := by
  have hlists : (s ++ "\n" ++ t).toList = s.toList ++ '\n' :: t.toList := by simp
  rw [unifyBreaks, hlists, dropReturns_append_newline h, String.ofList_append, String.ofList_cons,
    String.append_assoc]
  rfl

end Texts

/-! ## Closing the last line -/

/-- Every line of the text has its line feed. -/
def IsClosed (cs : List Char) : Prop :=
  cs = [] ∨ cs.getLast? = some '\n'

theorem isClosed_dropReturns : IsClosed (dropReturns cs) ↔ IsClosed cs := by
  rw [IsClosed, IsClosed, ← List.getLast?_eq_none_iff, getLast?_dropReturns,
    List.getLast?_eq_none_iff]

theorem isClosed_append_newline : IsClosed (a ++ '\n' :: b) ↔ IsClosed b := by
  rw [IsClosed, IsClosed, List.getLast?_append_cons]
  cases b with
  | nil => simp
  | cons d b => simp [List.getLast?_cons_cons]

theorem closeLine_of_isClosed {text : String} (h : IsClosed text.toList) :
    Format.closeLine text = text := by
  rw [Format.closeLine, if_pos]
  simpa [IsClosed] using h

theorem closeLine_of_not_isClosed {text : String} (h : ¬IsClosed text.toList) :
    Format.closeLine text = text ++ "\n" := by
  rw [Format.closeLine, if_neg]
  simpa [IsClosed] using h

theorem closeLine_closeLine (text : String) :
    Format.closeLine (Format.closeLine text) = Format.closeLine text := by
  refine closeLine_of_isClosed ?_
  by_cases h : IsClosed text.toList
  · rwa [closeLine_of_isClosed h]
  · rw [closeLine_of_not_isClosed h, String.toList_append]
    exact isClosed_append_newline.mpr (.inl rfl)

/-- Lines that are closed already do not matter. -/
theorem closeLine_append_newline (a b : List Char) :
    Format.closeLine (String.ofList (a ++ '\n' :: b))
      = String.ofList a ++ "\n" ++ Format.closeLine (String.ofList b) := by
  have hsplit : String.ofList (a ++ '\n' :: b) = String.ofList a ++ "\n" ++ String.ofList b := by
    rw [String.ofList_append, String.ofList_cons, String.append_assoc]
    rfl
  by_cases h : IsClosed b
  · rw [closeLine_of_isClosed (by simpa [isClosed_append_newline] using h),
      closeLine_of_isClosed (by simpa using h), hsplit]
  · rw [closeLine_of_not_isClosed (by simpa [isClosed_append_newline] using h),
      closeLine_of_not_isClosed (by simpa using h), hsplit, String.append_assoc]

/-- Line breaks can be unified before or after the last line is closed, if a carriage return does
not become part of a line break by that. -/
theorem unifyBreaks_closeLine {text : String} (h : text.toList.getLast? ≠ some '\r') :
    unifyBreaks (Format.closeLine text) = Format.closeLine (unifyBreaks text) := by
  have hiff : IsClosed (unifyBreaks text).toList ↔ IsClosed text.toList := by
    rw [unifyBreaks, String.toList_ofList, isClosed_dropReturns]
  by_cases hclosed : IsClosed text.toList
  · rw [closeLine_of_isClosed hclosed, closeLine_of_isClosed (hiff.mpr hclosed)]
  · rw [closeLine_of_not_isClosed hclosed, closeLine_of_not_isClosed (mt hiff.mp hclosed),
      unifyBreaks_append (.inl h)]
    rfl

/-! ## The bytes of line breaks -/

/-- A byte below 128 is the code of one character and part of no other. -/
theorem mem_utf8EncodeChar {byte : UInt8} (h : byte.toNat < 128) :
    byte ∈ String.utf8EncodeChar c ↔ c.toNat = byte.toNat := by
  have hbyte : ∀ n, n < 256 → (byte = UInt8.ofNat n ↔ n = byte.toNat) := fun n hn ↦ by
    rw [← UInt8.toNat_inj, UInt8.toNat_ofNat_of_lt' hn, eq_comm]
  have hval : c.toNat = c.val.toNat := rfl
  -- all bytes of a code of two or more bytes are at least 128
  fun_cases String.utf8EncodeChar c with
  | case1 => rw [List.mem_singleton, hbyte _ (by omega), hval]
  | case2 | case3 | case4 =>
    simp only [List.mem_cons, List.not_mem_nil, or_false]
    repeat rw [hbyte _ (by omega)]
    omega

/-- The bytes of the characters of a text, one after the other. -/
def bytesOf (cs : List Char) : List UInt8 :=
  cs.flatMap String.utf8EncodeChar

theorem encode_ofList (cs : List Char) : encode (String.ofList cs) = bytesOf cs := by
  rw [encode, String.toUTF8_eq_toByteArray, String.toByteArray_ofList, List.utf8Encode,
    List.toList_data_toByteArray, bytesOf]

theorem encode_eq_bytesOf (text : String) : encode text = bytesOf text.toList := by
  rw [← encode_ofList, String.ofList_toList]

theorem lineFeed_mem_bytesOf : lineFeed ∈ bytesOf cs ↔ '\n' ∈ cs := by
  have hcode : ∀ d : Char, lineFeed ∈ String.utf8EncodeChar d ↔ d = '\n' := fun d ↦ by
    rw [mem_utf8EncodeChar (by decide), ← Char.toNat_inj]
    rfl
  simp only [bytesOf, List.mem_flatMap, hcode, exists_eq_right]

/-- The last byte is that of a carriage return exactly if the last character is one. -/
theorem getLast?_bytesOf :
    (bytesOf cs).getLast? = some carriageReturn ↔ cs.getLast? = some '\r' := by
  cases cs using List.reverseRecOn with
  | nil => simp [bytesOf]
  | append_singleton cs d =>
    have hcode : (String.utf8EncodeChar d).getLast? = some carriageReturn ↔ d = '\r' := by
      constructor
      · intro hlast
        have hmem := (mem_utf8EncodeChar (by decide)).mp (List.mem_of_getLast? hlast)
        exact Char.toNat_inj.mp hmem
      · rintro rfl
        rfl
    rw [bytesOf, List.flatMap_append, List.flatMap_singleton,
      List.getLast?_append_of_ne_nil _ String.utf8EncodeChar_ne_nil, hcode, List.getLast?_concat,
      Option.some.injEq]

/-! ## Lines of bytes -/

theorem lines_of_not_mem {bytes : List UInt8} (h : lineFeed ∉ bytes) :
    lines bytes = if bytes.isEmpty then [] else [⟨bytes, false⟩] := by
  have hdrop : bytes.dropWhile (· != lineFeed) = [] := by
    rw [List.dropWhile_eq_nil_iff]
    exact fun byte hbyte ↦ bne_iff_ne.mpr fun heq ↦ h (heq ▸ hbyte)
  rw [lines]
  split
  · rfl
  · next hcons => rw [hdrop] at hcons; cases hcons

theorem lines_append {line rest : List UInt8} (h : lineFeed ∉ line) :
    lines (line ++ lineFeed :: rest) = ⟨line, true⟩ :: lines rest := by
  have hne : ∀ byte ∈ line, (byte != lineFeed) = true := fun byte hbyte ↦
    bne_iff_ne.mpr fun heq ↦ h (heq ▸ hbyte)
  have hdrop : (line ++ lineFeed :: rest).dropWhile (· != lineFeed) = lineFeed :: rest := by
    rw [List.dropWhile_append_of_pos hne]
    simp
  have htake : (line ++ lineFeed :: rest).takeWhile (· != lineFeed) = line := by
    rw [List.takeWhile_append_of_pos hne]
    simp
  rw [lines]
  split
  · next hnil => rw [hdrop] at hnil; cases hnil
  · next byte tail hcons =>
    rw [hdrop] at hcons
    obtain ⟨-, rfl⟩ := List.cons.inj hcons
    rw [htake]

theorem fromUTF8?_bytesOf (cs : List Char) :
    String.fromUTF8? ⟨(bytesOf cs).toArray⟩ = some (String.ofList cs) := by
  have hbytes : (⟨(bytesOf cs).toArray⟩ : ByteArray) = (String.ofList cs).toByteArray := by
    rw [← encode_ofList, encode, Array.toArray_toList, String.toUTF8_eq_toByteArray]
  rw [hbytes, String.fromUTF8?, dif_pos (String.ofList cs).isValidUTF8]
  rfl

theorem text?_terminated (cs : List Char) :
    Line.text? ⟨bytesOf cs, true⟩ = some (String.ofList (chomp cs)) := by
  have hcontent : Line.content ⟨bytesOf cs, true⟩ = bytesOf (chomp cs) := by
    by_cases hlast : cs.getLast? = some '\r'
    · rw [Line.content, if_pos ⟨rfl, getLast?_bytesOf.mpr hlast⟩, chomp, if_pos hlast]
      obtain ⟨line, rfl⟩ := List.getLast?_eq_some_iff.mp hlast
      have hcode : bytesOf (line ++ ['\r']) = bytesOf line ++ [carriageReturn] :=
        List.flatMap_append
      rw [hcode, List.dropLast_concat, List.dropLast_concat]
    · rw [Line.content, if_neg (mt (getLast?_bytesOf.mp ·.2) hlast), chomp, if_neg hlast]
  rw [Line.text?, hcontent, fromUTF8?_bytesOf]

theorem text?_unterminated (cs : List Char) :
    Line.text? ⟨bytesOf cs, false⟩ = some (String.ofList cs) := by
  rw [Line.text?, Line.content, if_neg (by simp), fromUTF8?_bytesOf]

/-- Every line of the bytes of a text is a text. The induction takes off the first line. -/
theorem exists_texts (cs : List Char) :
    ∃ texts, (lines (bytesOf cs)).mapM Line.text? = some texts ∧
      String.join (texts.map (· ++ "\n")) = Format.closeLine (String.ofList (dropReturns cs)) := by
  by_cases hcs : '\n' ∈ cs
  · obtain ⟨line, rest, rfl, hline⟩ := List.eq_append_cons_of_mem hcs
    obtain ⟨texts, htexts, hjoin⟩ := exists_texts rest
    have hcode : bytesOf (line ++ '\n' :: rest) = bytesOf line ++ lineFeed :: bytesOf rest :=
      List.flatMap_append
    refine ⟨String.ofList (chomp line) :: texts, ?_, ?_⟩
    · rw [hcode, lines_append (mt lineFeed_mem_bytesOf.mp hline), List.mapM_cons,
        text?_terminated, htexts]
      rfl
    · rw [List.map_cons, String.join_cons, hjoin, dropReturns_append_newline hline,
        closeLine_append_newline]
  · rw [lines_of_not_mem (mt lineFeed_mem_bytesOf.mp hcs), dropReturns_of_not_mem (.inr hcs)]
    cases cs with
    | nil => exact ⟨[], rfl, rfl⟩
    | cons c cs =>
      have hne : ¬((bytesOf (c :: cs)).isEmpty = true) := by
        simp [bytesOf, String.utf8EncodeChar_ne_nil]
      have hopen : ¬IsClosed (String.ofList (c :: cs)).toList := by
        rw [String.toList_ofList]
        rintro (hnil | hlast)
        · cases hnil
        · exact hcs (List.mem_of_getLast? hlast)
      refine ⟨[String.ofList (c :: cs)], ?_, ?_⟩
      · rw [if_neg hne, List.mapM_cons, text?_unterminated]
        rfl
      · rw [closeLine_of_not_isClosed hopen, List.map_singleton, String.join_cons,
          String.join_nil, String.append_empty]
termination_by cs.length
decreasing_by simp [*]; omega

/-- What is written can be read, and what is read is the text with its line breaks unified and its
last line closed. -/
theorem read_encode (text : String) :
    read (encode text) = .ok (Format.closeLine (unifyBreaks text)) := by
  obtain ⟨texts, htexts, hjoin⟩ := exists_texts text.toList
  rw [read, encode_eq_bytesOf, htexts, unifyBreaks, ← hjoin]

/-! ## Bytes that can be read -/

section Bytes

variable {bytes : List UInt8} {text : String}

theorem encode_append (s t : String) : encode (s ++ t) = encode s ++ encode t := by
  rw [encode_eq_bytesOf, encode_eq_bytesOf, encode_eq_bytesOf, String.toList_append, bytesOf,
    List.flatMap_append]
  rfl

/-- The text that the bytes are the code of, if they are valid. -/
def decode (bytes : List UInt8) : Option String :=
  String.fromUTF8? ⟨bytes.toArray⟩

theorem decode_eq_some_iff : decode bytes = some text ↔ encode text = bytes := by
  constructor
  · intro h
    rw [decode, String.fromUTF8?] at h
    split_ifs at h with hvalid
    rw [← Option.some.inj h]
    rfl
  · rintro rfl
    rw [encode_eq_bytesOf, decode, fromUTF8?_bytesOf, String.ofList_toList]

/-- A line that can be decoded without the carriage return at its end can be decoded with it. -/
theorem Line.exists_encode_eq {line : Line} (h : line.text? = some text) :
    ∃ whole, encode whole = line.bytes := by
  have hcontent : encode text = line.content := decode_eq_some_iff.mp h
  rw [Line.content] at hcontent
  split_ifs at hcontent with hreturn
  · refine ⟨text ++ "\r", ?_⟩
    rw [encode_append, hcontent]
    exact List.dropLast_append_getLast? _ hreturn.2
  · exact ⟨text, hcontent⟩

/-- Bytes whose lines can all be decoded are the code of a text. The induction takes off the first
line. -/
theorem exists_encode_eq (bytes : List UInt8) {texts : List String}
    (h : (lines bytes).mapM Line.text? = some texts) : ∃ text, encode text = bytes := by
  by_cases hbytes : lineFeed ∈ bytes
  · obtain ⟨line, rest, rfl, hline⟩ := List.eq_append_cons_of_mem hbytes
    rw [lines_append hline, List.mapM_cons] at h
    obtain ⟨first, hfirst, h⟩ := Option.bind_eq_some_iff.mp h
    obtain ⟨others, hothers, -⟩ := Option.bind_eq_some_iff.mp h
    obtain ⟨whole, hwhole⟩ := Line.exists_encode_eq hfirst
    obtain ⟨more, hmore⟩ := exists_encode_eq rest hothers
    refine ⟨whole ++ "\n" ++ more, ?_⟩
    rw [encode_append, encode_append, hwhole, hmore, List.append_assoc]
    rfl
  · rw [lines_of_not_mem hbytes] at h
    split_ifs at h with hempty
    · exact ⟨"", (List.isEmpty_iff.mp hempty).symm⟩
    · rw [List.mapM_cons] at h
      obtain ⟨only, honly, -⟩ := Option.bind_eq_some_iff.mp h
      exact Line.exists_encode_eq honly
termination_by bytes.length
decreasing_by simp [*]; omega

/-- **Reading line by line is decoding as a whole.** Bytes can be read exactly if they are the code
of a text, and what is read is that text with one carriage return less before each line feed and
with its last line closed. -/
theorem read_eq_decode (bytes : List UInt8) :
    read bytes = match decode bytes with
      | some text => .ok (Format.closeLine (unifyBreaks text))
      | none => .error .invalidData := by
  cases hdecode : decode bytes with
  | some text =>
    rw [decode_eq_some_iff] at hdecode
    rw [← hdecode, read_encode]
  | none =>
    rw [read]
    cases hlines : (lines bytes).mapM Line.text? with
    | none => rfl
    | some texts =>
      obtain ⟨text, htext⟩ := exists_encode_eq bytes hlines
      rw [decode_eq_some_iff.mpr htext] at hdecode
      cases hdecode

/-- A line feed in the middle of a code breaks it, and does not end up in it. -/
example : read [0xc3, 0x0a, 0xa9] = .error .invalidData := by decide +kernel

end Bytes

end DrawScript.Source
