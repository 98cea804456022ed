import DrawScript.Proofs.Token.Places

/-!
# A text, piece by piece

Scanning counts down the characters that a token has claimed, which is how it recurses on the text
alone. For proofs it is easier to see a text as a row of pieces, each a blank or the text of a
token: `piecewise` is the induction over such rows, and `scan_blank` and `scan_leads` say what
scanning makes of the first piece.

Strings get a description of their own. Between its quotes a string has a *content*, a row of plain
characters and of escapes, and `Content` relates it to the value that it stands for. Looking for the
partner of a quote is looking for a content (`munchString_eq_some_iff`).
-/

namespace DrawScript.Token

variable {c quote : Char} {kind : Kind} {cs text rest : List Char} {n offset : Nat}

/-! ## Pieces -/

theorem byteLength_concat (before : List Char) (c : Char) :
    byteLength (before ++ [c]) = byteLength before + c.utf8Size := by
  rw [byteLength_append, byteLength_cons, byteLength_nil, Nat.add_zero]

/-- A text that goes on with `rest` begins with a token of this kind and this text. -/
def Leads (kind : Kind) (text rest : List Char) : Prop :=
  ∃ c part, text = c :: part ∧ isBlank c = false ∧ munch c (part ++ rest) = (kind, part.length)

theorem Leads.ne_nil (h : Leads kind text rest) : text ≠ [] := by
  obtain ⟨c, part, rfl, -, -⟩ := h
  exact List.cons_ne_nil _ _

/-- Where no blank stands, a token begins. -/
theorem leads_munch (hc : isBlank c = false) (cs : List Char) :
    Leads (munch c cs).1 (c :: cs.take (munch c cs).2) (cs.drop (munch c cs).2) := by
  refine ⟨c, cs.take (munch c cs).2, rfl, hc, ?_⟩
  have hle := (reading_munch c).le_length cs
  rw [List.take_append_drop, List.length_take, Nat.min_eq_left hle]

theorem scan_blank (hc : isBlank c = true) (offset : Nat) (cs : List Char) :
    scan 0 offset (c :: cs) = scan 0 (offset + c.utf8Size) cs := by
  rw [scan, if_pos hc]

theorem scan_of_not_blank (hc : isBlank c = false) (offset : Nat) (cs : List Char) :
    scan 0 offset (c :: cs)
      = ofText (munch c cs).1 offset (c :: cs.take (munch c cs).2)
        :: scan 0 (offset + byteLength (c :: cs.take (munch c cs).2)) (cs.drop (munch c cs).2) := by
  rw [scan, if_neg (by rw [hc]; decide)]
  dsimp only
  rw [scan_skip, byteLength_cons, Nat.add_assoc]

theorem scan_leads (h : Leads kind text rest) (offset : Nat) :
    scan 0 offset (text ++ rest)
      = ofText kind offset text :: scan 0 (offset + byteLength text) rest := by
  obtain ⟨c, part, rfl, hc, hmunch⟩ := h
  rw [List.cons_append, scan_of_not_blank hc, hmunch, List.take_left, List.drop_left]

/-- A cursor before a token reads it and stands behind it then. -/
theorem Leads.next_cursor (h : Leads kind text rest) (offset : Nat) :
    Cursor.next ⟨offset, text ++ rest⟩
      = (ofText kind offset text, ⟨offset + byteLength text, rest⟩) := by
  obtain ⟨c, part, rfl, hc, hmunch⟩ := h
  have hstay : Cursor.skipBlanks ⟨offset, c :: (part ++ rest)⟩
      = ⟨offset, c :: (part ++ rest)⟩ := by
    simp [Cursor.skipBlanks, Cursor.skip, hc]
  rw [List.cons_append, Cursor.next, hstay]
  simp only [hmunch, Cursor.skip, List.take_succ_cons, List.drop_succ_cons, List.take_left,
    List.drop_left]

/-- **Induction over the pieces of a text.** -/
@[elab_as_elim]
theorem piecewise {motive : List Char → Prop} (nil : motive [])
    (blank : ∀ c cs, isBlank c = true → motive cs → motive (c :: cs))
    (token : ∀ kind text rest, Leads kind text rest → motive rest → motive (text ++ rest))
    (cs : List Char) : motive cs := by
  -- the text of a token is not empty, so what is behind a piece is shorter
  induction hlength : cs.length using Nat.strong_induction_on generalizing cs with
  | _ n ih =>
    cases cs with
    | nil => exact nil
    | cons c cs =>
      cases hc : isBlank c with
      | true => exact blank c cs hc (ih cs.length (by rw [← hlength]; simp) cs rfl)
      | false =>
        have hshorter : (cs.drop (munch c cs).2).length < n := by
          rw [← hlength, List.length_drop, List.length_cons]
          omega
        have hmore := token _ _ _ (leads_munch hc cs) (ih _ hshorter _ rfl)
        rwa [List.cons_append, List.take_append_drop] at hmore

/-- Every token of a text begins a part of it. -/
theorem exists_leads_of_mem_scan {t : Token} (h : t ∈ scan 0 offset cs) :
    ∃ before kind text rest, cs = before ++ (text ++ rest) ∧ Leads kind text rest ∧
      t = ofText kind (offset + byteLength before) text := by
  induction cs using piecewise generalizing offset with
  | nil => exact absurd h List.not_mem_nil
  | blank c cs hc ih =>
    rw [scan_blank hc] at h
    obtain ⟨before, kind, text, rest, rfl, hleads, ht⟩ := ih h
    exact ⟨c :: before, kind, text, rest, rfl, hleads,
      by rw [ht, byteLength_cons, Nat.add_assoc]⟩
  | token kind text rest hleads ih =>
    rw [scan_leads hleads] at h
    rcases List.mem_cons.mp h with rfl | h
    · exact ⟨[], kind, text, rest, rfl, hleads, rfl⟩
    · obtain ⟨before, kind', text', rest', rfl, hleads', ht⟩ := ih h
      exact ⟨text ++ before, kind', text', rest', (List.append_assoc _ _ _).symm, hleads',
        by rw [ht, byteLength_append, Nat.add_assoc]⟩

/-! ## Strings -/

/-- What stands between the quotes of a string, and the value that it stands for. A backslash and
the character behind it stand for that character, which is no line break; every other character
stands for itself and is neither a backslash nor the quote. -/
inductive Content (quote : Char) : List Char → List Char → Prop
  | nil : Content quote [] []
  | escape {c : Char} {cs value : List Char} (hc : c ≠ '\n') (more : Content quote cs value) :
      Content quote ('\\' :: c :: cs) (c :: value)
  | plain {c : Char} {cs value : List Char} (hslash : c ≠ '\\') (hquote : c ≠ quote)
      (more : Content quote cs value) : Content quote (c :: cs) (c :: value)

theorem Content.unescape_eq {content value : List Char} (h : Content quote content value) :
    unescape content = value := by
  induction h with
  | nil => rfl
  | escape hc more ih => rw [unescape, ih]
  | plain hslash hquote more ih =>
    rw [unescape, ih]
    · exact fun _ _ heq ↦ absurd heq hslash
    · exact fun heq ↦ absurd heq hslash

theorem Content.munchString_eq {content value : List Char} (h : Content quote content value)
    (hquote : quote ≠ '\\') (rest : List Char) :
    munchString quote (content ++ quote :: rest) = some (content.length + 1) := by
  induction h with
  | nil => rw [List.nil_append, munchString_cons hquote, if_pos rfl]; rfl
  | escape hc more ih => simp [munchString, hc, ih]
  | plain hslash hne more ih => simp [munchString_cons hslash, hne, ih]

/-- The partner of a quote stands behind a content. -/
theorem munchString_eq_some_iff (hquote : quote ≠ '\\') :
    munchString quote cs = some n ↔ ∃ content value rest, cs = content ++ quote :: rest ∧
      n = content.length + 1 ∧ Content quote content value := by
  constructor
  · intro h
    fun_induction munchString quote cs generalizing n with
    | case1 => cases h
    | case2 => cases h
    | case3 => cases h
    | case4 c rest hc ih =>
      obtain ⟨m, hm, rfl⟩ := Option.map_eq_some_iff.mp h
      obtain ⟨content, value, rest', rfl, rfl, hcontent⟩ := ih hm
      exact ⟨'\\' :: c :: content, c :: value, rest', rfl, rfl, .escape hc hcontent⟩
    | case5 rest =>
      obtain rfl := Option.some.inj h
      exact ⟨[], [], rest, rfl, rfl, .nil⟩
    | case6 c rest hend hmore hne ih =>
      have hslash : c ≠ '\\' := ne_backslash_of_unmatched hend hmore
      obtain ⟨m, hm, rfl⟩ := Option.map_eq_some_iff.mp h
      obtain ⟨content, value, rest', rfl, rfl, hcontent⟩ := ih hm
      exact ⟨c :: content, c :: value, rest', rfl, rfl, .plain hslash hne hcontent⟩
  · rintro ⟨content, value, rest, rfl, rfl, hcontent⟩
    exact hcontent.munchString_eq hquote rest

/-! ## What the kind of a token tells -/

theorem wordKind_cases (word : List Char) :
    wordKind word = .trueWord ∨ wordKind word = .falseWord ∨ wordKind word = .function ∨
      wordKind word = .ident := by
  unfold wordKind
  split_ifs <;> simp

theorem ne_backslash_of_quote (hquote : quote = '"' ∨ quote = '\'') : quote ≠ '\\' := by
  rcases hquote with rfl | rfl <;> decide

theorem munch_quote (hquote : quote = '"' ∨ quote = '\'') (cs : List Char) :
    munch quote cs = (munchString quote cs).elim (.illegal, 0) fun n ↦ (.string, n) := by
  rcases hquote with rfl | rfl <;> rfl

/-- Only a quote begins a string, and only one character is ever illegal. -/
theorem munch_string_and_illegal (c : Char) (cs : List Char) :
    ((munch c cs).1 = .string → (c = '"' ∨ c = '\'') ∧ munchString c cs = some (munch c cs).2) ∧
      ((munch c cs).1 = .illegal → (munch c cs).2 = 0) := by
  unfold munch
  split
  · rcases wordKind_cases (c :: cs.takeWhile isNamePart) with h | h | h | h <;> simp [h]
  split
  · rw [munchNumber_eq]
    split_ifs <;> simp
  split
  case h_2 => cases munchString '"' cs <;> simp
  case h_3 => cases munchString '\'' cs <;> simp
  case h_12 => split_ifs <;> simp
  case h_17 => split_ifs <;> simp
  all_goals simp

/-- The text of a string is a content between two quotes. -/
theorem Leads.exists_content (h : Leads .string text rest) :
    ∃ quote content value, (quote = '"' ∨ quote = '\'') ∧ text = quote :: (content ++ [quote]) ∧
      Content quote content value := by
  obtain ⟨quote, part, rfl, -, hmunch⟩ := h
  obtain ⟨hquote, hstring⟩ := (munch_string_and_illegal quote (part ++ rest)).1 (by rw [hmunch])
  rw [hmunch, munchString_eq_some_iff (ne_backslash_of_quote hquote)] at hstring
  obtain ⟨content, value, rest', heq, hlength, hcontent⟩ := hstring
  -- the part behind the quote is as long as the content and its closing quote
  have hpart : part = content ++ [quote] := by
    rw [← List.singleton_append, ← List.append_assoc] at heq
    exact List.append_inj_left heq (by rw [List.length_append]; exact hlength)
  exact ⟨quote, content, value, hquote, by rw [hpart], hcontent⟩

/-- An illegal token is a single character. -/
theorem Leads.exists_char (h : Leads .illegal text rest) : ∃ c, text = [c] := by
  obtain ⟨c, part, rfl, -, hmunch⟩ := h
  have hzero := (munch_string_and_illegal c (part ++ rest)).2 (by rw [hmunch])
  rw [hmunch] at hzero
  exact ⟨c, by rw [List.eq_nil_of_length_eq_zero hzero]⟩

theorem Leads.spelled (h : Leads kind text rest) (offset : Nat) :
    (ofText kind offset text).Spelled := by
  obtain ⟨c, part, rfl, -, hmunch⟩ := h
  have hspelled := spelled_munch offset c (part ++ rest)
  rwa [hmunch, List.take_left] at hspelled

end DrawScript.Token
