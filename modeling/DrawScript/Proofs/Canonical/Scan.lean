import DrawScript.Proofs.Token.Pieces
import DrawScript.Proofs.Tree.Unplaced
import DrawScript.Proofs.Tree.WellFormed

/-!
# Scanning canonical text

Canonical text is put together from the texts of tokens and from blanks. `ScansTo` says of a text
what scanning makes of it wherever it stands, given what follows it; texts in a row are scanned one
after the other (`ScansTo.append`), so a canonical text need not be looked at as a whole.

What follows matters because scanning takes as much as it can: a name goes on through letters, an
integer through a point with digits behind it, an exclamation mark through an equals sign. `Stops`
is enough to keep names and numbers apart from what follows, and everything that canonical text puts
behind an expression satisfies it. A string literal asks nothing of what follows, since the quote
that ends it is the first one that is not escaped (`leads_string`).
-/

namespace DrawScript.Token

/-! ## Texts in a row -/

/-- The tokens are a single one, which differs from `t` in its place alone. -/
def Copies (t : Token) (ts : List Token) : Prop :=
  ∃ u : Token, ts = [u] ∧ u.unplaced = t.unplaced

/-- Wherever `text` stands before `rest`, scanning makes tokens of it for which `P` holds and goes
on with `rest`. -/
def ScansTo (text : List Char) (P : List Token → Prop) (rest : List Char) : Prop :=
  ∀ offset, ∃ ts, P ts ∧
    scan 0 offset (text ++ rest) = ts ++ scan 0 (offset + byteLength text) rest

variable {text text' rest : List Char} {P Q : List Token → Prop}

theorem ScansTo.nil (rest : List Char) : ScansTo [] (· = []) rest :=
  fun _ ↦ ⟨[], rfl, rfl⟩

/-- The tokens fall into two parts. -/
def Seq (P Q : List Token → Prop) (ts : List Token) : Prop :=
  ∃ us vs, ts = us ++ vs ∧ P us ∧ Q vs

/-- Texts in a row are scanned one after the other. -/
theorem ScansTo.append (h : ScansTo text P (text' ++ rest)) (h' : ScansTo text' Q rest) :
    ScansTo (text ++ text') (Seq P Q) rest := by
  intro offset
  obtain ⟨ts, hts, hscan⟩ := h offset
  obtain ⟨us, hus, hscan'⟩ := h' (offset + byteLength text)
  refine ⟨ts ++ us, ⟨ts, us, rfl, hts, hus⟩, ?_⟩
  rw [List.append_assoc, hscan, hscan', List.append_assoc, byteLength_append, Nat.add_assoc]

theorem ScansTo.imp (h : ScansTo text P rest) (hPQ : ∀ ts, P ts → Q ts) : ScansTo text Q rest := by
  intro offset
  obtain ⟨ts, hts, hscan⟩ := h offset
  exact ⟨ts, hPQ ts hts, hscan⟩

/-- Blanks leave no token. -/
theorem ScansTo.blank {c : Char} (hc : isBlank c = true) (h : ScansTo text P rest) :
    ScansTo (c :: text) P rest := by
  intro offset
  obtain ⟨ts, hts, hscan⟩ := h (offset + c.utf8Size)
  refine ⟨ts, hts, ?_⟩
  rw [List.cons_append, scan, if_pos hc, hscan, byteLength_cons, Nat.add_assoc]

/-- A text that is munched as a whole is one token. -/
theorem scansTo_of_munch {c : Char} {cs : List Char} {kind : Kind} (hblank : isBlank c = false)
    (hmunch : munch c (cs ++ rest) = (kind, cs.length)) {t : Token} (hkind : t.kind = kind)
    (hlexeme : t.lexeme = lexemeOf kind (c :: cs)) :
    ScansTo (c :: cs) (Copies t) rest := by
  intro offset
  refine ⟨[ofText kind offset (c :: cs)], ⟨_, rfl, ?_⟩, ?_⟩
  · rw [unplaced, unplaced, hkind, hlexeme]
    rfl
  · rw [List.cons_append, scan, if_neg (by rw [hblank]; exact Bool.false_ne_true)]
    simp only [hmunch]
    rw [List.take_left, scan_skip, List.take_left, List.drop_left, byteLength_cons, Nat.add_assoc]
    rfl

/-! ## What may follow -/

/-- Neither a name nor a number goes on here. -/
structure Stops (rest : List Char) : Prop where
  word : ∀ c ∈ rest.head?, isNamePart c = false
  point : ∀ c cs, rest = '.' :: c :: cs → isDigit c = false

theorem stops_nil : Stops [] :=
  ⟨fun _ h ↦ absurd h (Option.not_mem_none _), fun _ _ h ↦ absurd h (List.cons_ne_nil _ _).symm⟩

theorem stops_cons {c : Char} (hc : isNamePart c = false) (hpoint : c ≠ '.') (cs : List Char) :
    Stops (c :: cs) := by
  refine ⟨fun d hd ↦ ?_, fun d ds h ↦ absurd (List.cons.inj h).1 hpoint⟩
  obtain rfl := Option.some.inj hd
  exact hc

theorem stops_point {c : Char} (hc : isDigit c = false) (cs : List Char) :
    Stops ('.' :: c :: cs) := by
  refine ⟨fun d hd ↦ ?_, fun d ds h ↦ ?_⟩
  · obtain rfl := Option.some.inj hd
    decide
  · obtain rfl := (List.cons.inj (List.cons.inj h).2).1
    exact hc

theorem Stops.digit (h : Stops rest) : ∀ c ∈ rest.head?, isDigit c = false := by
  intro c hc
  have hpart := h.word c hc
  rw [isNamePart, Bool.or_eq_false_iff] at hpart
  exact hpart.2

/-- A text that needs to stop before what follows it. -/
theorem ScansTo.prepend (h' : ScansTo text' Q rest) (h : ∀ rest, Stops rest → ScansTo text P rest)
    (hstops : Stops (text' ++ rest)) : ScansTo (text ++ text') (Seq P Q) rest :=
  (h _ hstops).append h'

theorem isBlank_cases {c : Char} (h : isBlank c = true) :
    c = ' ' ∨ c = '\t' ∨ c = '\r' ∨ c = '\n' ∨ c = '\x0c' := by
  simpa [isBlank, or_assoc] using h

theorem stops_blank {c : Char} (h : isBlank c = true) (cs : List Char) : Stops (c :: cs) := by
  rcases isBlank_cases h with rfl | rfl | rfl | rfl | rfl <;>
    exact stops_cons (by decide) (by decide) cs

theorem stops_point_blank {c : Char} (h : isBlank c = true) (cs : List Char) :
    Stops ('.' :: c :: cs) := by
  rcases isBlank_cases h with rfl | rfl | rfl | rfl | rfl <;> exact stops_point (by decide) cs

/-! ## Words -/

theorem isBlank_of_isNameStart {c : Char} (h : isNameStart c = true) : isBlank c = false := by
  by_contra hblank
  rw [Bool.not_eq_false] at hblank
  revert h
  rcases isBlank_cases hblank with rfl | rfl | rfl | rfl | rfl <;> decide

theorem takeWhile_append_of_stops {p : Char → Bool} {cs : List Char} (hcs : ∀ c ∈ cs, p c = true)
    (hrest : ∀ c ∈ rest.head?, p c = false) : (cs ++ rest).takeWhile p = cs := by
  rw [List.takeWhile_append_of_pos hcs]
  cases rest with
  | nil => exact List.append_nil cs
  | cons c rest => rw [List.takeWhile_cons_of_neg (by simp [hrest c rfl]), List.append_nil]

theorem dropWhile_append_of_stops {p : Char → Bool} {cs : List Char} (hcs : ∀ c ∈ cs, p c = true)
    (hrest : ∀ c ∈ rest.head?, p c = false) : (cs ++ rest).dropWhile p = rest := by
  rw [List.dropWhile_append_of_pos hcs]
  cases rest with
  | nil => rfl
  | cons c rest => rw [List.dropWhile_cons_of_neg (by simp [hrest c rfl])]

theorem munch_word {c : Char} {cs : List Char} (hc : isNameStart c = true)
    (hcs : ∀ d ∈ cs, isNamePart d = true) (hrest : Stops rest) :
    munch c (cs ++ rest) = (wordKind (c :: cs), cs.length) := by
  unfold munch
  rw [if_pos hc, takeWhile_append_of_stops hcs hrest.word]

/-- A name that is no keyword is an identifier. -/
theorem wordKind_of_not_keyword {cs : List Char} (h : String.ofList cs ∉ keywords) :
    wordKind cs = .ident := by
  rw [wordKind, if_neg, if_neg, if_neg]
  all_goals
    rintro rfl
    exact h (by decide)

/-! ## Numbers -/

theorem isNameStart_of_isDigit {c : Char} (h : isDigit c = true) : isNameStart c = false := by
  rw [isDigit, Bool.and_eq_true, decide_eq_true_eq, decide_eq_true_eq] at h
  have hnine : c.toNat ≤ 57 := h.2
  by_contra hname
  rw [Bool.not_eq_false] at hname
  simp only [isNameStart, Bool.or_eq_true, Bool.and_eq_true, decide_eq_true_eq, beq_iff_eq] at hname
  rcases hname with (⟨hA, -⟩ | ⟨ha, -⟩) | rfl
  · have hupper : 65 ≤ c.toNat := hA
    omega
  · have hlower : 97 ≤ c.toNat := ha
    omega
  · revert hnine
    decide

theorem isBlank_of_isDigit {c : Char} (h : isDigit c = true) : isBlank c = false := by
  by_contra hblank
  rw [Bool.not_eq_false] at hblank
  revert h
  rcases isBlank_cases hblank with rfl | rfl | rfl | rfl | rfl <;> decide

theorem munch_digit {c : Char} (h : isDigit c = true) (cs : List Char) :
    munch c cs = munchNumber cs := by
  unfold munch
  rw [if_neg (by rw [isNameStart_of_isDigit h]; exact Bool.false_ne_true), if_pos h]

theorem munchNumber_digits {cs : List Char} (hcs : ∀ d ∈ cs, isDigit d = true)
    (hrest : Stops rest) : munchNumber (cs ++ rest) = (.int, cs.length) := by
  unfold munchNumber
  rw [takeWhile_append_of_stops hcs hrest.digit, dropWhile_append_of_stops hcs hrest.digit]
  split
  · next d ds => rw [if_neg (by rw [hrest.point d ds rfl]; exact Bool.false_ne_true)]
  · rfl

theorem munchNumber_point {cs ds : List Char} {d : Char} (hcs : ∀ c ∈ cs, isDigit c = true)
    (hd : isDigit d = true) (hds : ∀ c ∈ ds, isDigit c = true) (hrest : Stops rest) :
    munchNumber (cs ++ '.' :: d :: ds ++ rest) = (.float, (cs ++ '.' :: d :: ds).length) := by
  -- the first run of digits ends at the point, whatever comes behind it
  have hpoint : ∀ c ∈ ('.' :: d :: (ds ++ rest)).head?, isDigit c = false := by
    intro c hc
    obtain rfl := Option.some.inj hc
    decide
  rw [List.append_assoc, List.cons_append, List.cons_append]
  unfold munchNumber
  rw [takeWhile_append_of_stops hcs hpoint, dropWhile_append_of_stops hcs hpoint]
  simp only [if_pos hd]
  rw [takeWhile_append_of_stops hds hrest.digit, List.length_append, List.length_cons,
    List.length_cons, Nat.add_assoc, Nat.add_comm 2]

/-! ## Other tokens -/

theorem munch_comment {cs : List Char} (hcs : '\n' ∉ cs) (hrest : ∀ c ∈ rest.head?, c = '\n') :
    munch '%' (cs ++ rest) = (.comment, cs.length) := by
  have hline : (cs ++ rest).takeWhile (· != '\n') = cs := by
    refine takeWhile_append_of_stops (fun c hc ↦ ?_) fun c hc ↦ ?_
    · exact bne_iff_ne.mpr fun h ↦ hcs (h ▸ hc)
    · rw [hrest c hc]
      decide
  rw [show munch '%' (cs ++ rest)
    = (.comment, ((cs ++ rest).takeWhile (· != '\n')).length) from rfl, hline]

/-- Escaping a text gives a content that stands for it. -/
theorem content_escape (cs : List Char) : Content '"' (StringLiteral.escape cs) cs := by
  induction cs with
  | nil => exact .nil
  | cons c cs ih =>
    rw [StringLiteral.escape]
    split_ifs with hescaped
    · exact .escape (by rcases hescaped with rfl | rfl <;> decide) ih
    · rw [not_or] at hescaped
      exact .plain hescaped.2 hescaped.1 ih

/-! ## The texts of tokens -/

/-- The kinds whose tokens have the same text everywhere, whatever follows them. -/
def marks : List Kind :=
  [.lparen, .rparen, .lbrace, .rbrace, .lbracket, .rbracket, .comma, .period, .minus, .plus,
    .slash, .asterisk, .eq, .notEq, .lt, .gt]

/-- The token of a kind that has a fixed text, without a place. -/
def mark (kind : Kind) : Token :=
  ⟨kind, kind.name, ⟨0, 0⟩⟩

theorem scansTo_mark {kind : Kind} (h : kind ∈ marks) (rest : List Char) :
    ScansTo kind.name.toList (Copies (mark kind)) rest := by
  simp only [marks, List.mem_cons, List.not_mem_nil, or_false] at h
  rcases h with rfl | rfl | rfl | rfl | rfl | rfl | rfl | rfl | rfl | rfl | rfl | rfl | rfl | rfl |
    rfl | rfl <;> exact scansTo_of_munch (by decide) rfl rfl rfl

/-- A mark of one character before a text. -/
theorem ScansTo.mark (c : Char) (kind : Kind) (hmem : kind ∈ marks)
    (hname : kind.name.toList = [c]) (h : ScansTo text P rest) :
    ScansTo (c :: text) (Seq (Copies (mark kind)) P) rest := by
  have hmark := scansTo_mark hmem (text ++ rest)
  rw [hname] at hmark
  exact hmark.append h

/-- An exclamation mark must not run into an equals sign. -/
theorem scansTo_bang (h : rest.head? ≠ some '=') :
    ScansTo Kind.bang.name.toList (Copies (mark .bang)) rest := by
  have hmunch : munch '!' ([] ++ rest) = (.bang, 0) := by
    rw [List.nil_append, show munch '!' rest
      = if rest.head? = some '=' then (.notEq, 1) else (.bang, 0) from rfl, if_neg h]
  exact scansTo_of_munch (by decide) hmunch rfl rfl

theorem Spelled.unplaced_eq_mark {t : Token} (ht : t.Spelled)
    (h : t.kind ∈ marks ∨ t.kind = .bang) : t.unplaced = mark t.kind := by
  obtain ⟨kind, lexeme, span⟩ := t
  have hlexeme : lexeme = kind.name := by
    simp only [marks, List.mem_cons, List.not_mem_nil, or_false] at h
    rcases h with (rfl | rfl | rfl | rfl | rfl | rfl | rfl | rfl | rfl | rfl | rfl | rfl | rfl |
      rfl | rfl | rfl) | rfl <;> exact ht
  rw [hlexeme]
  rfl

theorem Copies.of_mark {t : Token} {ts : List Token} (h : Copies (mark t.kind) ts)
    (ht : t.Spelled) (hkind : t.kind ∈ marks ∨ t.kind = .bang) : Copies t ts := by
  obtain ⟨u, rfl, hu⟩ := h
  exact ⟨u, rfl, hu.trans (ht.unplaced_eq_mark hkind).symm⟩

theorem Copies.of_isA {t : Token} {ts : List Token} {kind : Kind} (h : Copies (mark kind) ts)
    (ht : t.IsA kind) (hkind : kind ∈ marks) : Copies t ts := by
  obtain ⟨rfl, hspelled⟩ := ht
  exact h.of_mark hspelled (.inl hkind)

/-- A word is scanned back, be it a name or a keyword. -/
theorem scansTo_word {t : Token} {c : Char} {cs : List Char} (hlexeme : t.lexeme.toList = c :: cs)
    (hc : isNameStart c = true) (hcs : ∀ d ∈ cs, isNamePart d = true)
    (hkind : t.kind = wordKind (c :: cs)) (hrest : Stops rest) :
    ScansTo t.lexeme.toList (Copies t) rest := by
  rw [hlexeme]
  refine scansTo_of_munch (isBlank_of_isNameStart hc) (munch_word hc hcs hrest) hkind ?_
  -- only the lexeme of a string differs from its text
  have hstring : wordKind (c :: cs) ≠ .string := by
    rw [wordKind]
    split_ifs <;> decide
  rw [← String.ofList_toList (s := t.lexeme), hlexeme]
  cases hword : wordKind (c :: cs) with
  | string => exact absurd hword hstring
  | _ => rfl

theorem scansTo_integer {t : Token} (hkind : t.kind = .int) (ht : t.Spelled) (hrest : Stops rest) :
    ScansTo t.lexeme.toList (Copies t) rest := by
  rw [Spelled, hkind] at ht
  obtain ⟨hne, hdigits⟩ := ht
  obtain ⟨c, cs, hlexeme⟩ := List.exists_cons_of_ne_nil hne
  rw [hlexeme] at hdigits ⊢
  have hc := hdigits c (List.mem_cons_self ..)
  refine scansTo_of_munch (isBlank_of_isDigit hc) ?_ hkind ?_
  · rw [munch_digit hc, munchNumber_digits (fun d hd ↦ hdigits d (List.mem_cons_of_mem c hd)) hrest]
  · rw [← String.ofList_toList (s := t.lexeme), hlexeme]
    rfl

theorem scansTo_real {t : Token} (hkind : t.kind = .float) (ht : t.Spelled) (hrest : Stops rest) :
    ScansTo t.lexeme.toList (Copies t) rest := by
  rw [Spelled, hkind] at ht
  obtain ⟨whole, fraction, ⟨hne, hwhole⟩, ⟨hne', hfraction⟩, hlexeme⟩ := ht
  obtain ⟨c, cs, rfl⟩ := List.exists_cons_of_ne_nil hne
  obtain ⟨d, ds, rfl⟩ := List.exists_cons_of_ne_nil hne'
  have hc := hwhole c (List.mem_cons_self ..)
  rw [hlexeme]
  refine scansTo_of_munch (isBlank_of_isDigit hc) ?_ hkind ?_
  · rw [munch_digit hc]
    exact munchNumber_point (fun e he ↦ hwhole e (List.mem_cons_of_mem c he))
      (hfraction d (List.mem_cons_self ..)) (fun e he ↦ hfraction e (List.mem_cons_of_mem d he))
      hrest
  · rw [← String.ofList_toList (s := t.lexeme), hlexeme]
    rfl

theorem scansTo_identifier {t : Token} (hkind : t.kind = .ident) (ht : t.Spelled)
    (hrest : Stops rest) : ScansTo t.lexeme.toList (Copies t) rest := by
  rw [Spelled, hkind] at ht
  obtain ⟨⟨c, cs, hlexeme, hc, hcs⟩, hkeyword⟩ := ht
  refine scansTo_word hlexeme hc hcs ?_ hrest
  rw [← hlexeme, wordKind_of_not_keyword (by rwa [String.ofList_toList]), hkind]

/-- A keyword is a name that has a kind of its own. -/
theorem scansTo_keyword {t : Token} {word : String} (hword : word ∈ keywords)
    (hkind : t.kind = wordKind word.toList) (hlexeme : t.lexeme = word) (hrest : Stops rest) :
    ScansTo t.lexeme.toList (Copies t) rest := by
  have hname : IsName word.toList := by
    simp only [keywords, List.mem_cons, List.not_mem_nil, or_false] at hword
    rcases hword with rfl | rfl | rfl
    · exact ⟨'t', ['r', 'u', 'e'], rfl, rfl, List.all_eq_true.mp rfl⟩
    · exact ⟨'f', ['a', 'l', 's', 'e'], rfl, rfl, List.all_eq_true.mp rfl⟩
    · exact ⟨'f', ['n'], rfl, rfl, List.all_eq_true.mp rfl⟩
  obtain ⟨c, cs, hcons, hc, hcs⟩ := hname
  rw [hcons] at hkind
  exact scansTo_word (by rw [hlexeme, hcons]) hc hcs hkind hrest

/-- The kinds of names, keywords and numbers. -/
def wordKinds : List Kind :=
  [.ident, .int, .float, .trueWord, .falseWord, .function]

/-- Names, keywords and numbers are scanned back wherever they stop. -/
theorem Spelled.scansTo {t : Token} (ht : t.Spelled) (hkind : t.kind ∈ wordKinds)
    (hrest : Stops rest) : ScansTo t.lexeme.toList (Copies t) rest := by
  simp only [wordKinds, List.mem_cons, List.not_mem_nil, or_false] at hkind
  rcases hkind with hkind | hkind | hkind | hkind | hkind | hkind
  · exact scansTo_identifier hkind ht hrest
  · exact scansTo_integer hkind ht hrest
  · exact scansTo_real hkind ht hrest
  all_goals
    rw [Spelled, hkind] at ht
    exact scansTo_keyword (by rw [ht]; decide) (by rw [hkind, ht]; rfl) rfl hrest

/-- Names, keywords and numbers begin with a letter, an underscore or a digit. -/
theorem Spelled.exists_cons {t : Token} (ht : t.Spelled) (hkind : t.kind ∈ wordKinds) :
    ∃ c cs, t.lexeme.toList = c :: cs ∧ isNamePart c = true := by
  simp only [wordKinds, List.mem_cons, List.not_mem_nil, or_false] at hkind
  rcases hkind with hkind | hkind | hkind | hkind | hkind | hkind <;> rw [Spelled, hkind] at ht
  · obtain ⟨⟨c, cs, hlexeme, hc, -⟩, -⟩ := ht
    exact ⟨c, cs, hlexeme, by rw [isNamePart, hc, Bool.true_or]⟩
  · obtain ⟨c, cs, hlexeme⟩ := List.exists_cons_of_ne_nil ht.1
    have hc := ht.2 c (by rw [hlexeme]; exact List.mem_cons_self ..)
    exact ⟨c, cs, hlexeme, by rw [isNamePart, hc, Bool.or_true]⟩
  · obtain ⟨whole, fraction, hwhole, -, hlexeme⟩ := ht
    obtain ⟨c, cs, rfl⟩ := List.exists_cons_of_ne_nil hwhole.1
    have hc := hwhole.2 c (List.mem_cons_self ..)
    exact ⟨c, _, hlexeme, by rw [isNamePart, hc, Bool.or_true]⟩
  · exact ⟨'t', ['r', 'u', 'e'], by rw [ht]; rfl, by decide⟩
  · exact ⟨'f', ['a', 'l', 's', 'e'], by rw [ht]; rfl, by decide⟩
  · exact ⟨'f', ['n'], by rw [ht]; rfl, by decide⟩

theorem toList_render_string (value : String) :
    (StringLiteral.render value).toList = '"' :: (StringLiteral.escape value.toList ++ ['"']) := by
  simp [StringLiteral.render]

/-- A string literal is a token, whatever follows it. -/
theorem leads_string (value : String) (rest : List Char) :
    Leads .string (StringLiteral.render value).toList rest := by
  refine ⟨'"', StringLiteral.escape value.toList ++ ['"'], toList_render_string value, by decide,
    ?_⟩
  rw [List.append_assoc, List.singleton_append, munch_quote (.inl rfl),
    (content_escape _).munchString_eq (by decide), List.length_append]
  rfl

/-- A string literal decodes to its value. -/
theorem lexemeOf_render_string (value : String) :
    lexemeOf .string (StringLiteral.render value).toList = value := by
  rw [toList_render_string, lexemeOf, List.tail_cons, List.dropLast_concat,
    (content_escape _).unescape_eq, String.ofList_toList]

theorem scansTo_string {t : Token} (hkind : t.kind = .string) (rest : List Char) :
    ScansTo (StringLiteral.render t.lexeme).toList (Copies t) rest := by
  intro offset
  refine ⟨[ofText .string offset (StringLiteral.render t.lexeme).toList], ⟨_, rfl, ?_⟩,
    scan_leads (leads_string t.lexeme rest) offset⟩
  rw [unplaced, unplaced, hkind, ofText, lexemeOf_render_string]

/-- **A string literal ends where it ends.** Whatever follows the canonical text of a string, the
first token is a string that has the value for its lexeme and covers just the literal. A cursor goes
on right behind it, and the other tokens are those of what follows, moved. -/
theorem tokenize_render_string (value rest : String) :
    tokenize (StringLiteral.render value ++ rest)
        = ⟨.string, value, ⟨0, (StringLiteral.render value).utf8ByteSize⟩⟩
          :: (tokenize rest).map (relocate (.shift (StringLiteral.render value).utf8ByteSize)) ∧
      (Cursor.ofSource (StringLiteral.render value ++ rest)).next
        = (⟨.string, value, ⟨0, (StringLiteral.render value).utf8ByteSize⟩⟩,
          ⟨(StringLiteral.render value).utf8ByteSize, rest.toList⟩) := by
  have hleads := leads_string value rest.toList
  have htoken : ofText .string 0 (StringLiteral.render value).toList
      = ⟨.string, value, ⟨0, (StringLiteral.render value).utf8ByteSize⟩⟩ := by
    rw [ofText, lexemeOf_render_string, Nat.zero_add, utf8ByteSize_eq_byteLength]
  rw [tokenize, tokenize, Cursor.ofSource, String.toList_append, scan_leads hleads,
    hleads.next_cursor, htoken, ← utf8ByteSize_eq_byteLength, scan_add, String.utf8ByteSize_append,
    List.map_append, Nat.add_comm (StringLiteral.render value).utf8ByteSize]
  simp [Relocation.shift]

/-- A backslash, a line break and a quote, before a quote that has no partner. -/
example :
    tokenize (StringLiteral.render "\\\n\"" ++ "\"")
      = [⟨.string, "\\\n\"", ⟨0, 7⟩⟩, ⟨.illegal, "\"", ⟨7, 8⟩⟩, eof 8] := by
  decide

theorem scansTo_comment {t : Token} (hkind : t.kind = .comment) (ht : t.Spelled)
    (hrest : ∀ c ∈ rest.head?, c = '\n') : ScansTo t.lexeme.toList (Copies t) rest := by
  rw [Spelled, hkind] at ht
  obtain ⟨cs, hlexeme, hcs⟩ := ht
  rw [hlexeme]
  refine scansTo_of_munch (by decide) (munch_comment hcs hrest) hkind ?_
  rw [← String.ofList_toList (s := t.lexeme), hlexeme]
  rfl

end DrawScript.Token
