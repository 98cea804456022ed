import DrawScript.Proofs.Token.Pieces
import DrawScript.Proofs.Canonical.Scan
import Mathlib.Computability.Language

/-!
# Scanning as longest match

What a token may look like is a regular language for each kind (`Kind.pattern`), and the rule of the
scanner is one sentence: behind the blanks, the longest text that belongs to any of the languages is
the next token, a keyword before a name, and a character that begins none of them is illegal.
`Lexes` states this rule with no regard to how it is carried out, and scanning is the one function
that follows it (`lexes_iff`).

The two directions meet in a single fact about `munch`. Whatever word of a pattern a text begins
with, `munch` reaches at least to the end of that word (`munch_of_mem_pattern`), and where it
reaches is itself the end of a word of its own pattern (`Leads.mem_pattern`). Backtracking does not
come up: that a point with a digit behind it makes a longer number, or that the partner of a quote
is missing, is part of how far the longest word reaches.

For strings the rule is also given in terms of positions. A character is escaped if a backslash that
is not escaped itself stands before it, and a string ends at the first quote that is not escaped,
unless a line break is escaped on the way (`Closes`).
-/

open scoped Computability

namespace DrawScript.Token

variable {c quote : Char} {kind : Kind} {part text rest cs : List Char} {n offset : Nat}
  {ts : List Token}

/-! ## Patterns -/

/-- A single character between two others. -/
def between (first last : Char) : Language Char :=
  {w | ∃ c, first ≤ c ∧ c ≤ last ∧ w = [c]}

/-- A single character that is none of these. -/
def noneOf (excluded : List Char) : Language Char :=
  {w | ∃ c, c ∉ excluded ∧ w = [c]}

/-- A fixed text. -/
def exactly (text : String) : Language Char :=
  {text.toList}

/-- A letter or an underscore. -/
def letter : Language Char :=
  between 'A' 'Z' + between 'a' 'z' + exactly "_"

/-- A decimal digit. -/
def digit : Language Char :=
  between '0' '9'

/-- Text between two quotes. A backslash takes the next character along, which may be any character
but a line break. -/
def quoted (quote : Char) : Language Char :=
  exactly (String.singleton quote) *
    (noneOf [quote, '\\'] + exactly "\\" * noneOf ['\n'])∗ * exactly (String.singleton quote)

/-- The texts that tokens of a kind can have. The end mark and illegal tokens have none. -/
def Kind.pattern : Kind → Language Char
  | .ident => letter * (letter + digit)∗
  | .int => digit * digit∗
  | .float => digit * digit∗ * exactly "." * (digit * digit∗)
  | .string => quoted '"' + quoted '\''
  | .trueWord => exactly "true"
  | .falseWord => exactly "false"
  | .function => exactly "fn"
  | .comment => exactly "%" * (noneOf ['\n'])∗
  | .lparen => exactly "("
  | .rparen => exactly ")"
  | .lbrace => exactly "\x7b"
  | .rbrace => exactly "\x7d"
  | .lbracket => exactly "["
  | .rbracket => exactly "]"
  | .comma => exactly ","
  | .period => exactly "."
  | .bang => exactly "!"
  | .minus => exactly "-"
  | .plus => exactly "+"
  | .slash => exactly "/"
  | .asterisk => exactly "*"
  | .eq => exactly "=="
  | .notEq => exactly "!="
  | .lt => exactly "<"
  | .gt => exactly ">"
  | .eof | .illegal => 0

/-! ## The rule -/

/-- Of all words of all patterns that a text begins with, `text` is the longest, and if it is both a
name and a keyword, its kind is that of the keyword. -/
structure LongestMatch (kind : Kind) (text rest : List Char) : Prop where
  ne_nil : text ≠ []
  mem : text ∈ kind.pattern
  longest : ∀ (kind' : Kind) (text' : List Char), text' <+: text ++ rest → text' ∈ kind'.pattern →
    text'.length ≤ text.length
  preferred : ∀ kind' : Kind, text ∈ kind'.pattern → kind' = kind ∨ kind' = .ident

/-- No word of a pattern begins here. -/
def NoMatch (cs : List Char) : Prop :=
  ∀ (kind : Kind) (text : List Char), text <+: cs → text ∈ kind.pattern → text = []

/-- The text that begins at byte `offset` has these tokens: blanks are passed over, the longest
match is the next token, and where there is none, a single character is. -/
inductive Lexes : (offset : Nat) → List Char → List Token → Prop
  | done (offset : Nat) : Lexes offset [] []
  | blank {offset : Nat} {c : Char} {cs : List Char} {ts : List Token} (hc : isBlank c = true)
      (more : Lexes (offset + c.utf8Size) cs ts) : Lexes offset (c :: cs) ts
  | token {offset : Nat} {kind : Kind} {text rest : List Char} {ts : List Token}
      (first : LongestMatch kind text rest) (more : Lexes (offset + byteLength text) rest ts) :
      Lexes offset (text ++ rest) (ofText kind offset text :: ts)
  | illegal {offset : Nat} {c : Char} {cs : List Char} {ts : List Token} (hc : isBlank c = false)
      (none : NoMatch (c :: cs)) (more : Lexes (offset + c.utf8Size) cs ts) :
      Lexes offset (c :: cs) (ofText .illegal offset [c] :: ts)

/-! ## Words of patterns -/

theorem mem_exactly {text : String} : cs ∈ exactly text ↔ cs = text.toList := Iff.rfl

theorem mem_noneOf {excluded : List Char} :
    cs ∈ noneOf excluded ↔ ∃ c, c ∉ excluded ∧ cs = [c] := Iff.rfl

theorem mem_digit : cs ∈ digit ↔ ∃ c, isDigit c = true ∧ cs = [c] := by
  constructor
  · rintro ⟨c, hzero, hnine, rfl⟩
    exact ⟨c, by simp [isDigit, hzero, hnine], rfl⟩
  · rintro ⟨c, hc, rfl⟩
    simp only [isDigit, Bool.and_eq_true, decide_eq_true_eq] at hc
    exact ⟨c, hc.1, hc.2, rfl⟩

theorem mem_letter : cs ∈ letter ↔ ∃ c, isNameStart c = true ∧ cs = [c] := by
  simp only [letter, Language.mem_add, mem_exactly, isNameStart, Bool.or_eq_true, Bool.and_eq_true,
    decide_eq_true_eq, beq_iff_eq]
  constructor
  · rintro ((⟨c, hfirst, hlast, rfl⟩ | ⟨c, hfirst, hlast, rfl⟩) | rfl)
    · exact ⟨c, .inl (.inl ⟨hfirst, hlast⟩), rfl⟩
    · exact ⟨c, .inl (.inr ⟨hfirst, hlast⟩), rfl⟩
    · exact ⟨'_', .inr rfl, rfl⟩
  · rintro ⟨c, (⟨hfirst, hlast⟩ | ⟨hfirst, hlast⟩) | rfl, rfl⟩
    · exact .inl (.inl ⟨c, hfirst, hlast, rfl⟩)
    · exact .inl (.inr ⟨c, hfirst, hlast, rfl⟩)
    · exact .inr rfl

/-- A language of single characters, repeated. -/
theorem mem_kstar_iff_forall {p : Char → Prop} {l : Language Char}
    (hl : ∀ w, w ∈ l ↔ ∃ c, p c ∧ w = [c]) : cs ∈ l∗ ↔ ∀ c ∈ cs, p c := by
  rw [Language.mem_kstar]
  constructor
  · rintro ⟨ws, rfl, hws⟩ c hc
    obtain ⟨w, hw, hcw⟩ := List.mem_flatten.mp hc
    obtain ⟨d, hd, rfl⟩ := (hl w).mp (hws w hw)
    rwa [List.mem_singleton.mp hcw]
  · intro hcs
    refine ⟨cs.map ([·]), by rw [← List.flatMap_def, List.flatMap_singleton'], fun w hw ↦ ?_⟩
    obtain ⟨c, hc, rfl⟩ := List.mem_map.mp hw
    exact (hl _).mpr ⟨c, hcs c hc, rfl⟩

/-- A character of a class, and then characters of another class. -/
theorem mem_mul_kstar_iff {p q : Char → Prop} {l m : Language Char}
    (hl : ∀ w, w ∈ l ↔ ∃ c, p c ∧ w = [c]) (hm : ∀ w, w ∈ m ↔ ∃ c, q c ∧ w = [c]) :
    cs ∈ l * m∗ ↔ ∃ c part, cs = c :: part ∧ p c ∧ ∀ d ∈ part, q d := by
  rw [Language.mem_mul]
  constructor
  · rintro ⟨w, hw, part, hpart, rfl⟩
    obtain ⟨c, hc, rfl⟩ := (hl w).mp hw
    exact ⟨c, part, rfl, hc, (mem_kstar_iff_forall hm).mp hpart⟩
  · rintro ⟨c, part, rfl, hc, hpart⟩
    exact ⟨[c], (hl _).mpr ⟨c, hc, rfl⟩, part, (mem_kstar_iff_forall hm).mpr hpart, rfl⟩

theorem mem_pattern_ident : cs ∈ Kind.ident.pattern ↔ IsName cs := by
  refine mem_mul_kstar_iff (fun _ ↦ mem_letter) fun w ↦ ?_
  simp only [Language.mem_add, mem_letter, mem_digit, isNamePart, Bool.or_eq_true, ← exists_or,
    or_and_right]

theorem mem_digits : cs ∈ digit * digit∗ ↔ IsDigits cs := by
  rw [mem_mul_kstar_iff (fun _ ↦ mem_digit) fun _ ↦ mem_digit]
  constructor
  · rintro ⟨c, part, rfl, hc, hpart⟩
    exact ⟨List.cons_ne_nil _ _, List.forall_mem_cons.mpr ⟨hc, hpart⟩⟩
  · rintro ⟨hne, hdigits⟩
    obtain ⟨c, part, rfl⟩ := List.exists_cons_of_ne_nil hne
    obtain ⟨hc, hpart⟩ := List.forall_mem_cons.mp hdigits
    exact ⟨c, part, rfl, hc, hpart⟩

theorem mem_pattern_float : cs ∈ Kind.float.pattern ↔ ∃ whole fraction, IsDigits whole ∧
    IsDigits fraction ∧ cs = whole ++ '.' :: fraction := by
  constructor
  · intro h
    obtain ⟨w, hw, fraction, hfraction, rfl⟩ := Language.mem_mul.mp h
    obtain ⟨whole, hwhole, point, rfl, rfl⟩ := Language.mem_mul.mp hw
    refine ⟨whole, fraction, mem_digits.mp hwhole, mem_digits.mp hfraction, ?_⟩
    rw [List.append_assoc]
    rfl
  · rintro ⟨whole, fraction, hwhole, hfraction, rfl⟩
    have hpoint : whole ++ ['.'] ∈ digit * digit∗ * exactly "." :=
      Language.append_mem_mul (mem_digits.mpr hwhole) rfl
    have hall := Language.append_mem_mul hpoint (mem_digits.mpr hfraction)
    rwa [List.append_assoc] at hall

theorem mem_pattern_comment :
    cs ∈ Kind.comment.pattern ↔ ∃ part, cs = '%' :: part ∧ '\n' ∉ part := by
  have hline : ∀ w, w ∈ noneOf ['\n'] ↔ ∃ c, c ≠ '\n' ∧ w = [c] := fun w ↦ by
    simp only [mem_noneOf, List.mem_singleton]
  rw [Kind.pattern, mem_mul_kstar_iff (p := (· = '%')) (fun w ↦ by simp [mem_exactly]) hline]
  constructor
  · rintro ⟨c, part, rfl, rfl, hpart⟩
    exact ⟨part, rfl, fun h ↦ hpart _ h rfl⟩
  · rintro ⟨part, rfl, hpart⟩
    exact ⟨'%', part, rfl, rfl, fun d hd heq ↦ hpart (heq ▸ hd)⟩

/-- The part of the pattern between the quotes has the contents of strings as its words. -/
theorem mem_content :
    cs ∈ (noneOf [quote, '\\'] + exactly "\\" * noneOf ['\n'])∗ ↔
      ∃ value, Content quote cs value := by
  constructor
  · intro h
    obtain ⟨ws, rfl, hws⟩ := Language.mem_kstar.mp h
    clear h
    induction ws with
    | nil => exact ⟨[], .nil⟩
    | cons w ws ih =>
      obtain ⟨hw, hmore⟩ := List.forall_mem_cons.mp hws
      obtain ⟨value, hcontent⟩ := ih hmore
      rcases (Language.mem_add ..).mp hw with ⟨c, hc, rfl⟩ | hescape
      · simp only [List.mem_cons, List.not_mem_nil, or_false, not_or] at hc
        exact ⟨c :: value, .plain hc.2 hc.1 hcontent⟩
      · obtain ⟨slash, rfl, w, ⟨c, hc, rfl⟩, rfl⟩ := Language.mem_mul.mp hescape
        exact ⟨c :: value, .escape (by simpa using hc) hcontent⟩
  · rintro ⟨value, hcontent⟩
    rw [Language.mem_kstar]
    induction hcontent with
    | nil => exact ⟨[], rfl, fun w hw ↦ absurd hw List.not_mem_nil⟩
    | @escape c cs value hc more ih =>
      obtain ⟨ws, rfl, hws⟩ := ih
      refine ⟨['\\', c] :: ws, rfl, List.forall_mem_cons.mpr ⟨.inr ?_, hws⟩⟩
      exact Language.append_mem_mul (a := ['\\']) rfl ⟨c, by simpa using hc, rfl⟩
    | @plain c cs value hslash hquote more ih =>
      obtain ⟨ws, rfl, hws⟩ := ih
      refine ⟨[c] :: ws, rfl, List.forall_mem_cons.mpr ⟨.inl ⟨c, ?_, rfl⟩, hws⟩⟩
      simp [hslash, hquote]

theorem mem_quoted : cs ∈ quoted quote ↔
    ∃ content value, cs = quote :: (content ++ [quote]) ∧ Content quote content value := by
  constructor
  · intro h
    obtain ⟨w, hw, close, hclose, rfl⟩ := Language.mem_mul.mp h
    obtain ⟨opening, hopening, content, hcontent, rfl⟩ := Language.mem_mul.mp hw
    rw [mem_exactly, String.toList_singleton] at hclose hopening
    obtain ⟨value, hvalue⟩ := mem_content.mp hcontent
    exact ⟨content, value, by rw [hopening, hclose]; rfl, hvalue⟩
  · rintro ⟨content, value, rfl, hvalue⟩
    have hquote : [quote] ∈ exactly (String.singleton quote) := by
      rw [mem_exactly, String.toList_singleton]
    exact Language.append_mem_mul
      (Language.append_mem_mul hquote (mem_content.mpr ⟨value, hvalue⟩)) hquote

theorem mem_pattern_string : cs ∈ Kind.string.pattern ↔ ∃ quote content value,
    (quote = '"' ∨ quote = '\'') ∧ cs = quote :: (content ++ [quote]) ∧
      Content quote content value := by
  rw [Kind.pattern, Language.mem_add, mem_quoted, mem_quoted]
  constructor
  · rintro (⟨content, value, rfl, hcontent⟩ | ⟨content, value, rfl, hcontent⟩)
    · exact ⟨'"', content, value, .inl rfl, rfl, hcontent⟩
    · exact ⟨'\'', content, value, .inr rfl, rfl, hcontent⟩
  · rintro ⟨quote, content, value, rfl | rfl, rfl, hcontent⟩
    · exact .inl ⟨content, value, rfl, hcontent⟩
    · exact .inr ⟨content, value, rfl, hcontent⟩

/-! ## What is munched is a word -/

/-- The text of every token that is not illegal is a word of the pattern of its kind. -/
theorem Leads.mem_pattern (h : Leads kind text rest) (hlegal : kind ≠ .illegal) :
    text ∈ kind.pattern := by
  have hspelled := h.spelled 0
  have hlexeme : (String.ofList text).toList = text := String.toList_ofList
  cases kind with
  | ident => exact mem_pattern_ident.mpr (hlexeme ▸ hspelled.1)
  | int => exact mem_digits.mpr (hlexeme ▸ hspelled)
  | float =>
    obtain ⟨whole, fraction, hwhole, hfraction, heq⟩ := hspelled
    exact mem_pattern_float.mpr ⟨whole, fraction, hwhole, hfraction, hlexeme.symm.trans heq⟩
  | string => exact mem_pattern_string.mpr h.exists_content
  | comment =>
    obtain ⟨part, heq, hpart⟩ := hspelled
    exact mem_pattern_comment.mpr ⟨part, hlexeme.symm.trans heq, hpart⟩
  | eof => exact hspelled.elim
  | illegal => exact absurd rfl hlegal
  | _ => exact hlexeme.symm.trans (congrArg String.toList hspelled)

/-! ## Every word is reached -/

/-- A token with `n` characters behind its first one is at least as long as a word of this kind with
`length` characters there, and of the same kind if it is not longer, unless the word is a name. -/
structure ReachesOver (kind : Kind) (length : Nat) (token : Kind × Nat) : Prop where
  legal : token.1 ≠ .illegal
  le : length ≤ token.2
  kind_eq : token.2 = length → token.1 = kind ∨ kind = .ident

theorem reachesOver_word (hname : IsName (c :: part))
    (hkind : wordKind (c :: part) = kind ∨ kind = .ident) (rest : List Char) :
    ReachesOver kind part.length (munch c (part ++ rest)) := by
  obtain ⟨d, ds, heq, hstart, hpart⟩ := hname
  obtain ⟨rfl, rfl⟩ := List.cons.inj heq
  have hmunch : munch c (part ++ rest)
      = (wordKind (c :: (part ++ rest.takeWhile isNamePart)),
        (part ++ rest.takeWhile isNamePart).length) := by
    unfold munch
    rw [if_pos hstart, List.takeWhile_append_of_pos hpart]
  rw [hmunch, List.length_append]
  refine ⟨?_, Nat.le_add_right _ _, fun hlength ↦ ?_⟩
  · rcases wordKind_cases (c :: (part ++ rest.takeWhile isNamePart)) with h | h | h | h <;>
      simp [h]
  · have hnil := List.eq_nil_of_length_eq_zero (Nat.add_eq_left.mp hlength)
    rwa [hnil, List.append_nil]

theorem reachesOver_int (hdigits : IsDigits (c :: part)) (rest : List Char) :
    ReachesOver .int part.length (munch c (part ++ rest)) := by
  obtain ⟨hc, hpart⟩ := List.forall_mem_cons.mp hdigits.2
  rw [munch_digit hc, munchNumber_eq, List.takeWhile_append_of_pos hpart, List.length_append]
  refine ⟨by dsimp only; split_ifs <;> simp, by dsimp only; omega, fun hlength ↦ .inl ?_⟩
  exact if_pos (by dsimp only at hlength; omega)

theorem reachesOver_float {whole fraction : List Char} (hwhole : IsDigits (c :: whole))
    (hfraction : IsDigits fraction) (rest : List Char) :
    ReachesOver .float (whole ++ '.' :: fraction).length
      (munch c (whole ++ '.' :: fraction ++ rest)) := by
  obtain ⟨hc, hdigits⟩ := List.forall_mem_cons.mp hwhole.2
  obtain ⟨d, ds, rfl⟩ := List.exists_cons_of_ne_nil hfraction.1
  obtain ⟨hd, hds⟩ := List.forall_mem_cons.mp hfraction.2
  have hpoint : ∀ c ∈ ('.' :: d :: (ds ++ rest)).head?, isDigit c = false := by
    intro c hc
    obtain rfl := Option.some.inj hc
    decide
  rw [munch_digit hc, List.append_assoc, List.cons_append, List.cons_append, munchNumber]
  rw [takeWhile_append_of_stops hdigits hpoint, dropWhile_append_of_stops hdigits hpoint]
  simp only [if_pos hd, List.takeWhile_append_of_pos hds]
  refine ⟨Kind.noConfusion, ?_, fun _ ↦ .inl rfl⟩
  simp only [List.length_append, List.length_cons]
  omega

theorem reachesOver_string {content value : List Char} (hquote : quote = '"' ∨ quote = '\'')
    (hcontent : Content quote content value) (rest : List Char) :
    ReachesOver .string (content ++ [quote]).length (munch quote (content ++ [quote] ++ rest)) := by
  have hstring := hcontent.munchString_eq (ne_backslash_of_quote hquote) rest
  have hmunch : munch quote (content ++ [quote] ++ rest)
      = (.string, (content ++ [quote]).length) := by
    rw [List.append_assoc, List.singleton_append, List.length_append, munch_quote hquote, hstring]
    rfl
  rw [hmunch]
  exact ⟨Kind.noConfusion, Nat.le_refl _, fun _ ↦ .inl rfl⟩

theorem reachesOver_comment (hpart : '\n' ∉ part) (rest : List Char) :
    ReachesOver .comment part.length (munch '%' (part ++ rest)) := by
  have hline : ∀ d ∈ part, (d != '\n') = true := fun d hd ↦ bne_iff_ne.mpr fun h ↦ hpart (h ▸ hd)
  refine ⟨Kind.noConfusion, ?_, fun _ ↦ .inl rfl⟩
  change part.length ≤ ((part ++ rest).takeWhile (· != '\n')).length
  rw [List.takeWhile_append_of_pos hline, List.length_append]
  exact Nat.le_add_right _ _

theorem cons_mem_exactly {text : String} {d : Char} {ds : List Char}
    (h : c :: part ∈ exactly text) (htext : text.toList = d :: ds) : c = d ∧ part = ds :=
  List.cons.inj (h.trans htext)

/-- Whatever word of a pattern a text begins with, the token there reaches over it. -/
theorem munch_of_mem_pattern (h : c :: part ∈ kind.pattern) (rest : List Char) :
    isBlank c = false ∧ ReachesOver kind part.length (munch c (part ++ rest)) := by
  have hword : ∀ kind, IsName (c :: part) → wordKind (c :: part) = kind ∨ kind = .ident →
      isBlank c = false ∧ ReachesOver kind part.length (munch c (part ++ rest)) := by
    intro kind hname hkind
    refine ⟨?_, reachesOver_word hname hkind rest⟩
    obtain ⟨d, ds, heq, hstart, -⟩ := hname
    obtain ⟨rfl, -⟩ := List.cons.inj heq
    exact isBlank_of_isNameStart hstart
  cases kind with
  | ident => exact hword _ (mem_pattern_ident.mp h) (.inr rfl)
  | trueWord =>
    obtain ⟨rfl, rfl⟩ := cons_mem_exactly h rfl
    exact hword _ ⟨'t', ['r', 'u', 'e'], rfl, by decide, List.all_eq_true.mp rfl⟩ (.inl rfl)
  | falseWord =>
    obtain ⟨rfl, rfl⟩ := cons_mem_exactly h rfl
    exact hword _ ⟨'f', ['a', 'l', 's', 'e'], rfl, by decide, List.all_eq_true.mp rfl⟩ (.inl rfl)
  | function =>
    obtain ⟨rfl, rfl⟩ := cons_mem_exactly h rfl
    exact hword _ ⟨'f', ['n'], rfl, by decide, List.all_eq_true.mp rfl⟩ (.inl rfl)
  | int =>
    have hdigits := mem_digits.mp h
    exact ⟨isBlank_of_isDigit (List.forall_mem_cons.mp hdigits.2).1, reachesOver_int hdigits rest⟩
  | float =>
    obtain ⟨whole, fraction, hwhole, hfraction, heq⟩ := mem_pattern_float.mp h
    obtain ⟨d, ds, rfl⟩ := List.exists_cons_of_ne_nil hwhole.1
    obtain ⟨rfl, rfl⟩ := List.cons.inj heq
    exact ⟨isBlank_of_isDigit (List.forall_mem_cons.mp hwhole.2).1,
      reachesOver_float hwhole hfraction rest⟩
  | string =>
    obtain ⟨quote, content, value, hquote, heq, hcontent⟩ := mem_pattern_string.mp h
    obtain ⟨rfl, rfl⟩ := List.cons.inj heq
    exact ⟨by rcases hquote with rfl | rfl <;> decide, reachesOver_string hquote hcontent rest⟩
  | comment =>
    obtain ⟨ds, heq, hpart⟩ := mem_pattern_comment.mp h
    obtain ⟨rfl, rfl⟩ := List.cons.inj heq
    exact ⟨by decide, reachesOver_comment hpart rest⟩
  -- an exclamation mark alone reaches further if an equals sign follows
  | bang =>
    obtain ⟨rfl, rfl⟩ := cons_mem_exactly h rfl
    refine ⟨by decide, ?_⟩
    change ReachesOver .bang 0 (if rest.head? = some '=' then (.notEq, 1) else (.bang, 0))
    split_ifs
    · exact ⟨Kind.noConfusion, Nat.zero_le _, fun hlength ↦ absurd hlength (by decide)⟩
    · exact ⟨Kind.noConfusion, Nat.zero_le _, fun _ ↦ .inl rfl⟩
  | eof => exact absurd h (Language.notMem_zero _)
  | illegal => exact absurd h (Language.notMem_zero _)
  | _ =>
    obtain ⟨rfl, rfl⟩ := cons_mem_exactly h rfl
    exact ⟨by decide, Kind.noConfusion, Nat.le_refl _, fun _ ↦ .inl rfl⟩

/-! ## Scanning follows the rule -/

/-- A prefix that is a word of a pattern is not longer than the token. -/
theorem Leads.length_le (h : Leads kind text rest) {kind' : Kind} {text' : List Char}
    (htext' : text' <+: text ++ rest) (hmem : text' ∈ kind'.pattern) :
    text'.length ≤ text.length := by
  obtain ⟨c, part, rfl, -, hmunch⟩ := h
  cases text' with
  | nil => exact Nat.zero_le _
  | cons d part' =>
    obtain ⟨rest', heq⟩ := htext'
    rw [List.cons_append, List.cons_append, List.cons.injEq] at heq
    obtain ⟨rfl, heq⟩ := heq
    have hreach := (munch_of_mem_pattern hmem rest').2.le
    rw [heq, hmunch] at hreach
    exact Nat.succ_le_succ hreach

/-- The token at the head of a text is the longest match there. -/
theorem longestMatch_iff :
    LongestMatch kind text rest ↔ Leads kind text rest ∧ kind ≠ .illegal := by
  constructor
  · rintro ⟨hne, hmem, hlongest, hpreferred⟩
    obtain ⟨c, part, rfl⟩ := List.exists_cons_of_ne_nil hne
    obtain ⟨hblank, hreach⟩ := munch_of_mem_pattern hmem rest
    -- the token there is a word as well, so it cannot be longer than the longest one
    have hleads := leads_munch hblank (part ++ rest)
    have hle := hlongest _ _ (by
      rw [List.cons_append, List.prefix_cons_inj]
      exact List.take_prefix _ _) (hleads.mem_pattern hreach.legal)
    have hlength : (munch c (part ++ rest)).2 = part.length := by
      have hfits := (reading_munch c).le_length (part ++ rest)
      have hreached := hreach.le
      rw [List.length_cons, List.length_cons, List.length_take] at hle
      omega
    have hsame : Leads (munch c (part ++ rest)).1 (c :: part) rest :=
      ⟨c, part, rfl, hblank, by rw [← hlength]⟩
    have hkind : (munch c (part ++ rest)).1 = kind := by
      rcases hreach.kind_eq hlength with hkind | rfl
      · exact hkind
      · exact (hpreferred _ (hsame.mem_pattern hreach.legal)).elim id id
    exact ⟨hkind ▸ hsame, hkind ▸ hreach.legal⟩
  · rintro ⟨h, hlegal⟩
    refine ⟨h.ne_nil, h.mem_pattern hlegal, fun kind' text' ↦ h.length_le, fun kind' hmem ↦ ?_⟩
    obtain ⟨c, part, rfl, -, hmunch⟩ := h
    have hreach := (munch_of_mem_pattern hmem rest).2.kind_eq
    rw [hmunch] at hreach
    exact (hreach rfl).imp_left Eq.symm

/-- A character is illegal if no word begins there, and only then. -/
theorem noMatch_iff (hc : isBlank c = false) (cs : List Char) :
    NoMatch (c :: cs) ↔ Leads .illegal [c] cs := by
  constructor
  · intro hnone
    have hleads := leads_munch hc cs
    have hkind : (munch c cs).1 = .illegal := by
      by_contra hlegal
      refine absurd (hnone _ _ ?_ (hleads.mem_pattern hlegal)) hleads.ne_nil
      rw [List.prefix_cons_inj]
      exact List.take_prefix _ _
    have hlength := (munch_string_and_illegal c cs).2 hkind
    exact ⟨c, [], rfl, hc, Prod.ext hkind hlength⟩
  · rintro ⟨d, part, heq, -, hmunch⟩ kind text htext hmem
    obtain ⟨rfl, rfl⟩ := List.cons.inj heq
    cases text with
    | nil => rfl
    | cons d part =>
      obtain ⟨rest, heq⟩ := htext
      rw [List.cons_append, List.cons.injEq] at heq
      obtain ⟨rfl, rfl⟩ := heq
      have hlegal := (munch_of_mem_pattern hmem rest).2.legal
      rw [List.nil_append] at hmunch
      rw [hmunch] at hlegal
      exact absurd rfl hlegal

/-- Scanning follows the rule, and the rule leaves no choice. -/
theorem lexes_iff : Lexes offset cs ts ↔ ts = scan 0 offset cs := by
  constructor
  · intro h
    induction h with
    | done => rw [scan]
    | blank hc more ih => rw [scan_blank hc, ih]
    | token first more ih => rw [scan_leads (longestMatch_iff.mp first).1, ih]
    | @illegal offset c cs ts hc none more ih =>
      have hleads := scan_leads ((noMatch_iff hc cs).mp none) offset
      rw [List.singleton_append, byteLength_cons, byteLength_nil, Nat.add_zero] at hleads
      rw [hleads, ih]
  · rintro rfl
    induction cs using piecewise generalizing offset with
    | nil => exact .done offset
    | blank c cs hc ih =>
      rw [scan_blank hc]
      exact .blank hc ih
    | token kind text rest hleads ih =>
      rw [scan_leads hleads]
      by_cases hkind : kind = .illegal
      · subst hkind
        obtain ⟨c, rfl⟩ := hleads.exists_char
        have hc : isBlank c = false := by
          obtain ⟨d, part, heq, hblank, -⟩ := hleads
          rwa [(List.cons.inj heq).1]
        exact .illegal hc ((noMatch_iff hc rest).mpr hleads) ih
      · exact .token (longestMatch_iff.mpr ⟨hleads, hkind⟩) ih

/-! ## Where a string ends -/

/-- A character is escaped if a backslash stands before it that is not escaped itself. -/
def Escaped (cs : List Char) : Nat → Prop
  | 0 => False
  | n + 1 => cs[n]? = some '\\' ∧ ¬Escaped cs n

/-- The quote at position `n` behind an opening one is its partner: it is the first that is not
escaped, and every backslash before it that is not escaped itself has a character behind it which is
no line break. -/
structure Closes (quote : Char) (cs : List Char) (n : Nat) : Prop where
  get_eq : cs[n]? = some quote
  not_escaped : ¬Escaped cs n
  before : ∀ m < n, ¬Escaped cs m → cs[m]? ≠ some quote ∧
    (cs[m]? = some '\\' → ∃ d, cs[m + 1]? = some d ∧ d ≠ '\n')

theorem escaped_plain (hc : c ≠ '\\') (n : Nat) : Escaped (c :: cs) (n + 1) ↔ Escaped cs n := by
  induction n with
  | zero => simp [Escaped, hc]
  | succ n ih => rw [Escaped, List.getElem?_cons_succ, ih, Escaped]

theorem escaped_escape (n : Nat) : Escaped ('\\' :: c :: cs) (n + 2) ↔ Escaped cs n := by
  induction n with
  | zero => simp [Escaped]
  | succ n ih => rw [Escaped, List.getElem?_cons_succ, List.getElem?_cons_succ, ih, Escaped]

theorem closes_quote : Closes quote (quote :: cs) n ↔ n = 0 := by
  constructor
  · intro h
    by_contra hn
    exact (h.before 0 (Nat.pos_of_ne_zero hn) id).1 rfl
  · rintro rfl
    exact ⟨rfl, id, fun m hm ↦ absurd hm (Nat.not_lt_zero m)⟩

theorem closes_plain (hslash : c ≠ '\\') (hquote : c ≠ quote) :
    Closes quote (c :: cs) n ↔ ∃ m, n = m + 1 ∧ Closes quote cs m := by
  constructor
  · rintro ⟨hget, hescaped, hbefore⟩
    obtain _ | n := n
    · exact absurd (Option.some.inj hget) hquote
    refine ⟨n, rfl, hget, fun h ↦ hescaped ((escaped_plain hslash n).mpr h), fun m hm hm' ↦ ?_⟩
    exact hbefore (m + 1) (by omega) fun h ↦ hm' ((escaped_plain hslash m).mp h)
  · rintro ⟨n, rfl, hget, hescaped, hbefore⟩
    refine ⟨hget, fun h ↦ hescaped ((escaped_plain hslash n).mp h), fun m hm hm' ↦ ?_⟩
    obtain _ | m := m
    · exact ⟨fun h ↦ hquote (Option.some.inj h), fun h ↦ absurd (Option.some.inj h) hslash⟩
    · exact hbefore m (by omega) fun h ↦ hm' ((escaped_plain hslash m).mpr h)

theorem closes_escape (hquote : quote ≠ '\\') :
    Closes quote ('\\' :: c :: cs) n ↔ c ≠ '\n' ∧ ∃ m, n = m + 2 ∧ Closes quote cs m := by
  have hescaped : Escaped ('\\' :: c :: cs) 1 := ⟨rfl, id⟩
  constructor
  · rintro ⟨hget, hn, hbefore⟩
    obtain _ | _ | n := n
    · exact absurd (Option.some.inj hget).symm hquote
    · exact absurd hescaped hn
    obtain ⟨d, hd, hline⟩ := (hbefore 0 (by omega) id).2 rfl
    obtain rfl := Option.some.inj hd
    refine ⟨hline, n, rfl, hget, fun h ↦ hn ((escaped_escape n).mpr h), fun m hm hm' ↦ ?_⟩
    exact hbefore (m + 2) (by omega) fun h ↦ hm' ((escaped_escape m).mp h)
  · rintro ⟨hline, n, rfl, hget, hn, hbefore⟩
    refine ⟨hget, fun h ↦ hn ((escaped_escape n).mp h), fun m hm hm' ↦ ?_⟩
    obtain _ | _ | m := m
    · exact ⟨fun h ↦ hquote (Option.some.inj h).symm, fun _ ↦ ⟨c, rfl, hline⟩⟩
    · exact absurd hescaped hm'
    · exact hbefore m (by omega) fun h ↦ hm' ((escaped_escape m).mpr h)

/-- The search for the partner of a quote finds it, and finds nothing if there is none. -/
theorem munchString_eq_some_iff_closes (hquote : quote ≠ '\\') :
    munchString quote cs = some n ↔ ∃ m, n = m + 1 ∧ Closes quote cs m := by
  fun_induction munchString quote cs generalizing n with
  | case1 =>
    refine iff_of_false (Option.some_ne_none n).symm ?_
    rintro ⟨m, -, hm⟩
    exact absurd hm.get_eq (by simp)
  | case2 =>
    refine iff_of_false (Option.some_ne_none n).symm ?_
    rintro ⟨_ | m, -, hm⟩
    · exact absurd (Option.some.inj hm.get_eq).symm hquote
    · exact absurd hm.get_eq (by simp)
  | case3 rest =>
    refine iff_of_false (Option.some_ne_none n).symm ?_
    rintro ⟨m, -, hm⟩
    exact absurd rfl ((closes_escape hquote).mp hm).1
  | case4 c rest hc ih =>
    simp only [Option.map_eq_some_iff, ih, closes_escape hquote]
    constructor
    · rintro ⟨_, ⟨m, rfl, hm⟩, rfl⟩
      exact ⟨m + 2, rfl, hc, m, rfl, hm⟩
    · rintro ⟨_, rfl, -, m, rfl, hm⟩
      exact ⟨m + 1, ⟨m, rfl, hm⟩, rfl⟩
  | case5 rest =>
    simp only [closes_quote, Option.some.injEq]
    constructor
    · rintro rfl
      exact ⟨0, rfl, rfl⟩
    · rintro ⟨_, rfl, rfl⟩
      rfl
  | case6 c rest hend hmore hne ih =>
    have hslash : c ≠ '\\' := ne_backslash_of_unmatched hend hmore
    simp only [Option.map_eq_some_iff, ih, closes_plain hslash hne]
    constructor
    · rintro ⟨_, ⟨m, rfl, hm⟩, rfl⟩
      exact ⟨m + 1, rfl, m, rfl, hm⟩
    · rintro ⟨_, rfl, m, rfl, hm⟩
      exact ⟨m + 1, ⟨m, rfl, hm⟩, rfl⟩

/-- A token that begins with a quote is a string if the quote has a partner, and then it ends
there. -/
theorem Leads.string_iff (h : Leads kind (quote :: part) rest)
    (hquote : quote = '"' ∨ quote = '\'') :
    (kind = .string ↔ ∃ n, Closes quote (part ++ rest) n) ∧
      ∀ n, Closes quote (part ++ rest) n → part.length = n + 1 := by
  have hslash := ne_backslash_of_quote hquote
  obtain ⟨d, ds, heq, -, hmunch⟩ := h
  obtain ⟨rfl, rfl⟩ := List.cons.inj heq
  rw [munch_quote hquote] at hmunch
  cases hstring : munchString quote (part ++ rest) with
  | none =>
    have hnone : ∀ n, ¬Closes quote (part ++ rest) n := fun n hn ↦ by
      have hsome := (munchString_eq_some_iff_closes hslash).mpr ⟨n, rfl, hn⟩
      rw [hstring] at hsome
      cases hsome
    rw [hstring] at hmunch
    obtain ⟨rfl, -⟩ := Prod.mk.inj hmunch
    exact ⟨⟨fun h ↦ Kind.noConfusion h, fun ⟨n, hn⟩ ↦ absurd hn (hnone n)⟩,
      fun n hn ↦ absurd hn (hnone n)⟩
  | some k =>
    rw [hstring] at hmunch
    obtain ⟨rfl, rfl⟩ := Prod.mk.inj hmunch
    obtain ⟨n, -, hn⟩ := (munchString_eq_some_iff_closes hslash).mp hstring
    refine ⟨⟨fun _ ↦ ⟨n, hn⟩, fun _ ↦ rfl⟩, fun m hm ↦ ?_⟩
    have hsome := (munchString_eq_some_iff_closes hslash).mpr ⟨m, rfl, hm⟩
    exact Option.some.inj (hstring.symm.trans hsome)

/-! ## Whole sources -/

theorem eq_of_byteLength_eq {xs ys xs' ys' : List Char} (h : xs ++ ys = xs' ++ ys')
    (hlength : byteLength xs = byteLength xs') : xs = xs' := by
  rw [← textUpTo_append xs ys, h, hlength, textUpTo_append]

theorem mem_scan_of_start_lt {t : Token} {source : String} (h : t ∈ tokenize source)
    (hstart : t.span.start < source.utf8ByteSize) : t ∈ scan 0 0 source.toList := by
  rcases List.mem_append.mp h with h | h
  · exact h
  · obtain rfl := List.mem_singleton.mp h
    exact absurd hstart (Nat.lt_irrefl _)

/-- **Scanning is longest match.** The tokens of a source, but for the end mark, are the ones that
the rule gives, and the rule gives no others. A token that begins with a quote is a string exactly
if the quote has a partner, and it ends there. -/
theorem tokenize_longest_match (source : String) :
    (∀ ts, Lexes 0 source.toList ts ↔ tokenize source = ts ++ [eof source.utf8ByteSize]) ∧
      ∀ t ∈ tokenize source, ∀ (before cs : List Char) (quote : Char),
        source.toList = before ++ quote :: cs → quote = '"' ∨ quote = '\'' →
        t.span.start = byteLength before →
        (t.kind = .string ↔ ∃ n, Closes quote cs n) ∧
          ∀ n, Closes quote cs n →
            t.span.stop = byteLength (before ++ quote :: cs.take (n + 1)) := by
  constructor
  · intro ts
    rw [lexes_iff, tokenize, List.append_left_inj, eq_comm]
  · intro t ht before cs quote hsource hquote hstart
    have hbefore : t.span.start < source.utf8ByteSize := by
      have hpos := quote.utf8Size_pos
      rw [hstart, utf8ByteSize_eq_byteLength, hsource, byteLength_append, byteLength_cons]
      omega
    obtain ⟨xs, kind, text, rest, heq, hleads, rfl⟩ :=
      exists_leads_of_mem_scan (mem_scan_of_start_lt ht hbefore)
    have hxs : xs = before := by
      refine eq_of_byteLength_eq (heq.symm.trans hsource) ?_
      rw [← hstart, ofText, Nat.zero_add]
    subst hxs
    obtain ⟨d, part, rfl⟩ := List.exists_cons_of_ne_nil hleads.ne_nil
    rw [hsource, List.append_right_inj, List.cons_append, List.cons.injEq] at heq
    obtain ⟨rfl, rfl⟩ := heq
    obtain ⟨hkind, hlength⟩ := hleads.string_iff hquote
    refine ⟨hkind, fun n hn ↦ ?_⟩
    rw [← hlength n hn, List.take_left, byteLength_append]
    simp [ofText]

/-- A backslash that is escaped escapes nothing, so a line break may stand behind it. -/
theorem tokenize_longest_match_line_break :
    (⟨.string, "\\\n", ⟨0, 5⟩⟩ : Token) ∈ tokenize "\"\\\\\n\"" ∧
      ∃ n, Closes '"' ['\\', '\\', '\n', '"'] n := by
  have hmem : (⟨.string, "\\\n", ⟨0, 5⟩⟩ : Token) ∈ tokenize "\"\\\\\n\"" := by decide
  have hquote := (tokenize_longest_match "\"\\\\\n\"").2 _ hmem [] ['\\', '\\', '\n', '"'] '"' rfl
    (.inl rfl) rfl
  exact ⟨hmem, hquote.1.mp rfl⟩

end DrawScript.Token
