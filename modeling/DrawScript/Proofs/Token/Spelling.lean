import DrawScript.Token.Scan
import Mathlib.Data.List.TakeWhile

/-!
# How tokens are spelled

The kind of a token limits what its lexeme can be: a name is no keyword, a number consists of
digits, punctuation has one fixed text. `Spelled` collects these limits, and every token that
scanning gives obeys them (`spelled_of_mem_scan`). It is the only fact about scanning that the
trees of the parser depend on.

The converse, that a lexeme which obeys the limits is scanned back as a token of that kind, needs
to know what follows it in the text and is the subject of `DrawScript.Proofs.Canonical.Scan`.
-/

namespace DrawScript.Token

/-! ## Lexemes -/

/-- A run of decimal digits. -/
def IsDigits (cs : List Char) : Prop :=
  cs ≠ [] ∧ ∀ c ∈ cs, isDigit c = true

/-- A run of letters, digits and underscores that does not begin with a digit. -/
def IsName (cs : List Char) : Prop :=
  ∃ c part, cs = c :: part ∧ isNameStart c = true ∧ ∀ d ∈ part, isNamePart d = true

/-- The names that are no identifiers. -/
def keywords : List String :=
  ["true", "false", "fn"]

/-- The lexeme of a token fits its kind. The end mark is never read from a text. -/
def Spelled (token : Token) : Prop :=
  match token.kind with
  | .ident => IsName token.lexeme.toList ∧ token.lexeme ∉ keywords
  | .int => IsDigits token.lexeme.toList
  | .float => ∃ whole fraction, IsDigits whole ∧ IsDigits fraction ∧
      token.lexeme.toList = whole ++ '.' :: fraction
  | .comment => ∃ text, token.lexeme.toList = '%' :: text ∧ '\n' ∉ text
  | .trueWord => token.lexeme = "true"
  | .falseWord => token.lexeme = "false"
  | .function => token.lexeme = "fn"
  | .string | .illegal => True
  | .eof => False
  | kind => token.lexeme = kind.name

theorem Spelled.kind_ne_eof {token : Token} (h : token.Spelled) : token.kind ≠ .eof := by
  intro heof
  rw [Spelled, heof] at h
  exact h

theorem isDigit_of_mem_takeWhile {c : Char} {cs : List Char} (h : c ∈ cs.takeWhile isDigit) :
    isDigit c = true :=
  List.mem_takeWhile_imp h

theorem isDigits_cons_takeWhile {c : Char} (cs : List Char) (hc : isDigit c = true) :
    IsDigits (c :: cs.takeWhile isDigit) := by
  refine ⟨List.cons_ne_nil _ _, fun d hd ↦ ?_⟩
  rcases List.mem_cons.mp hd with rfl | hd
  · exact hc
  · exact isDigit_of_mem_takeWhile hd

/-! ## The tokens of a text -/

theorem take_length_takeWhile (p : Char → Bool) (cs : List Char) :
    cs.take (cs.takeWhile p).length = cs.takeWhile p :=
  List.prefix_iff_eq_take.mp (List.takeWhile_prefix p) |>.symm

/-- A word is spelled as its kind demands, whether it is a keyword or not. -/
theorem spelled_word {c : Char} (offset : Nat) (cs : List Char) (hc : isNameStart c = true) :
    (ofText (wordKind (c :: cs.takeWhile isNamePart)) offset
      (c :: cs.takeWhile isNamePart)).Spelled := by
  set part := cs.takeWhile isNamePart with hpart
  have hname : IsName (c :: part) :=
    ⟨c, part, rfl, hc, fun d hd ↦ List.mem_takeWhile_imp hd⟩
  rw [wordKind]
  split_ifs with htrue hfalse hfn
  · rw [htrue]; rfl
  · rw [hfalse]; rfl
  · rw [hfn]; rfl
  · refine ⟨by simpa [ofText, lexemeOf] using hname, ?_⟩
    intro hkey
    simp only [ofText, lexemeOf, keywords, List.mem_cons, List.not_mem_nil, or_false] at hkey
    rcases hkey with h | h | h
    · exact htrue (String.ofList_injective h)
    · exact hfalse (String.ofList_injective h)
    · exact hfn (String.ofList_injective h)

/-- A number is a run of digits, or two of them around a period. -/
theorem spelled_number {c : Char} (offset : Nat) (cs : List Char) (hc : isDigit c = true) :
    (ofText (munchNumber cs).1 offset (c :: cs.take (munchNumber cs).2)).Spelled := by
  have hwhole : IsDigits (c :: cs.takeWhile isDigit) := isDigits_cons_takeWhile cs hc
  have hint : (ofText .int offset (c :: cs.take (cs.takeWhile isDigit).length)).Spelled := by
    rw [take_length_takeWhile]
    simpa [Spelled, ofText, lexemeOf] using hwhole
  unfold munchNumber
  split
  · next d rest hdrop =>
    split_ifs with hd
    · refine ⟨c :: cs.takeWhile isDigit, d :: rest.takeWhile isDigit, hwhole,
        isDigits_cons_takeWhile rest hd, ?_⟩
      have hsplit : cs = cs.takeWhile isDigit ++ '.' :: d :: rest := by
        rw [← hdrop, List.takeWhile_append_dropWhile]
      have htake : cs.take ((cs.takeWhile isDigit).length + 2 + (rest.takeWhile isDigit).length)
          = cs.takeWhile isDigit ++ '.' :: d :: rest.takeWhile isDigit := by
        refine (congrArg (List.take _) hsplit).trans ?_
        rw [Nat.add_assoc, List.take_length_add_append, Nat.add_comm 2, List.take_succ_cons,
          List.take_succ_cons, take_length_takeWhile]
      simp [ofText, lexemeOf, htake]
    · exact hint
  · exact hint

/-- Whatever begins with a character that is no blank is spelled as its kind demands. -/
theorem spelled_munch (offset : Nat) (c : Char) (cs : List Char) :
    (ofText (munch c cs).1 offset (c :: cs.take (munch c cs).2)).Spelled := by
  unfold munch
  split
  · next hname =>
    simp only [take_length_takeWhile]
    exact spelled_word offset cs hname
  split
  · next hdigit => exact spelled_number offset cs hdigit
  split
  case h_1 =>
    rw [take_length_takeWhile]
    refine ⟨cs.takeWhile (· != '\n'), by simp [ofText, lexemeOf], fun h ↦ ?_⟩
    simpa using List.mem_takeWhile_imp h
  case h_2 => cases munchString '"' cs <;> trivial
  case h_3 => cases munchString '\'' cs <;> trivial
  -- an exclamation mark and an equals sign take an equals sign behind them along
  case h_12 =>
    split_ifs with heq
    · obtain ⟨rest, rfl⟩ := List.head?_eq_some_iff.mp heq; rfl
    · rfl
  case h_17 =>
    split_ifs with heq
    · obtain ⟨rest, rfl⟩ := List.head?_eq_some_iff.mp heq; rfl
    · trivial
  case h_20 => trivial
  all_goals rfl

/-- Every token of a text is spelled as its kind demands. -/
theorem spelled_of_mem_scan {skip offset : Nat} {cs : List Char} {token : Token}
    (h : token ∈ scan skip offset cs) : token.Spelled := by
  fun_induction scan skip offset cs with
  | case1 => simp at h
  | case2 skip offset c cs ih => exact ih h
  | case3 offset c cs hblank ih => exact ih h
  | case4 offset c cs hblank kind n hmunch ih =>
    rcases List.mem_cons.mp h with rfl | h
    · have hspelled := spelled_munch offset c cs
      rw [hmunch] at hspelled
      exact hspelled
    · exact ih h

end DrawScript.Token
