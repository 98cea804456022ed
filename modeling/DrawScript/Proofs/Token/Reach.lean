import DrawScript.Proofs.Token.Spelling
import Mathlib.Tactic.SplitIfs

/-!
# How far tokens reach

Where a token ends is decided by the text behind its first character, and the decision looks at the
text beyond the token: a name ends because no letter follows, an integer because no point with a
digit follows. So a token can change when the text behind it does. This file says when it does not.

* A token that ends before a place is the same in the text that is cut off there
  (`Reading.eq_of_fits`).
* A token that is closed is the same in the text that goes on with a blank
  (`Reading.append_blank`). A comment needs a line break for that, and a quote that has no partner
  may find it in what follows.

`Reading` lists the six ways in which the reach of a token depends on the text, so that each of
these statements is shown once for each way and not for every character.
-/

namespace DrawScript.Token

variable {xs ys : List Char} {c : Char}

/-! ## The ways of reading -/

/-- The ways in which the reach of a token can depend on what follows its first character. -/
inductive Reading (c : Char) : (List Char → Kind × Nat) → Prop
  | word (h : isNameStart c = true) : Reading c fun cs ↦
      (wordKind (c :: cs.takeWhile isNamePart), (cs.takeWhile isNamePart).length)
  | number (h : isDigit c = true) : Reading c munchNumber
  | comment : Reading c fun cs ↦ (.comment, (cs.takeWhile (· != '\n')).length)
  | string : Reading c fun cs ↦ (munchString c cs).elim (.illegal, 0) fun n ↦ (.string, n)
  | pair (two one : Kind) : Reading c fun cs ↦
      if cs.head? = some '=' then (two, 1) else (one, 0)
  | mark (kind : Kind) : Reading c fun _ ↦ (kind, 0)

theorem reading_munch (c : Char) : Reading c (munch c) := by
  by_cases hname : isNameStart c = true
  · have hmunch : munch c = fun cs ↦
        (wordKind (c :: cs.takeWhile isNamePart), (cs.takeWhile isNamePart).length) := by
      funext cs
      unfold munch
      rw [if_pos hname]
    rw [hmunch]
    exact .word hname
  by_cases hdigit : isDigit c = true
  · have hmunch : munch c = munchNumber := by
      funext cs
      unfold munch
      rw [if_neg hname, if_pos hdigit]
    rw [hmunch]
    exact .number hdigit
  by_cases hmark : c ∈ ['%', '"', '\'', '!', '=', '(', ')', '\x7b', '\x7d', '[', ']', ',', '.', '-',
      '+', '/', '*', '<', '>']
  · simp only [List.mem_cons, List.not_mem_nil, or_false] at hmark
    rcases hmark with rfl | rfl | rfl | rfl | rfl | hmark
    · exact .comment
    · exact .string
    · exact .string
    · exact .pair .notEq .bang
    · exact .pair .eq .illegal
    rcases hmark with rfl | rfl | rfl | rfl | rfl | rfl | rfl | rfl | rfl | rfl | rfl | rfl | rfl |
      rfl <;> exact .mark _
  · have hmunch : munch c = fun _ ↦ (.illegal, 0) := by
      funext cs
      unfold munch
      rw [if_neg hname, if_neg hdigit]
      split <;> simp at hmark ⊢
    rw [hmunch]
    exact .mark .illegal

/-! ## Runs -/

theorem takeWhile_append_of_fits {p : Char → Bool}
    (h : ((xs ++ ys).takeWhile p).length ≤ xs.length) :
    (xs ++ ys).takeWhile p = xs.takeWhile p := by
  rw [List.takeWhile_append] at h ⊢
  split_ifs at h ⊢ with hall
  · have hnil : ys.takeWhile p = [] := by
      rw [List.length_append] at h
      exact List.eq_nil_of_length_eq_zero (by omega)
    have hxs : xs.takeWhile p = xs := (List.takeWhile_prefix p).eq_of_length hall
    rw [hnil, List.append_nil, hxs]
  · rfl

theorem takeWhile_append_of_neg {p : Char → Bool} {b : Char} (hb : p b = false) :
    (xs ++ b :: ys).takeWhile p = xs.takeWhile p := by
  have hstop : (b :: ys).takeWhile p = [] := List.takeWhile_cons_of_neg (by rw [hb]; decide)
  rw [List.takeWhile_append, hstop, List.append_nil]
  split_ifs with hall
  · exact ((List.takeWhile_prefix p).eq_of_length hall).symm
  · rfl

theorem dropWhile_append_of_neg {p : Char → Bool} {b : Char} (hb : p b = false) :
    (xs ++ b :: ys).dropWhile p = xs.dropWhile p ++ b :: ys := by
  rw [List.dropWhile_append]
  split_ifs with hnil
  · rw [List.isEmpty_iff.mp hnil, List.nil_append, List.dropWhile_cons_of_neg (by rw [hb]; decide)]
  · rfl

/-! ## Numbers -/

/-- How many characters a fraction takes: a point and the digits behind it, if there are any. -/
def fraction : List Char → Nat
  | '.' :: d :: rest => if isDigit d then 2 + (rest.takeWhile isDigit).length else 0
  | _ => 0

theorem munchNumber_eq (cs : List Char) :
    munchNumber cs = (if fraction (cs.dropWhile isDigit) = 0 then .int else .float,
      (cs.takeWhile isDigit).length + fraction (cs.dropWhile isDigit)) := by
  unfold munchNumber
  split
  · next d rest hdrop =>
    by_cases hd : isDigit d = true
    · simp [hdrop, fraction, hd, Nat.add_assoc]
    · simp [hdrop, fraction, hd]
  · next hdrop =>
    have hnone : fraction (cs.dropWhile isDigit) = 0 := by
      unfold fraction
      split
      · next d rest heq => exact absurd heq (hdrop d rest)
      · rfl
    simp [hnone]

theorem fraction_eq_zero_or (cs : List Char) : fraction cs = 0 ∨ 2 ≤ fraction cs := by
  unfold fraction
  split
  · split_ifs
    · exact .inr (Nat.le_add_right 2 _)
    · exact .inl rfl
  · exact .inl rfl

theorem fraction_le_length (cs : List Char) : fraction cs ≤ cs.length := by
  unfold fraction
  split
  · next d rest =>
    have hle : (rest.takeWhile isDigit).length ≤ rest.length := (List.takeWhile_prefix _).length_le
    split_ifs
    · simp only [List.length_cons]
      omega
    · exact Nat.zero_le _
  · exact Nat.zero_le _

theorem fraction_eq_of_fits (h : fraction (xs ++ ys) ≤ xs.length) :
    fraction (xs ++ ys) = fraction xs := by
  match xs with
  | [] => exact Nat.le_zero.mp h
  | [e] =>
    have hnone : fraction [e] = 0 := by simp [fraction]
    rcases fraction_eq_zero_or ([e] ++ ys) with hzero | htwo
    · rw [hzero, hnone]
    · exact absurd (htwo.trans h) (by simp)
  | e :: d :: rest =>
    by_cases he : e = '.'
    · by_cases hd : isDigit d = true
      · subst he
        simp only [List.cons_append, fraction, hd, if_true, List.length_cons] at h ⊢
        rw [takeWhile_append_of_fits (by omega)]
      · simp [fraction, he, hd]
    · simp [fraction, he]

theorem fraction_append_of_neg {b : Char} (hb : isDigit b = false) (hpoint : b ≠ '.') :
    fraction (xs ++ b :: ys) = fraction xs := by
  match xs with
  | [] => simp [fraction, hpoint]
  | [e] => by_cases he : e = '.' <;> simp [fraction, he, hb]
  | e :: d :: rest => by_cases he : e = '.' <;> simp [fraction, he, takeWhile_append_of_neg hb]

theorem munchNumber_le_length (cs : List Char) : (munchNumber cs).2 ≤ cs.length := by
  calc (munchNumber cs).2
      = (cs.takeWhile isDigit).length + fraction (cs.dropWhile isDigit) := by rw [munchNumber_eq]
    _ ≤ (cs.takeWhile isDigit).length + (cs.dropWhile isDigit).length :=
        Nat.add_le_add_left (fraction_le_length _) _
    _ = cs.length := by rw [← List.length_append, List.takeWhile_append_dropWhile]

theorem munchNumber_append_of_neg {b : Char} (hb : isDigit b = false) (hpoint : b ≠ '.') :
    munchNumber (xs ++ b :: ys) = munchNumber xs := by
  rw [munchNumber_eq, munchNumber_eq, takeWhile_append_of_neg hb, dropWhile_append_of_neg hb,
    fraction_append_of_neg hb hpoint]

theorem munchNumber_eq_of_fits (h : (munchNumber (xs ++ ys)).2 ≤ xs.length) :
    munchNumber (xs ++ ys) = munchNumber xs := by
  rw [munchNumber_eq] at h ⊢
  have htake : (xs ++ ys).takeWhile isDigit = xs.takeWhile isDigit :=
    takeWhile_append_of_fits (Nat.le_trans (Nat.le_add_right _ _) h)
  have hdrop : (xs ++ ys).dropWhile isDigit = xs.dropWhile isDigit ++ ys := by
    refine (List.append_right_inj (xs.takeWhile isDigit)).mp ?_
    rw [← List.append_assoc, List.takeWhile_append_dropWhile, ← htake,
      List.takeWhile_append_dropWhile]
  have hlength : (xs.takeWhile isDigit).length + (xs.dropWhile isDigit).length = xs.length := by
    rw [← List.length_append, List.takeWhile_append_dropWhile]
  rw [htake, hdrop] at h ⊢
  rw [fraction_eq_of_fits (by dsimp only at h; omega), ← munchNumber_eq]

/-! ## Strings -/

theorem munchString_cons {quote : Char} (hc : c ≠ '\\') (cs : List Char) :
    munchString quote (c :: cs)
      = if c = quote then some 1 else (munchString quote cs).map (· + 1) := by
  cases cs <;> simp [munchString, hc]

/-- The two rows of `munchString` for backslashes are passed over only where there is none. -/
theorem ne_backslash_of_unmatched {rest : List Char} (hend : c = '\\' → rest = [] → False)
    (hmore : ∀ d ds, c = '\\' → rest = d :: ds → False) : c ≠ '\\' := by
  intro hc
  cases rest with
  | nil => exact hend hc rfl
  | cons d ds => exact hmore d ds hc rfl

/-- A string ends at its partner quote, whatever follows it. -/
theorem munchString_take_append {quote : Char} {n : Nat} {cs : List Char}
    (h : munchString quote cs = some n) :
    n ≤ cs.length ∧ ∀ ys, munchString quote (cs.take n ++ ys) = some n := by
  fun_induction munchString quote cs generalizing n with
  | case1 => cases h
  | case2 => cases h
  | case3 => cases h
  | case4 c rest hbreak ih =>
    obtain ⟨m, hm, rfl⟩ := Option.map_eq_some_iff.mp h
    obtain ⟨hle, hmore⟩ := ih hm
    exact ⟨Nat.add_le_add_right hle 2, fun ys ↦ by simp [munchString, hbreak, hmore]⟩
  | case5 rest hend hmore =>
    have hquote : quote ≠ '\\' := ne_backslash_of_unmatched hend hmore
    obtain rfl := Option.some.inj h
    refine ⟨Nat.succ_le_succ (Nat.zero_le _), fun ys ↦ ?_⟩
    rw [List.take_succ_cons, List.cons_append, munchString_cons hquote, if_pos rfl]
  | case6 c rest hend hmore hquote ih =>
    have hc : c ≠ '\\' := ne_backslash_of_unmatched hend hmore
    obtain ⟨m, hm, rfl⟩ := Option.map_eq_some_iff.mp h
    obtain ⟨hle, hrest⟩ := ih hm
    refine ⟨Nat.succ_le_succ hle, fun ys ↦ ?_⟩
    rw [List.take_succ_cons, List.cons_append, munchString_cons hc, if_neg hquote, hrest]
    rfl

theorem munchString_append {quote : Char} {n : Nat} (h : munchString quote xs = some n) :
    munchString quote (xs ++ ys) = some n := by
  have happend := (munchString_take_append h).2 (xs.drop n ++ ys)
  rwa [← List.append_assoc, List.take_append_drop] at happend

theorem munchString_eq_of_fits {quote : Char} {n : Nat} (h : munchString quote (xs ++ ys) = some n)
    (hn : n ≤ xs.length) : munchString quote xs = some n := by
  have htake := (munchString_take_append h).2 (xs.drop n)
  rwa [List.take_append_of_le_length hn, List.take_append_drop] at htake

/-! ## Tokens before a cut and before a blank -/

namespace Reading

variable {f : List Char → Kind × Nat}

theorem le_length (hf : Reading c f) (cs : List Char) : (f cs).2 ≤ cs.length := by
  cases hf with
  | word => exact (List.takeWhile_prefix _).length_le
  | number => exact munchNumber_le_length cs
  | comment => exact (List.takeWhile_prefix _).length_le
  | string =>
    dsimp only
    cases hcs : munchString c cs with
    | none => exact Nat.zero_le _
    | some n => exact (munchString_take_append hcs).1
  | pair two one =>
    dsimp only
    split_ifs with heq
    · obtain ⟨rest, rfl⟩ := List.head?_eq_some_iff.mp heq
      exact Nat.succ_le_succ (Nat.zero_le _)
    · exact Nat.zero_le _
  | mark => exact Nat.zero_le _

/-- A token that ends before the cut is the same in the text that is cut. -/
theorem eq_of_fits (hf : Reading c f) (h : (f (xs ++ ys)).2 ≤ xs.length) : f (xs ++ ys) = f xs := by
  cases hf with
  | word => simp only [takeWhile_append_of_fits h]
  | number => exact munchNumber_eq_of_fits h
  | comment => simp only [takeWhile_append_of_fits h]
  | string =>
    dsimp only at h ⊢
    cases hlong : munchString c (xs ++ ys) with
    | some n =>
      rw [hlong] at h
      rw [munchString_eq_of_fits hlong h]
    | none =>
      cases hshort : munchString c xs with
      | none => rfl
      | some n => rw [munchString_append hshort] at hlong; cases hlong
  | pair two one =>
    cases xs with
    | nil =>
      by_cases heq : ys.head? = some '='
      · simp [heq] at h
      · simp [heq]
    | cons x xs => rfl
  | mark => rfl

/-- A blank ends every token but a comment, which ends at a line break, and a string. -/
theorem append_blank (hf : Reading c f) {b : Char} (hb : isBlank b = true)
    (hline : (f xs).1 = .comment → b = '\n') (hlegal : (f xs).1 ≠ .illegal) :
    f (xs ++ b :: ys) = f xs := by
  have hpart : isNamePart b = false ∧ isDigit b = false ∧ b ≠ '.' ∧ b ≠ '=' := by
    simp only [isBlank, Bool.or_eq_true, beq_iff_eq] at hb
    rcases hb with (((rfl | rfl) | rfl) | rfl) | rfl <;> decide
  obtain ⟨hword, hdigit, hpoint, heq⟩ := hpart
  cases hf with
  | word => simp only [takeWhile_append_of_neg hword]
  | number => exact munchNumber_append_of_neg hdigit hpoint
  | comment =>
    have hbreak : (b != '\n') = false := by rw [hline rfl]; decide
    simp only [takeWhile_append_of_neg (p := (· != '\n')) hbreak]
  | string =>
    dsimp only at hlegal ⊢
    cases hshort : munchString c xs with
    | none => rw [hshort] at hlegal; exact absurd rfl hlegal
    | some n => rw [munchString_append hshort]
  | pair two one =>
    cases xs with
    | nil => simp [heq]
    | cons x xs => rfl
  | mark => rfl

end Reading

end DrawScript.Token
