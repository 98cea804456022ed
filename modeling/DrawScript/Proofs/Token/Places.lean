import DrawScript.Proofs.Token.Reach

/-!
# Where tokens stand

Tokens carry the bytes they were read from. Scanning goes from left to right, so their spans follow
each other (`pairwise_scan`) and lie within the text. Apart from their spans tokens do not depend on
where their text begins: a text that begins later has the same tokens, moved (`scan_add`).

The other statements relate the tokens of a text to those of its parts. A text that is cut off
behind a token has the tokens up to there (`exists_cut`), and a text that goes on with a line break
keeps its tokens and goes on with those of the next line (`scan_append_newline`), provided that no
quote was left open.
-/

namespace DrawScript

namespace Token

variable {t u : Token} {cs : List Char}

/-! ## Bytes -/

theorem utf8ByteSize_ofList (cs : List Char) : (String.ofList cs).utf8ByteSize = byteLength cs := by
  induction cs with
  | nil => rfl
  | cons c cs ih =>
    rw [String.ofList_cons, String.utf8ByteSize_append, String.utf8ByteSize_singleton, ih,
      byteLength_cons]

theorem utf8ByteSize_eq_byteLength (source : String) :
    source.utf8ByteSize = byteLength source.toList := by
  have hsize := utf8ByteSize_ofList source.toList
  rwa [String.ofList_toList] at hsize

/-- The text up to a byte offset. -/
def textUpTo : (offset : Nat) → List Char → List Char
  | _, [] => []
  | offset, c :: cs =>
    if c.utf8Size ≤ offset then c :: textUpTo (offset - c.utf8Size) cs else []

theorem textUpTo_append (xs ys : List Char) : textUpTo (byteLength xs) (xs ++ ys) = xs := by
  induction xs with
  | nil =>
    cases ys with
    | nil => rfl
    | cons c ys =>
      have hpos := c.utf8Size_pos
      rw [List.nil_append, textUpTo, byteLength_nil, if_neg (by omega)]
  | cons c xs ih =>
    rw [List.cons_append, textUpTo, byteLength_cons, if_pos (Nat.le_add_right _ _),
      Nat.add_sub_cancel_left, ih]

/-! ## The order of tokens -/

/-- Every token lies behind what is skipped and within the text. -/
theorem span_of_mem_scan {skip offset : Nat} (h : t ∈ scan skip offset cs) :
    offset + byteLength (cs.take skip) ≤ t.span.start ∧ t.span.start ≤ t.span.stop ∧
      t.span.stop ≤ offset + byteLength cs := by
  fun_induction scan skip offset cs with
  | case1 => simp at h
  | case2 skip offset c cs ih =>
    obtain ⟨hstart, hspan, hstop⟩ := ih h
    rw [List.take_succ_cons, byteLength_cons, byteLength_cons, ← Nat.add_assoc, ← Nat.add_assoc]
    exact ⟨hstart, hspan, hstop⟩
  | case3 offset c cs hblank ih =>
    obtain ⟨hstart, hspan, hstop⟩ := ih h
    rw [byteLength_cons, ← Nat.add_assoc]
    rw [List.take_zero] at hstart ⊢
    exact ⟨Nat.le_trans (by rw [byteLength_nil]; omega) hstart, hspan, hstop⟩
  | case4 offset c cs hblank kind n hmunch ih =>
    have hle : byteLength (cs.take n) ≤ byteLength cs := by
      rw [← Nat.add_le_add_iff_right (n := byteLength (cs.drop n)), ← byteLength_append,
        List.take_append_drop]
      exact Nat.le_add_right _ _
    rw [List.take_zero, byteLength_nil, byteLength_cons]
    rcases List.mem_cons.mp h with rfl | h
    · simp only [ofText, byteLength_cons]
      omega
    · obtain ⟨hstart, hspan, hstop⟩ := ih h
      omega

/-- Tokens follow each other. -/
theorem pairwise_scan (skip offset : Nat) (cs : List Char) :
    (scan skip offset cs).Pairwise fun t u ↦ t.span.stop ≤ u.span.start := by
  fun_induction scan skip offset cs with
  | case1 => exact .nil
  | case2 skip offset c cs ih => exact ih
  | case3 offset c cs hblank ih => exact ih
  | case4 offset c cs hblank kind n hmunch ih =>
    refine List.pairwise_cons.mpr ⟨fun u hu ↦ ?_, ih⟩
    have hstart := (span_of_mem_scan hu).1
    rwa [Nat.add_assoc, ← byteLength_cons] at hstart

end Token

/-! ## Moving tokens -/

/-- A way to move the tokens of a source to other places. The end mark covers nothing and must go
to a place where it covers nothing either. -/
structure Relocation where
  place : Span → Span
  mark : Nat → Nat
  place_mark : ∀ n, place ⟨n, n⟩ = ⟨mark n, mark n⟩

/-- Everything moves by so many bytes to the right. -/
def Relocation.shift (n : Nat) : Relocation where
  place span := ⟨span.start + n, span.stop + n⟩
  mark offset := offset + n
  place_mark _ := rfl

namespace Token

/-- The same token at another place. -/
def relocate (r : Relocation) (token : Token) : Token :=
  { token with span := r.place token.span }

@[simp] theorem kind_relocate (r : Relocation) (t : Token) : (t.relocate r).kind = t.kind := rfl

@[simp] theorem lexeme_relocate (r : Relocation) (t : Token) :
    (t.relocate r).lexeme = t.lexeme := rfl

@[simp] theorem relocate_eof (r : Relocation) (offset : Nat) :
    (eof offset).relocate r = eof (r.mark offset) := by
  rw [relocate, eof, eof, r.place_mark]

/-- A text that begins later has the same tokens, moved. -/
theorem scan_add (skip offset n : Nat) (cs : List Char) :
    scan skip (offset + n) cs = (scan skip offset cs).map (relocate (.shift n)) := by
  fun_induction scan skip offset cs with
  | case1 skip offset => rw [scan, List.map_nil]
  | case2 skip offset c cs ih => rw [scan, ← ih, Nat.add_right_comm]
  | case3 offset c cs hblank ih => rw [scan, if_pos hblank, ← ih, Nat.add_right_comm]
  | case4 offset c cs hblank kind k hmunch ih =>
    have hfirst : ofText kind (offset + n) (c :: cs.take k)
        = (ofText kind offset (c :: cs.take k)).relocate (.shift n) := by
      simp only [ofText, relocate, Relocation.shift, Nat.add_right_comm]
    rw [scan, if_neg hblank]
    simp only [hmunch]
    rw [List.map_cons, ← ih, hfirst, Nat.add_right_comm]

/-! ## Cutting a text -/

theorem skip_lt_of_scan_ne_nil {skip offset : Nat} (h : scan skip offset cs ≠ []) :
    skip < cs.length := by
  by_contra hle
  rw [scan_skip, List.drop_eq_nil_of_le (Nat.le_of_not_lt hle), scan] at h
  exact h rfl

/-- A text that is cut off at the end of a token has the tokens up to there. -/
theorem exists_cut {skip offset : Nat} {kept lost : List Token} (hkept : kept ≠ [])
    (h : scan skip offset cs = kept ++ lost) :
    ∃ xs ys, cs = xs ++ ys ∧ scan skip offset xs = kept ∧
      offset + byteLength xs = (kept.getLast hkept).span.stop := by
  fun_induction scan skip offset cs generalizing kept with
  | case1 => exact absurd (List.append_eq_nil_iff.mp h.symm).1 hkept
  | case2 skip offset c cs ih =>
    obtain ⟨xs, ys, rfl, hscan, hstop⟩ := ih hkept h
    exact ⟨c :: xs, ys, rfl, hscan, by rw [← hstop, byteLength_cons, Nat.add_assoc]⟩
  | case3 offset c cs hblank ih =>
    obtain ⟨xs, ys, rfl, hscan, hstop⟩ := ih hkept h
    refine ⟨c :: xs, ys, rfl, ?_, by rw [← hstop, byteLength_cons, Nat.add_assoc]⟩
    rw [scan, if_pos hblank, hscan]
  | case4 offset c cs hblank kind n hmunch ih =>
    obtain ⟨t, kept, rfl⟩ := List.exists_cons_of_ne_nil hkept
    obtain ⟨rfl, hrest⟩ := List.cons.inj h
    have hn : n ≤ cs.length := by
      have hle := (reading_munch c).le_length cs
      rwa [hmunch] at hle
    -- the cut is behind this token or behind a later one, and the token is the same in both cases
    have hfirst : ∀ xs ys, cs = xs ++ ys → n ≤ xs.length →
        scan 0 offset (c :: xs)
          = ofText kind offset (c :: cs.take n) :: scan n (offset + c.utf8Size) xs := by
      rintro xs ys rfl hxs
      have hfits : (munch c (xs ++ ys)).2 ≤ xs.length := by rwa [hmunch]
      have hcut : munch c xs = (kind, n) := by
        rw [← (reading_munch c).eq_of_fits hfits, hmunch]
      rw [scan, if_neg hblank]
      simp only [hcut]
      rw [List.take_append_of_le_length hxs]
    by_cases hlast : kept = []
    · subst hlast
      refine ⟨c :: cs.take n, cs.drop n, by rw [List.cons_append, List.take_append_drop], ?_, rfl⟩
      rw [hfirst _ (cs.drop n) (List.take_append_drop n cs).symm
        (by rw [List.length_take, Nat.min_eq_left hn]), scan_skip,
        List.drop_eq_nil_of_le (by rw [List.length_take]; exact Nat.min_le_left _ _), scan]
    · obtain ⟨xs, ys, rfl, hscan, hstop⟩ := ih hlast hrest
      have hxs : n < xs.length := skip_lt_of_scan_ne_nil (by rw [hscan]; exact hlast)
      refine ⟨c :: xs, ys, rfl, ?_, ?_⟩
      · rw [hfirst xs ys rfl (Nat.le_of_lt hxs), hscan]
      · rw [List.getLast_cons hlast, ← hstop, byteLength_cons, Nat.add_assoc]

/-! ## Joining texts -/

/-- Behind a line break the tokens of the next line follow, if no quote is left open before it. -/
theorem scan_append_newline {skip offset : Nat} (rest : List Char) (hskip : skip ≤ cs.length)
    (hlegal : ∀ t ∈ scan skip offset cs, t.kind ≠ .illegal) :
    scan skip offset (cs ++ '\n' :: rest)
      = scan skip offset cs ++ scan 0 (offset + byteLength cs + 1) rest := by
  fun_induction scan skip offset cs with
  | case1 skip offset =>
    obtain rfl := Nat.le_zero.mp hskip
    rw [List.nil_append, List.nil_append, scan, if_pos (show isBlank '\n' = true from rfl)]
    rfl
  | case2 skip offset c cs ih =>
    rw [List.cons_append, scan, ih (Nat.le_of_succ_le_succ hskip) hlegal, byteLength_cons,
      Nat.add_assoc offset]
  | case3 offset c cs hblank ih =>
    rw [List.cons_append, scan, if_pos hblank, ih (Nat.zero_le _) hlegal, byteLength_cons,
      Nat.add_assoc offset]
  | case4 offset c cs hblank kind n hmunch ih =>
    have hkind : kind ≠ .illegal := hlegal _ List.mem_cons_self
    have hn : n ≤ cs.length := by
      have hle := (reading_munch c).le_length cs
      rwa [hmunch] at hle
    have hsame : munch c (cs ++ '\n' :: rest) = (kind, n) := by
      rw [(reading_munch c).append_blank rfl (fun _ ↦ rfl) (by rwa [hmunch]), hmunch]
    rw [List.cons_append, scan, if_neg hblank]
    simp only [hsame]
    rw [List.take_append_of_le_length hn,
      ih hn fun t ht ↦ hlegal t (List.mem_cons_of_mem _ ht), byteLength_cons, List.cons_append,
      Nat.add_assoc offset]

end Token

end DrawScript
