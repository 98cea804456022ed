import DrawScript.Proofs.Token.Pieces

/-!
# Other blanks between the tokens

A source is its tokens with blanks around them. `respace` keeps the texts of the tokens and puts
other blanks in: some before the first token and some behind each. As long as tokens stay apart the
new source has the same tokens at other places (`scan_respace`), whatever the blanks were before,
even if there were none.

What `respace` does to a source is told by its definition alone, so a check of it stands beside it:
with the right blanks the source itself is given back (`exists_respace_eq_self`). Nothing but blanks
is changed, and no way to put blanks between the tokens is left out.

A blank ends every token but a comment, which goes on to the end of its line, so the blanks behind a
comment have to begin with a line break. Sources with illegal tokens are left out: a quote has no
partner if a line break stands behind a backslash on the way, and with another blank in its place
the quote may have one.
-/

namespace DrawScript.Token

variable {c : Char} {kind : Kind} {cs text rest gap : List Char} {gaps : List (List Char)}
  {offset : Nat}

/-! ## Respacing a source -/

/-- The characters of a text that a span holds. -/
def slice (span : Span) (cs : List Char) : List Char :=
  (textUpTo span.stop cs).drop (textUpTo span.start cs).length

/-- The texts of tokens of a source, each with blanks behind it. -/
def spaced (source : List Char) (tokens : List Token) (gaps : List (List Char)) : List Char :=
  (List.zipWith (fun t gap ↦ slice t.span source ++ gap) tokens gaps).flatten

/-- The tokens of a source with other blanks: `lead` stands before the first token, and each of
`gaps` behind one. -/
def respace (source : String) (lead : List Char) (gaps : List (List Char)) : String :=
  String.ofList (lead ++ spaced source.toList (scan 0 0 source.toList) gaps)

/-- There are blanks for behind each token, and they keep the tokens apart. Only the last token may
have none behind it, and behind a comment they begin with a line break. -/
def KeepApart : List Token → List (List Char) → Prop
  | [], gaps => gaps = []
  | _ :: _, [] => False
  | t :: ts, gap :: gaps =>
    (∀ c ∈ gap, isBlank c = true) ∧ (gap = [] → ts = []) ∧
      (t.kind = .comment → gap = [] ∨ gap.head? = some '\n') ∧ KeepApart ts gaps

instance decidableKeepApart :
    (ts : List Token) → (gaps : List (List Char)) → Decidable (KeepApart ts gaps)
  | [], gaps => inferInstanceAs (Decidable (gaps = []))
  | _ :: _, [] => inferInstanceAs (Decidable False)
  | _ :: ts, gap :: gaps =>
    -- only the characters of the blanks are to be looked at, and not all that there are
    have := List.decidableBAll (fun c ↦ isBlank c = true) gap
    have := decidableKeepApart ts gaps
    inferInstanceAs (Decidable (_ ∧ _ ∧ _ ∧ _))

theorem slice_append (before text rest : List Char) :
    slice ⟨byteLength before, byteLength before + byteLength text⟩ (before ++ (text ++ rest))
      = text := by
  rw [slice, textUpTo_append, ← byteLength_append, ← List.append_assoc, textUpTo_append,
    List.drop_left]

theorem spaced_cons (before text rest : List Char) (ts : List Token) :
    spaced (before ++ (text ++ rest)) (ofText kind (byteLength before) text :: ts) (gap :: gaps)
      = text ++ (gap ++ spaced (before ++ (text ++ rest)) ts gaps) := by
  rw [spaced, List.zipWith_cons_cons, List.flatten_cons, List.append_assoc]
  exact congrArg (· ++ _) (slice_append before text rest)

theorem exists_eq_spaced (before cs : List Char) :
    ∃ lead gaps, (∀ c ∈ lead, isBlank c = true) ∧ (∀ gap ∈ gaps, ∀ c ∈ gap, isBlank c = true) ∧
      cs = lead ++ spaced (before ++ cs) (scan 0 (byteLength before) cs) gaps := by
  induction cs using piecewise generalizing before with
  | nil => exact ⟨[], [], by simp, by simp, rfl⟩
  | blank c cs hc ih =>
    obtain ⟨lead, gaps, hlead, hgaps, heq⟩ := ih (before ++ [c])
    rw [byteLength_concat, List.append_assoc, List.singleton_append] at heq
    refine ⟨c :: lead, gaps, List.forall_mem_cons.mpr ⟨hc, hlead⟩, hgaps, ?_⟩
    rw [scan_blank hc, List.cons_append, ← heq]
  | token kind text rest hleads ih =>
    obtain ⟨lead, gaps, hlead, hgaps, heq⟩ := ih (before ++ text)
    rw [byteLength_append, List.append_assoc] at heq
    refine ⟨[], lead :: gaps, by simp, List.forall_mem_cons.mpr ⟨hlead, hgaps⟩, ?_⟩
    rw [scan_leads hleads, List.nil_append, spaced_cons, ← heq]

/-- A check of `respace`: every source is its own tokens with blanks around them. -/
theorem exists_respace_eq_self (source : String) :
    ∃ lead gaps, (∀ c ∈ lead, isBlank c = true) ∧ (∀ gap ∈ gaps, ∀ c ∈ gap, isBlank c = true) ∧
      respace source lead gaps = source := by
  obtain ⟨lead, gaps, hlead, hgaps, heq⟩ := exists_eq_spaced [] source.toList
  rw [List.nil_append, byteLength_nil] at heq
  exact ⟨lead, gaps, hlead, hgaps, by rw [respace, ← heq, String.ofList_toList]⟩

/-! ## The tokens of a respaced source -/

theorem scan_blanks (hgap : ∀ c ∈ gap, isBlank c = true) (offset : Nat) (rest : List Char) :
    scan 0 offset (gap ++ rest) = scan 0 (offset + byteLength gap) rest := by
  induction gap generalizing offset with
  | nil => rfl
  | cons c gap ih =>
    obtain ⟨hc, hgap⟩ := List.forall_mem_cons.mp hgap
    rw [List.cons_append, scan_blank hc, ih hgap, byteLength_cons, Nat.add_assoc]

/-- A token is the same before other blanks. -/
theorem Leads.respaced (h : Leads kind text rest) (hlegal : kind ≠ .illegal)
    (hgap : ∀ c ∈ gap, isBlank c = true)
    (hcomment : kind = .comment → gap = [] ∨ gap.head? = some '\n')
    (hrest : gap = [] → cs = []) : Leads kind text (gap ++ cs) := by
  obtain ⟨c, part, rfl, hc, hmunch⟩ := h
  have halone : munch c part = (kind, part.length) := by
    rw [← hmunch]
    exact ((reading_munch c).eq_of_fits (by rw [hmunch])).symm
  refine ⟨c, part, rfl, hc, ?_⟩
  cases gap with
  | nil => rwa [hrest rfl, List.append_nil, List.append_nil]
  | cons b gap =>
    rw [List.cons_append, (reading_munch c).append_blank (hgap b List.mem_cons_self), halone]
    · intro hkind
      rw [halone] at hkind
      exact (hcomment hkind).elim (fun h ↦ absurd h (List.cons_ne_nil _ _)) Option.some.inj
    · rwa [halone]

/-- Kinds and lexemes do not change with the blanks. -/
theorem scan_spaced (before : List Char)
    (hlegal : ∀ t ∈ scan 0 (byteLength before) cs, t.kind ≠ .illegal)
    (hgaps : KeepApart (scan 0 (byteLength before) cs) gaps) (offset : Nat) :
    (scan 0 offset (spaced (before ++ cs) (scan 0 (byteLength before) cs) gaps)).map
        (fun t ↦ (t.kind, t.lexeme))
      = (scan 0 (byteLength before) cs).map fun t ↦ (t.kind, t.lexeme) := by
  induction cs using piecewise generalizing before gaps offset with
  | nil => rfl
  | blank c cs hc ih =>
    rw [scan_blank hc, ← byteLength_concat] at hlegal hgaps ⊢
    have hnext := ih (before ++ [c]) hlegal hgaps offset
    rwa [List.append_assoc, List.singleton_append] at hnext
  | token kind text rest hleads ih =>
    rw [scan_leads hleads, ← byteLength_append] at hlegal hgaps ⊢
    obtain ⟨hkind, hlegal⟩ := List.forall_mem_cons.mp hlegal
    obtain _ | ⟨gap, gaps⟩ := gaps
    · exact hgaps.elim
    obtain ⟨hgap, hlast, hcomment, hgaps⟩ := hgaps
    have hrest : gap = [] →
        spaced (before ++ (text ++ rest)) (scan 0 (byteLength (before ++ text)) rest) gaps = [] :=
      fun h ↦ by rw [hlast h]; rfl
    rw [spaced_cons, scan_leads (hleads.respaced hkind hgap hcomment hrest), scan_blanks hgap,
      List.map_cons, List.map_cons]
    have hnext := ih (before ++ text) hlegal hgaps
      (offset + byteLength text + byteLength gap)
    rw [List.append_assoc] at hnext
    rw [hnext]
    rfl

theorem scan_respace {source : String} {lead : List Char}
    (hlegal : ∀ t ∈ scan 0 0 source.toList, t.kind ≠ .illegal)
    (hlead : ∀ c ∈ lead, isBlank c = true) (hgaps : KeepApart (scan 0 0 source.toList) gaps) :
    (scan 0 0 (respace source lead gaps).toList).map (fun t ↦ (t.kind, t.lexeme))
      = (scan 0 0 source.toList).map fun t ↦ (t.kind, t.lexeme) := by
  rw [respace, String.toList_ofList, scan_blanks hlead]
  exact scan_spaced [] hlegal hgaps _

end DrawScript.Token
