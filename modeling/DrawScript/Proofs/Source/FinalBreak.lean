import DrawScript.Proofs.Parser.Visited
import DrawScript.Proofs.Source.Lines
import DrawScript.Proofs.Token.Partition

/-!
# A line break at the end of a source

Reading closes the last line of a text. That is harmless: a line break behind everything else ends
the tokens that it follows where they end anyway, completes none and breaks none
(`Token.scan_concat_newline`). A quote that has no partner does not get one by it, an escape that
the source breaks off covers no line break, and a number that ends in a point gets no digit.

So the tokens stay as they are and where they are. Only the end mark moves, and the tree does not
keep the end mark, which leaves the places of diagnostics (`Document.ofSource_closeLine`). What is
read from the bytes of a text without carriage returns is therefore parsed as the text itself is.
-/

namespace DrawScript

/-! ## Tokens before the last line break -/

namespace Token

variable {c quote : Char} {kind : Kind} {text rest cs : List Char}

/-- A line break at the end is no partner of a quote, and it cannot be escaped. -/
theorem munchString_concat_newline (hquote : quote ≠ '\n') (cs : List Char) :
    munchString quote (cs ++ ['\n']) = munchString quote cs := by
  fun_induction munchString quote cs with
  | case1 => simp [munchString, hquote.symm]
  | case2 => simp [munchString]
  | case3 => simp [munchString]
  | case4 c rest hbreak ih => simp [munchString, hbreak, ih]
  | case5 rest hend hmore =>
    rw [List.cons_append, munchString_cons (ne_backslash_of_unmatched hend hmore), if_pos rfl]
  | case6 c rest hend hmore hne ih =>
    rw [List.cons_append, munchString_cons (ne_backslash_of_unmatched hend hmore), if_neg hne, ih]

theorem Reading.concat_newline {f : List Char → Kind × Nat} (hf : Reading c f) (hc : c ≠ '\n')
    (cs : List Char) : f (cs ++ ['\n']) = f cs := by
  cases hf with
  | word =>
    have hrun : (cs ++ ['\n']).takeWhile isNamePart = cs.takeWhile isNamePart :=
      takeWhile_append_of_neg rfl
    simp only [hrun]
  | number => exact munchNumber_append_of_neg rfl (by decide)
  | comment =>
    have hrun : (cs ++ ['\n']).takeWhile (· != '\n') = cs.takeWhile (· != '\n') :=
      takeWhile_append_of_neg rfl
    simp only [hrun]
  | string => simp only [munchString_concat_newline hc]
  | pair two one => cases cs <;> rfl
  | mark => rfl

theorem Leads.concat_newline (h : Leads kind text rest) : Leads kind text (rest ++ ['\n']) := by
  obtain ⟨c, part, rfl, hc, hmunch⟩ := h
  have hne : c ≠ '\n' := by
    rintro rfl
    exact absurd hc (by decide)
  refine ⟨c, part, rfl, hc, ?_⟩
  rw [← List.append_assoc, (reading_munch c).concat_newline hne, hmunch]

/-- A line break at the end of a text changes none of its tokens, illegal ones included. -/
theorem scan_concat_newline (offset : Nat) (cs : List Char) :
    scan 0 offset (cs ++ ['\n']) = scan 0 offset cs := by
  induction cs using piecewise generalizing offset with
  | nil => rw [List.nil_append, scan_blank rfl, scan, scan]
  | blank c cs hc ih => rw [List.cons_append, scan_blank hc, scan_blank hc, ih]
  | token kind text rest hleads ih =>
    rw [List.append_assoc, scan_leads hleads.concat_newline, scan_leads hleads, ih]

end Token

/-! ## The end mark -/

/-- Only what stands at `start` and covers nothing moves, and it moves to `target`. -/
def Relocation.ofMark (start target : Nat) : Relocation where
  place span := if span = ⟨start, start⟩ then ⟨target, target⟩ else span
  mark offset := if offset = start then target else offset
  place_mark offset := by
    by_cases h : offset = start
    · rw [h, if_pos rfl, if_pos rfl]
    · rw [if_neg h, if_neg fun heq ↦ h (congrArg Span.start heq)]

/-- Tokens cover something, so they stay. -/
theorem Relocation.fixes_ofMark {start target offset : Nat} {cs : List Char} :
    (Relocation.ofMark start target).Fixes (Token.scan 0 offset cs) := by
  intro t ht
  have hspan := Token.start_lt_stop_of_mem_scan ht
  have hne : t.span ≠ ⟨start, start⟩ := fun heq ↦ by
    rw [heq] at hspan
    exact Nat.lt_irrefl start hspan
  exact congrArg (Token.mk t.kind t.lexeme) (if_neg hne)

namespace Document

open DrawScript.Parser (State carries_program relocate_program_eq_self)

variable {text : String}

/-- Two texts with the same tokens have the same tree, and their diagnostics differ in the place of
the end mark. -/
theorem ofSource_of_scan_eq {source : String}
    (h : Token.scan 0 0 text.toList = Token.scan 0 0 source.toList) :
    (ofSource text).program = (ofSource source).program ∧
      (ofSource text).diagnostics = (ofSource source).diagnostics.map
        (·.relocate (.ofMark source.utf8ByteSize text.utf8ByteSize)) := by
  set r := Relocation.ofMark source.utf8ByteSize text.utf8ByteSize
  have hfixes : r.Fixes (State.ofSource source).pending := Relocation.fixes_ofMark
  have hstate : State.ofSource text = (State.ofSource source).relocate r := by
    have hpending : (Token.scan 0 0 source.toList).map (·.relocate r)
        = Token.scan 0 0 source.toList :=
      (List.map_congr_left hfixes).trans (List.map_id _)
    have hmark : r.mark source.utf8ByteSize = text.utf8ByteSize := if_pos rfl
    simp only [State.relocate, State.ofSource, hpending, hmark, h, Array.map_empty]
  have hrun := carries_program r (.ofSource source)
  dsimp only at hrun
  rw [← hstate, relocate_program_eq_self _ hfixes] at hrun
  constructor
  · exact congrArg Prod.fst hrun
  · exact (congrArg (fun run : Program × State ↦ run.2.diagnostics.toList) hrun).trans
      Array.toList_map

/-- Closing the last line of a text changes nothing but the place of the end mark. -/
theorem ofSource_closeLine (source : String) :
    (ofSource (Format.closeLine source)).program = (ofSource source).program ∧
      (ofSource (Format.closeLine source)).diagnostics = (ofSource source).diagnostics.map
        (·.relocate (.ofMark source.utf8ByteSize (Format.closeLine source).utf8ByteSize)) := by
  refine ofSource_of_scan_eq ?_
  rw [Format.closeLine]
  split_ifs with hclosed
  · rfl
  · rw [String.toList_append]
    exact Token.scan_concat_newline 0 source.toList

/-- **A text is parsed in the same way from its bytes.** The bytes of a text that has no carriage
returns can be read, and what is read has the tree of the text, all its tokens in their places, and
the diagnostics of the text, in which only the end mark has moved to the end of what was read. The
text may be damaged in every way. -/
theorem ofSource_read_encode (source : String) (h : '\r' ∉ source.toList) :
    ∃ text, Source.read (Source.encode source) = .ok text ∧
      (ofSource text).program = (ofSource source).program ∧
      (ofSource text).diagnostics = (ofSource source).diagnostics.map
        (·.relocate (.ofMark source.utf8ByteSize text.utf8ByteSize)) := by
  refine ⟨Format.closeLine source, ?_, ofSource_closeLine source⟩
  rw [Source.read_encode, Source.unifyBreaks_of_not_mem (.inl h)]

/-- A function that is not closed, in it a quote without partner and a backslash at the very end.
The last diagnostic asks for a brace at the end of what was read. -/
theorem ofSource_read_encode_unfinished :
    '\r' ∉ "fn(a) \x7b f('a\\".toList ∧
      ∃ text, Source.read (Source.encode "fn(a) \x7b f('a\\") = .ok text ∧
        (ofSource text).program.render = "fn(a) \x7b f(). a \x7d" ∧
        (ofSource text).diagnostics.map (·.span)
          = [⟨10, 11⟩, ⟨11, 12⟩, ⟨12, 13⟩, ⟨text.utf8ByteSize, text.utf8ByteSize⟩] := by
  have hreturn : '\r' ∉ "fn(a) \x7b f('a\\".toList := by decide
  obtain ⟨text, hread, hprogram, hdiagnostics⟩ := ofSource_read_encode _ hreturn
  refine ⟨hreturn, text, hread, ?_, ?_⟩
  · rw [hprogram]
    decide +kernel
  · have hspans : (ofSource "fn(a) \x7b f('a\\").diagnostics.map (·.span)
        = [⟨10, 11⟩, ⟨11, 12⟩, ⟨12, 13⟩, ⟨13, 13⟩] := by decide +kernel
    have hmoved : ∀ r : Relocation, ((ofSource "fn(a) \x7b f('a\\").diagnostics.map
        (·.relocate r)).map (·.span) = [⟨10, 11⟩, ⟨11, 12⟩, ⟨12, 13⟩, ⟨13, 13⟩].map r.place := by
      intro r
      rw [← hspans, List.map_map, List.map_map]
      rfl
    rw [hdiagnostics, hmoved]
    rfl

end Document

end DrawScript
