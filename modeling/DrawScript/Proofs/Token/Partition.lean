import DrawScript.Proofs.Token.Pieces

/-!
# Tokens partition the source

Every byte of a source belongs to one token or to a blank. This file says so in terms of spans: each
token covers a text of the source, the spans do not overlap and stand in order, and what lies
outside all of them is blank (`Partitions`). The lexeme of a token is the text that it covers, but
for strings, whose lexeme is the value of the text between the quotes.

A cursor reads the same tokens one at a time. It has no memory but its place, and what it has still
to read are the tokens of the text from there on (`Faces`), so that asking it again and again walks
through the stream and then stays at its end (`Faces.answers_eq_readAll`).
-/

namespace DrawScript

/-! ## Texts and spans -/

/-- The span is that of this text, which stands somewhere in the source. Both ends of the span are
then ends of characters. -/
def Span.Covers (span : Span) (source text : String) : Prop :=
  ∃ before after, source = before ++ text ++ after ∧ span.start = before.utf8ByteSize ∧
    span.stop = before.utf8ByteSize + text.utf8ByteSize

/-- The byte at this offset is one of the span. -/
def Span.Holds (span : Span) (offset : Nat) : Prop :=
  span.start ≤ offset ∧ offset < span.stop

namespace Token

variable {kind : Kind} {cs text rest : List Char} {t : Token} {ts : List Token}

/-- The token says what the text that it covers says. -/
structure Transcribes (token : Token) (text : String) : Prop where
  lexeme : token.kind ≠ .string → token.lexeme = text
  string : token.kind = .string → ∃ quote content, (quote = '"' ∨ quote = '\'') ∧
    text = String.ofList (quote :: (content ++ [quote])) ∧ Content quote content token.lexeme.toList
  illegal : token.kind = .illegal → ∃ c, text = String.singleton c

/-- The tokens and the blanks between them make up the source. -/
structure Partitions (source : String) (tokens : List Token) : Prop where
  covers : ∀ t ∈ tokens, ∃ text, t.span.Covers source text ∧ t.Transcribes text
  inside : ∀ t ∈ tokens, t.span.start < t.span.stop ∧ t.span.stop ≤ source.utf8ByteSize
  ordered : tokens.Pairwise fun t u ↦ t.span.stop ≤ u.span.start
  blank : ∀ offset < source.utf8ByteSize, (∀ t ∈ tokens, ¬t.span.Holds offset) →
    ∃ (c : Char) (span : Span), isBlank c = true ∧ span.Covers source (String.singleton c) ∧
      span.Holds offset

theorem covers_ofList (before text after : List Char) :
    Span.Covers ⟨byteLength before, byteLength before + byteLength text⟩
      (String.ofList (before ++ (text ++ after))) (String.ofList text) := by
  refine ⟨String.ofList before, String.ofList after, ?_, ?_, ?_⟩
  · rw [String.ofList_append, String.ofList_append, String.append_assoc]
  · rw [utf8ByteSize_ofList]
  · rw [utf8ByteSize_ofList, utf8ByteSize_ofList]

theorem Leads.transcribes (h : Leads kind text rest) (offset : Nat) :
    (ofText kind offset text).Transcribes (String.ofList text) where
  lexeme hkind := by
    cases kind with
    | string => exact absurd rfl hkind
    | _ => rfl
  string hkind := by
    obtain rfl : kind = .string := hkind
    obtain ⟨quote, content, value, hquote, rfl, hcontent⟩ := h.exists_content
    refine ⟨quote, content, hquote, rfl, ?_⟩
    rw [ofText, lexemeOf, List.tail_cons, List.dropLast_concat, hcontent.unescape_eq,
      String.toList_ofList]
    exact hcontent
  illegal hkind := by
    obtain rfl : kind = .illegal := hkind
    obtain ⟨c, rfl⟩ := h.exists_char
    exact ⟨c, String.singleton_eq_ofList.symm⟩

/-! ## The tokens of a source -/

theorem exists_covers_of_mem_scan {source : String} (h : t ∈ scan 0 0 source.toList) :
    ∃ text, t.span.Covers source text ∧ t.Transcribes text := by
  obtain ⟨before, kind, text, rest, heq, hleads, rfl⟩ := exists_leads_of_mem_scan h
  have hcovers := covers_ofList before text rest
  rw [← heq, String.ofList_toList] at hcovers
  rw [Nat.zero_add]
  exact ⟨String.ofList text, hcovers, hleads.transcribes _⟩

theorem start_lt_stop_of_mem_scan {offset : Nat} (h : t ∈ scan 0 offset cs) :
    t.span.start < t.span.stop := by
  obtain ⟨before, kind, text, rest, -, ⟨c, part, rfl, -, -⟩, rfl⟩ := exists_leads_of_mem_scan h
  have hpos := c.utf8Size_pos
  simp only [ofText, byteLength_cons]
  omega

/-- A byte that no token holds is that of a blank. -/
theorem exists_blank_of_not_holds (before : List Char) {offset : Nat}
    (hstart : byteLength before ≤ offset) (hstop : offset < byteLength (before ++ cs))
    (h : ∀ t ∈ scan 0 (byteLength before) cs, ¬t.span.Holds offset) :
    ∃ (c : Char) (span : Span), isBlank c = true ∧
      span.Covers (String.ofList (before ++ cs)) (String.singleton c) ∧ span.Holds offset := by
  induction cs using piecewise generalizing before with
  | nil =>
    rw [List.append_nil] at hstop
    omega
  | blank c cs hc ih =>
    by_cases hhere : offset < byteLength (before ++ [c])
    · have hcovers := covers_ofList before [c] cs
      rw [← String.singleton_eq_ofList] at hcovers
      refine ⟨c, _, hc, hcovers, hstart, ?_⟩
      rwa [byteLength_append] at hhere
    · rw [scan_blank hc, ← byteLength_concat] at h
      have hnext := ih (before ++ [c]) (Nat.le_of_not_lt hhere)
        (by rwa [List.append_assoc, List.singleton_append]) h
      rwa [List.append_assoc, List.singleton_append] at hnext
  | token kind text rest hleads ih =>
    rw [scan_leads hleads] at h
    obtain ⟨hfirst, hmore⟩ := List.forall_mem_cons.mp h
    have hbehind : byteLength (before ++ text) ≤ offset := by
      rw [byteLength_append]
      exact Nat.le_of_not_lt fun hlt ↦ hfirst ⟨hstart, hlt⟩
    have hnext := ih (before ++ text) hbehind (by rwa [List.append_assoc])
      (by rwa [byteLength_append])
    rwa [List.append_assoc] at hnext

theorem partitions_scan (source : String) : Partitions source (scan 0 0 source.toList) where
  covers _ ht := exists_covers_of_mem_scan ht
  inside t ht := by
    have hstop := (span_of_mem_scan ht).2.2
    rw [Nat.zero_add, ← utf8ByteSize_eq_byteLength] at hstop
    exact ⟨start_lt_stop_of_mem_scan ht, hstop⟩
  ordered := pairwise_scan 0 0 source.toList
  blank offset hoffset h := by
    rw [utf8ByteSize_eq_byteLength, ← List.nil_append source.toList] at hoffset
    have hblank := exists_blank_of_not_holds [] (Nat.zero_le _) hoffset h
    rwa [List.nil_append, String.ofList_toList] at hblank

/-! ## Reading one token at a time -/

/-- The ways to ask for tokens: for the next one, for the next one if there is one, and for all that
are left. -/
inductive Query where
  | next
  | next?
  | remaining
  deriving DecidableEq, Repr

/-- What is given for a query. -/
inductive Answer where
  | token (token : Token)
  | token? (token : Option Token)
  | tokens (tokens : List Token)
  deriving DecidableEq, Repr

/-- What a cursor gives for a query, and the cursor afterwards. -/
def Cursor.answer (cursor : Cursor) : Query → Answer × Cursor
  | .next => (.token cursor.next.1, cursor.next.2)
  | .next? => (.token? cursor.next?.1, cursor.next?.2)
  | .remaining => (.tokens cursor.remaining.1, cursor.remaining.2)

/-- What a cursor gives for queries one after the other. -/
def Cursor.answers : Cursor → List Query → List Answer
  | _, [] => []
  | cursor, query :: queries => (cursor.answer query).1 :: (cursor.answer query).2.answers queries

/-- What is read from a list of tokens whose end mark stands at `stop`, query by query. Each query
takes tokens off the list, and at its end there is the end mark or nothing. -/
def readAll (stop : Nat) : List Token → List Query → List Answer
  | _, [] => []
  | ts, .next :: queries => .token (ts.headD (eof stop)) :: readAll stop ts.tail queries
  | ts, .next? :: queries => .token? ts.head? :: readAll stop ts.tail queries
  | ts, .remaining :: queries => .tokens ts :: readAll stop [] queries

/-- The cursor has these tokens still to read, and its text ends at `stop`. -/
structure Faces (cursor : Cursor) (stop : Nat) (tokens : List Token) : Prop where
  scan_eq : scan 0 cursor.offset cursor.rest = tokens
  stop_eq : cursor.offset + byteLength cursor.rest = stop

variable {cursor : Cursor} {stop : Nat}

theorem faces_ofSource (source : String) :
    Faces (.ofSource source) source.utf8ByteSize (scan 0 0 source.toList) :=
  ⟨rfl, by rw [utf8ByteSize_eq_byteLength]; exact Nat.zero_add _⟩

theorem Cursor.stop_skip (cursor : Cursor) (n : Nat) :
    (cursor.skip n).offset + byteLength (cursor.skip n).rest
      = cursor.offset + byteLength cursor.rest := by
  rw [skip, Nat.add_assoc, ← byteLength_append, List.take_append_drop]

theorem Cursor.rest_skipBlanks (cursor : Cursor) :
    cursor.skipBlanks.rest = cursor.rest.dropWhile isBlank := by
  have hdrop : (cursor.rest.takeWhile isBlank ++ cursor.rest.dropWhile isBlank).drop
      (cursor.rest.takeWhile isBlank).length = cursor.rest.dropWhile isBlank := List.drop_left
  rwa [List.takeWhile_append_dropWhile] at hdrop

theorem scan_skipBlanks (cursor : Cursor) :
    scan 0 cursor.skipBlanks.offset cursor.skipBlanks.rest = scan 0 cursor.offset cursor.rest := by
  obtain ⟨offset, rest⟩ := cursor
  induction rest generalizing offset with
  | nil => rfl
  | cons c cs ih =>
    cases hc : isBlank c with
    | true =>
      rw [scan_blank hc, ← ih]
      simp [Cursor.skipBlanks, Cursor.skip, hc, Nat.add_assoc]
    | false => simp [Cursor.skipBlanks, Cursor.skip, hc]

theorem Faces.skipBlanks (h : Faces cursor stop ts) : Faces cursor.skipBlanks stop ts :=
  ⟨(scan_skipBlanks cursor).trans h.scan_eq, (cursor.stop_skip _).trans h.stop_eq⟩

/-- The next token is the first of those to read, and the others are left. -/
theorem Faces.next (h : Faces cursor stop ts) :
    cursor.next.1 = ts.headD (eof stop) ∧ Faces cursor.next.2 stop ts.tail := by
  obtain ⟨hscan, hstop⟩ := h.skipBlanks
  have hhead := List.head?_dropWhile_not isBlank cursor.rest
  rw [← cursor.rest_skipBlanks] at hhead
  rw [Cursor.next]
  cases hrest : cursor.skipBlanks.rest with
  | nil =>
    rw [hrest] at hscan hstop
    obtain rfl : [] = ts := hscan
    exact ⟨congrArg eof hstop, by rw [hrest]; rfl, by rw [hrest]; exact hstop⟩
  | cons c cs =>
    rw [hrest] at hscan hhead
    rw [scan_of_not_blank hhead] at hscan
    subst hscan
    refine ⟨rfl, ?_, ?_⟩
    · simp only [Cursor.skip, hrest, List.take_succ_cons, List.drop_succ_cons, List.tail_cons]
    · exact (Cursor.stop_skip _ _).trans hstop

theorem Faces.kind_ne_eof (h : Faces cursor stop ts) : ∀ t ∈ ts, t.kind ≠ .eof := by
  intro t ht
  rw [← h.scan_eq] at ht
  exact (spelled_of_mem_scan ht).kind_ne_eof

/-- Where a token is asked for that may be missing, it is missing at the end alone. -/
theorem Faces.next? (h : Faces cursor stop ts) : cursor.next?.1 = ts.head? := by
  rw [Cursor.next?]
  dsimp only
  rw [h.next.1]
  cases ts with
  | nil => rfl
  | cons t ts =>
    have hkind : t.isEof = false := by
      rw [isEof, beq_eq_false_iff_ne]
      exact h.kind_ne_eof t List.mem_cons_self
    rw [List.headD_cons, hkind]
    rfl

theorem Faces.remaining (h : Faces cursor stop ts) :
    cursor.remaining.1 = ts ∧ Faces cursor.remaining.2 stop [] := by
  refine ⟨h.scan_eq, ?_, (cursor.stop_skip _).trans h.stop_eq⟩
  rw [Cursor.remaining, Cursor.skip, List.drop_length, scan]

/-- One query takes from the cursor what it takes from the tokens to read. -/
theorem Faces.answer (h : Faces cursor stop ts) (query : Query) (queries : List Query) :
    ∃ ts', Faces (cursor.answer query).2 stop ts' ∧
      readAll stop ts (query :: queries)
        = (cursor.answer query).1 :: readAll stop ts' queries := by
  obtain ⟨hnext, hmore⟩ := h.next
  cases query with
  | next => exact ⟨ts.tail, hmore, by rw [readAll, Cursor.answer, hnext]⟩
  | next? => exact ⟨ts.tail, hmore, by rw [readAll, Cursor.answer, h.next?]⟩
  | remaining =>
    obtain ⟨hall, hnone⟩ := h.remaining
    exact ⟨[], hnone, by rw [readAll, Cursor.answer, hall]⟩

/-- Any number of queries takes from the cursor what it takes from the tokens to read. -/
theorem Faces.answers_eq_readAll (h : Faces cursor stop ts) (queries : List Query) :
    cursor.answers queries = readAll stop ts queries := by
  induction queries generalizing cursor ts with
  | nil => rfl
  | cons query queries ih =>
    obtain ⟨ts', hfaces, hread⟩ := h.answer query queries
    rw [hread, Cursor.answers, ih hfaces]

/-- **Tokens partition the source.** The stream ends with one end mark, at the end of the source.
Its other tokens cover texts that follow each other in the source with nothing but blanks outside,
and say what these texts say. However a cursor is asked, it reads this stream from its beginning and
gives the end mark, or nothing, when there is no more. -/
theorem tokenize_partitions (source : String) :
    ∃ ts, tokenize source = ts ++ [eof source.utf8ByteSize] ∧ (∀ t ∈ ts, t.kind ≠ .eof) ∧
      Partitions source ts ∧
      ∀ queries, (Cursor.ofSource source).answers queries
        = readAll source.utf8ByteSize ts queries := by
  have hfaces := faces_ofSource source
  exact ⟨scan 0 0 source.toList, rfl, hfaces.kind_ne_eof, partitions_scan source,
    hfaces.answers_eq_readAll⟩

/-- A quote without a partner is one token, and scanning goes on right behind it. -/
example :
    (Cursor.ofSource "'é \"a\\\"b\" ").answers [.next?, .remaining, .next, .next?]
      = [.token? (some ⟨.illegal, "'", ⟨0, 1⟩⟩),
        .tokens [⟨.illegal, "é", ⟨1, 3⟩⟩, ⟨.string, "a\"b", ⟨4, 10⟩⟩],
        .token (eof 11), .token? none] := by
  decide

end Token

end DrawScript
