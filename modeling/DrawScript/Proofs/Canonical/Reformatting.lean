import DrawScript.Proofs.Canonical.RoundTrip
import DrawScript.Proofs.Source.FinalBreak

/-!
# Formatting a drawing twice

A drawing that is written in the render format, read back from the bytes and written once more need
not come out as it was written first. Scanning keeps the carriage return at the end of a comment and
the line breaks in a string, but reading takes a carriage return away before each line feed. A
comment that ends in two of them loses one when the drawing is read for the first time and the other
one when what was written is read.

Nothing else changes. Unifying the line breaks of a canonical text is unifying those of the comments
and strings of its script (`Program.render_unifyBreaks`), and what comes of it is the canonical text
of a well-formed script again (`Program.WellFormed.unifyBreaks`). Fixed texts, operators and words
hold no carriage return, so line breaks of two characters stand inside of strings and at the end of
comments only, and a text never ends in a carriage return that closing its last line would make part
of one.
-/

namespace DrawScript

open Source (chomp dropReturns unifyBreaks_append_left unifyBreaks_append_mark
  unifyBreaks_append_newline unifyBreaks_append_right unifyBreaks_of_not_mem)

/-! ## Scripts with unified line breaks -/

mutual

/-- The expression with unified line breaks in its strings. -/
def Expr.unifyBreaks : Expr → Expr
  | .string token value =>
    .string { token with lexeme := Source.unifyBreaks token.lexeme } (Source.unifyBreaks value)
  | .unary token operator right => .unary token operator right.unifyBreaks
  | .binary token left operator right =>
    .binary token left.unifyBreaks operator right.unifyBreaks
  | .function token parameters brace body =>
    .function token parameters brace (Stmt.unifyBreaksList body)
  | .call token callee arguments =>
    .call token callee.unifyBreaks (Expr.unifyBreaksList arguments)
  | .array token elements => .array token (Expr.unifyBreaksList elements)
  | .index token left position => .index token left.unifyBreaks position.unifyBreaks
  | e => e

/-- The expressions with unified line breaks. -/
def Expr.unifyBreaksList : List Expr → List Expr
  | [] => []
  | e :: es => e.unifyBreaks :: Expr.unifyBreaksList es

/-- The statement with unified line breaks. The line break behind a comment is not part of its
token, but a carriage return before it is. -/
def Stmt.unifyBreaks : Stmt → Stmt
  | .comment token =>
    .comment { token with lexeme := String.ofList (chomp token.lexeme.toList) }
  | .expression token value => .expression token value.unifyBreaks

/-- The statements with unified line breaks. -/
def Stmt.unifyBreaksList : List Stmt → List Stmt
  | [] => []
  | s :: ss => s.unifyBreaks :: Stmt.unifyBreaksList ss

end

/-- The script with unified line breaks. -/
def Program.unifyBreaks (program : Program) : Program :=
  ⟨Stmt.unifyBreaksList program.statements⟩

/-! ## Carriage returns in tokens -/

theorem Token.Spelled.return_not_mem {t : Token} (ht : t.Spelled) (hkind : t.kind ∈ wordKinds) :
    '\r' ∉ t.lexeme.toList := by
  have hdigits : ∀ cs, IsDigits cs → '\r' ∉ cs := fun cs hcs hmem ↦
    absurd (hcs.2 _ hmem) (by decide)
  simp only [wordKinds, List.mem_cons, List.not_mem_nil, or_false] at hkind
  rcases hkind with h | h | h | h | h | h <;> rw [Spelled, h] at ht
  · obtain ⟨⟨c, part, hlexeme, hc, hpart⟩, -⟩ := ht
    rw [hlexeme, List.mem_cons, not_or]
    constructor
    · rintro rfl
      exact absurd hc (by decide)
    · exact fun hmem ↦ absurd (hpart _ hmem) (by decide)
  · exact hdigits _ ht
  · obtain ⟨whole, fraction, hwhole, hfraction, hlexeme⟩ := ht
    rw [hlexeme]
    simp [hdigits _ hwhole, hdigits _ hfraction]
  all_goals
    rw [ht]
    decide

theorem return_not_mem_of_denotes {t : Token} {e : Expr} (ht : t.Spelled) (h : t.Denotes e)
    (hstring : e.nodeType ≠ .string) : '\r' ∉ t.lexeme.toList :=
  ht.return_not_mem (Grammar.kind_mem_wordKinds h hstring)

theorem Identifier.WellFormed.return_not_mem {name : Identifier} (h : name.WellFormed) :
    '\r' ∉ name.value.toList := by
  obtain ⟨⟨hkind, hspelled⟩, hvalue⟩ := h
  rw [hvalue]
  exact hspelled.return_not_mem (by rw [hkind]; decide)

theorem return_not_mem_renderParameters : (ps : List Identifier) →
    (∀ name ∈ ps, name.WellFormed) → '\r' ∉ (renderParameters ps).toList
  | [], _ => by decide
  | [name], h => by
    rw [renderParameters, List.map_singleton, String.intercalate_singleton]
    exact (h name List.mem_cons_self).return_not_mem
  | name :: name' :: ps, h => by
    have hname := (h name List.mem_cons_self).return_not_mem
    have hmore := return_not_mem_renderParameters (name' :: ps) fun n hn ↦
      h n (List.mem_cons_of_mem name hn)
    rw [renderParameters, List.map_cons, List.map_cons, String.intercalate_cons_cons,
      ← List.map_cons, ← renderParameters]
    simp [hname, hmore]

theorem Token.IsA.exists_comment {t : Token} (h : t.IsA .comment) :
    ∃ text, t.lexeme.toList = '%' :: text ∧ '\n' ∉ text := by
  obtain ⟨hkind, hspelled⟩ := h
  rwa [Spelled, hkind] at hspelled

theorem Token.IsA.newline_not_mem {t : Token} (h : t.IsA .comment) : '\n' ∉ t.lexeme.toList := by
  obtain ⟨text, hlexeme, htext⟩ := h.exists_comment
  rw [hlexeme]
  simp [htext]

/-- What is left of a comment without its carriage return is a comment. -/
theorem Token.IsA.chomp {t : Token} (h : t.IsA .comment) :
    Token.IsA { t with lexeme := String.ofList (Source.chomp t.lexeme.toList) } .comment := by
  obtain ⟨text, hlexeme, htext⟩ := h.exists_comment
  refine ⟨h.1, ?_⟩
  rw [Spelled, h.1, String.toList_ofList, hlexeme, Source.chomp_cons (by decide)]
  exact ⟨Source.chomp text, rfl, fun hmem ↦ htext (Source.chomp_subset text hmem)⟩

/-- Escapes are put before quotes and backslashes, so they stand in no line break. -/
theorem escape_dropReturns (cs : List Char) :
    StringLiteral.escape (dropReturns cs) = dropReturns (StringLiteral.escape cs) := by
  induction cs with
  | nil => rfl
  | cons c cs ih =>
    have hhead : (StringLiteral.escape cs).head? = some '\n' ↔ cs.head? = some '\n' := by
      cases cs with
      | nil => rfl
      | cons d cs =>
        rw [StringLiteral.escape]
        split_ifs with hd
        · rcases hd with rfl | rfl <;> simp
        · rfl
    rw [dropReturns, StringLiteral.escape]
    by_cases hc : c = '"' ∨ c = '\\'
    · have hne : c ≠ '\r' := by rcases hc with rfl | rfl <;> decide
      simp [StringLiteral.escape, dropReturns, hc, hne, ih]
    · rw [if_neg hc, dropReturns]
      simp only [hhead]
      by_cases hbreak : c = '\r' ∧ cs.head? = some '\n'
      · rw [if_pos hbreak, if_pos hbreak, ih]
      · rw [if_neg hbreak, if_neg hbreak, StringLiteral.escape, if_neg hc, ih]

theorem StringLiteral.render_unifyBreaks (value : String) :
    StringLiteral.render (Source.unifyBreaks value)
      = Source.unifyBreaks (StringLiteral.render value) := by
  have hescape : String.ofList (escape (Source.unifyBreaks value).toList)
      = Source.unifyBreaks (String.ofList (escape value.toList)) := by
    rw [Source.unifyBreaks, Source.unifyBreaks, String.toList_ofList, String.toList_ofList,
      escape_dropReturns]
  rw [render, render, unifyBreaks_append_right (by decide), unifyBreaks_append_left (by decide),
    hescape]

/-! ## Trees -/

mutual

theorem Expr.WellFormed.unifyBreaks : {e : Expr} → e.WellFormed → e.unifyBreaks.WellFormed
  | .identifier _, h => h
  | .integer _ _, h => h
  | .real _ _, h => h
  | .boolean _ _, h => h
  | .string token value, h => by
    obtain ⟨hspelled, hdenotes⟩ := h
    cases hdenotes with
    | string hkind => exact ⟨by rw [Token.Spelled, hkind]; trivial, .string hkind⟩
  | .unary _ _ _, ⟨hspelled, hoperator, hright⟩ => ⟨hspelled, hoperator, hright.unifyBreaks⟩
  | .binary _ _ _ _, ⟨hspelled, hoperator, hleft, hright⟩ =>
    ⟨hspelled, hoperator, hleft.unifyBreaks, hright.unifyBreaks⟩
  | .function _ _ _ _, ⟨htoken, hnames, hbrace, hbody⟩ =>
    ⟨htoken, hnames, hbrace, Stmt.wellFormedList_unifyBreaks hbody⟩
  | .call _ _ _, ⟨htoken, hcallee, harguments⟩ =>
    ⟨htoken, hcallee.unifyBreaks, Expr.wellFormedList_unifyBreaks harguments⟩
  | .array _ _, ⟨htoken, helements⟩ => ⟨htoken, Expr.wellFormedList_unifyBreaks helements⟩
  | .index _ _ _, ⟨htoken, hleft, hposition⟩ =>
    ⟨htoken, hleft.unifyBreaks, hposition.unifyBreaks⟩

theorem Expr.wellFormedList_unifyBreaks : {es : List Expr} → Expr.WellFormedList es →
    Expr.WellFormedList (Expr.unifyBreaksList es)
  | [], h => h
  | _ :: _, ⟨he, hes⟩ => ⟨he.unifyBreaks, Expr.wellFormedList_unifyBreaks hes⟩

theorem Stmt.WellFormed.unifyBreaks : {s : Stmt} → s.WellFormed → s.unifyBreaks.WellFormed
  | .comment _, h => h.chomp
  | .expression _ value, h => Expr.WellFormed.unifyBreaks (e := value) h

theorem Stmt.wellFormedList_unifyBreaks : {ss : List Stmt} → Stmt.WellFormedList ss →
    Stmt.WellFormedList (Stmt.unifyBreaksList ss)
  | [], h => h
  | _ :: _, ⟨hs, hss⟩ => ⟨hs.unifyBreaks, Stmt.wellFormedList_unifyBreaks hss⟩

end

mutual

theorem Expr.render_unifyBreaks : (e : Expr) → e.WellFormed →
    e.unifyBreaks.render = Source.unifyBreaks e.render
  | .identifier name => fun h ↦ (unifyBreaks_of_not_mem (.inl h.return_not_mem)).symm
  | .integer _ _ => fun h ↦
    (unifyBreaks_of_not_mem (.inl (return_not_mem_of_denotes h.1 h.2 nofun))).symm
  | .real _ _ => fun h ↦
    (unifyBreaks_of_not_mem (.inl (return_not_mem_of_denotes h.1 h.2 nofun))).symm
  | .boolean _ _ => fun h ↦
    (unifyBreaks_of_not_mem (.inl (return_not_mem_of_denotes h.1 h.2 nofun))).symm
  | .string _ value => fun _ ↦ StringLiteral.render_unifyBreaks value
  | .unary _ operator right => by
    rintro ⟨-, -, hright⟩
    have hopening : '\r' ∉ ("(" ++ operator.text).toList := by cases operator <;> decide
    rw [Expr.unifyBreaks, Expr.render, Expr.render, Expr.render_unifyBreaks right hright,
      unifyBreaks_append_right (by decide), unifyBreaks_append_left hopening]
  | .binary _ left operator right => by
    rintro ⟨-, -, hleft, hright⟩
    have hoperator : '\n' ∉ operator.text.toList := by cases operator <;> decide
    rw [Expr.unifyBreaks, Expr.render, Expr.render, Expr.render_unifyBreaks left hleft,
      Expr.render_unifyBreaks right hright, unifyBreaks_append_right (by decide),
      unifyBreaks_append_mark (by decide), unifyBreaks_append_right hoperator,
      unifyBreaks_append_right (by decide), unifyBreaks_append_left (by decide)]
  | .function token parameters _ body => by
    rintro ⟨⟨hkind, hspelled⟩, hnames, -, hbody⟩
    have hword := hspelled.return_not_mem (by rw [hkind]; decide)
    have hopening :
        '\r' ∉ (token.lexeme ++ "(" ++ renderParameters parameters ++ ") \x7b ").toList := by
      simp [hword, return_not_mem_renderParameters parameters hnames]
    have hempty : (Stmt.unifyBreaksList body).isEmpty = body.isEmpty := by
      cases body <;> rfl
    have hclosing : '\n' ∉ (if body.isEmpty then "\x7d" else " \x7d").toList := by
      split_ifs <;> decide
    rw [Expr.unifyBreaks, Expr.render, Expr.render, hempty,
      Stmt.renderList_unifyBreaks " " (by decide) body hbody, unifyBreaks_append_right hclosing,
      unifyBreaks_append_left hopening]
  | .call _ callee arguments => by
    rintro ⟨-, hcallee, harguments⟩
    rw [Expr.unifyBreaks, Expr.render, Expr.render, Expr.render_unifyBreaks callee hcallee,
      Expr.renderList_unifyBreaks arguments harguments, unifyBreaks_append_right (by decide),
      unifyBreaks_append_mark (by decide)]
  | .array _ elements => by
    rintro ⟨-, helements⟩
    rw [Expr.unifyBreaks, Expr.render, Expr.render,
      Expr.renderList_unifyBreaks elements helements, unifyBreaks_append_right (by decide),
      unifyBreaks_append_left (by decide)]
  | .index _ left position => by
    rintro ⟨-, hleft, hposition⟩
    rw [Expr.unifyBreaks, Expr.render, Expr.render, Expr.render_unifyBreaks left hleft,
      Expr.render_unifyBreaks position hposition, unifyBreaks_append_right (by decide),
      unifyBreaks_append_mark (by decide), unifyBreaks_append_left (by decide)]

theorem Expr.renderList_unifyBreaks : (es : List Expr) → Expr.WellFormedList es →
    Expr.renderList (Expr.unifyBreaksList es) = Source.unifyBreaks (Expr.renderList es)
  | [] => fun _ ↦ rfl
  | [e] => fun h ↦ Expr.render_unifyBreaks e h.1
  | e :: e' :: es => fun h ↦ by
    have htail := Expr.renderList_unifyBreaks (e' :: es) h.2
    rw [Expr.unifyBreaksList] at htail
    rw [Expr.unifyBreaksList, Expr.unifyBreaksList, Expr.renderList, Expr.renderList, htail,
      Expr.render_unifyBreaks e h.1, unifyBreaks_append_mark (by decide)]

theorem Stmt.render_unifyBreaks : (s : Stmt) → s.WellFormed →
    s.unifyBreaks.render = Source.unifyBreaks s.render
  | .comment token => fun h ↦ by
    have hline := unifyBreaks_append_newline h.newline_not_mem ""
    rw [String.append_empty] at hline
    rw [Stmt.unifyBreaks, Stmt.render, Stmt.render, hline]
    exact String.append_empty.symm
  | .expression _ value => Expr.render_unifyBreaks value

/-- The separator may be a line break: there is always a period before it. -/
theorem Stmt.renderList_unifyBreaks (separator : String) (hsep : '\r' ∉ separator.toList) :
    (ss : List Stmt) → Stmt.WellFormedList ss →
      Stmt.renderList separator (Stmt.unifyBreaksList ss)
        = Source.unifyBreaks (Stmt.renderList separator ss)
  | [] => fun _ ↦ rfl
  | [s] => fun h ↦ Stmt.render_unifyBreaks s h.1
  | .comment token :: s' :: ss => fun h ↦ by
    have htail := Stmt.renderList_unifyBreaks separator hsep (s' :: ss) h.2
    rw [Stmt.unifyBreaksList] at htail
    rw [Stmt.unifyBreaksList, Stmt.unifyBreaksList, Stmt.unifyBreaks, Stmt.renderList,
      Stmt.renderList, htail, unifyBreaks_append_newline h.1.newline_not_mem]
  | .expression _ value :: s' :: ss => fun h ↦ by
    have htail := Stmt.renderList_unifyBreaks separator hsep (s' :: ss) h.2
    have hsplit : value.render ++ "." ++ separator ++ Stmt.renderList separator (s' :: ss)
        = value.render ++ "." ++ (separator ++ Stmt.renderList separator (s' :: ss)) :=
      String.append_assoc
    rw [Stmt.unifyBreaksList] at htail
    rw [Stmt.unifyBreaksList, Stmt.unifyBreaksList, Stmt.unifyBreaks, Stmt.renderList,
      Stmt.renderList, htail, Expr.render_unifyBreaks value h.1, hsplit,
      unifyBreaks_append_mark (by decide), unifyBreaks_append_left hsep, String.append_assoc]

end

theorem Program.render_unifyBreaks {p : Program} (hp : p.WellFormed) :
    p.unifyBreaks.render = Source.unifyBreaks p.render :=
  Stmt.renderList_unifyBreaks "\n" (by decide) p.statements hp

theorem Program.WellFormed.unifyBreaks {p : Program} (hp : p.WellFormed) :
    p.unifyBreaks.WellFormed :=
  Stmt.wellFormedList_unifyBreaks hp

/-! ## The end of a canonical text -/

theorem getLast?_append_ne {s t : String} (hs : t ≠ "" ∨ s.toList.getLast? ≠ some '\r')
    (ht : t.toList.getLast? ≠ some '\r') : (s ++ t).toList.getLast? ≠ some '\r' := by
  rw [String.toList_append]
  by_cases hempty : t = ""
  · rw [hempty, String.toList_empty, List.append_nil]
    exact hs.resolve_left (not_not.mpr hempty)
  · rwa [List.getLast?_append_of_ne_nil _ (mt String.toList_eq_nil_iff.mp hempty)]

/-- An expression ends in a letter, an underscore, a digit, a quote or a bracket. -/
theorem Expr.getLast?_render_ne : (e : Expr) → e.WellFormed →
    e.render.toList.getLast? ≠ some '\r'
  | .identifier _ => fun h hlast ↦ h.return_not_mem (List.mem_of_getLast? hlast)
  | .integer _ _ => fun h hlast ↦
    return_not_mem_of_denotes h.1 h.2 nofun (List.mem_of_getLast? hlast)
  | .real _ _ => fun h hlast ↦
    return_not_mem_of_denotes h.1 h.2 nofun (List.mem_of_getLast? hlast)
  | .boolean _ _ => fun h hlast ↦
    return_not_mem_of_denotes h.1 h.2 nofun (List.mem_of_getLast? hlast)
  | .function _ _ _ body => fun _ ↦ by
    rw [Expr.render]
    split_ifs <;> exact getLast?_append_ne (.inl (by decide)) (by decide)
  | .string _ _ => fun _ ↦ by
    rw [Expr.render, StringLiteral.render]
    exact getLast?_append_ne (.inl (by decide)) (by decide)
  | .unary _ _ _ | .binary _ _ _ _ | .call _ _ _ | .array _ _ | .index _ _ _ => fun _ ↦ by
    rw [Expr.render]
    exact getLast?_append_ne (.inl (by decide)) (by decide)

theorem Stmt.getLast?_render_ne : (s : Stmt) → s.WellFormed →
    s.render.toList.getLast? ≠ some '\r'
  | .comment _ => fun _ ↦ getLast?_append_ne (.inl (by decide)) (by decide)
  | .expression _ value => value.getLast?_render_ne

theorem Stmt.getLast?_renderList_ne : (ss : List Stmt) → Stmt.WellFormedList ss →
    (Stmt.renderList "\n" ss).toList.getLast? ≠ some '\r'
  | [] => fun _ ↦ by simp [Stmt.renderList]
  | [s] => fun h ↦ s.getLast?_render_ne h.1
  | .comment _ :: s' :: ss => fun h ↦
    getLast?_append_ne (.inr (getLast?_append_ne (.inl (by decide)) (by decide)))
      (Stmt.getLast?_renderList_ne (s' :: ss) h.2)
  | .expression _ _ :: s' :: ss => fun h ↦
    getLast?_append_ne (.inr (getLast?_append_ne (.inl (by decide)) (by decide)))
      (Stmt.getLast?_renderList_ne (s' :: ss) h.2)

theorem Program.getLast?_render_ne {p : Program} (hp : p.WellFormed) :
    p.render.toList.getLast? ≠ some '\r' :=
  Stmt.getLast?_renderList_ne p.statements hp

/-! ## Reading and writing once more -/

/-- The last format that is registered under a name is found there, and no other name is
affected. -/
theorem Registry.get?_register (registry : Registry) (formatter : Formatter) (name : String) :
    (registry.register formatter).get? name
      = if formatter.name = name then some formatter else registry.get? name := by
  have hcons : ∀ f fs, List.find? (fun g : Formatter ↦ g.name == name) (f :: fs)
      = if f.name = name then some f else fs.find? fun g ↦ g.name == name := fun f fs ↦ by
    by_cases h : f.name = name <;> simp [h]
  obtain ⟨formatters⟩ := registry
  simp only [register, get?]
  induction formatters with
  | nil => exact hcons formatter []
  | cons f fs ih =>
    rw [insert, hcons f fs]
    by_cases hless : formatter.name < f.name
    · rw [if_pos hless, hcons, hcons f fs]
    rw [if_neg hless]
    by_cases hsame : formatter.name = f.name
    · rw [if_pos hsame, hcons, hsame]
      by_cases hname : f.name = name <;> simp [hname]
    · rw [if_neg hsame, hcons, ih]
      by_cases hname : f.name = name
      · rw [if_pos hname, if_neg (hname ▸ hsame), if_pos hname]
      · rw [if_neg hname, if_neg hname]

namespace Converter

open DrawScript.Parser (wellFormed_program)

theorem serialize_render (extractor : Extractor) (document : Document) :
    serialize ⟨.withExtractor extractor, false⟩ document "render"
      = .ok ⟨Format.closeLine document.program.render, []⟩ := by
  have hget : (Registry.withExtractor extractor).get? "render" = some Format.render := by
    simp only [Registry.withExtractor, List.foldl_cons, List.foldl_nil, Registry.get?_register]
    rfl
  rw [serialize, Registry.serialize, hget]
  rfl

theorem openStream_encode (text : String) :
    openStream (Source.encode text)
      = .ok (.ofSource (Format.closeLine (Source.unifyBreaks text))) := by
  rw [openStream, Source.read_encode]

theorem openStream_encode_render {p : Program} (hp : p.WellFormed) :
    openStream (Source.encode (Format.closeLine p.render))
      = .ok (.ofSource (Format.closeLine p.unifyBreaks.render)) := by
  rw [openStream_encode, Source.unifyBreaks_closeLine (Program.getLast?_render_ne hp),
    Source.closeLine_closeLine, Program.render_unifyBreaks hp]

/-- Canonical text with its last line closed is read back as canonical text is. -/
theorem render_closeLine_render {p : Program} (hp : p.WellFormed)
    (hdeep : ¬(Document.ofSource (Format.closeLine p.render)).IsTooDeep) :
    (Document.ofSource (Format.closeLine p.render)).program.render = p.render := by
  obtain ⟨hprogram, hdiagnostics⟩ := Document.ofSource_closeLine p.render
  have hdeep' : ¬(Document.ofSource p.render).IsTooDeep := by
    rw [Document.IsTooDeep, hdiagnostics] at hdeep
    rintro ⟨d, hd, limit, hfault⟩
    exact hdeep ⟨_, List.mem_map_of_mem hd, limit, hfault⟩
  rw [hprogram, Program.render_eq_of_unplaced_eq (Grammar.document_eq_of_render hp hdeep').2]

/-- **Formatting a drawing twice.** A drawing that can be read can be written in the render format,
read back from what was written, and written again. Unless it is nested too deeply the second time,
what is written then is what was written first with its line breaks unified, and so it is the same
exactly if no line break of two characters was written. -/
theorem serialize_render_twice (extractor : Extractor) (bytes : List UInt8) (source : String)
    (h : Source.read bytes = .ok source) :
    ∃ document output document' output',
      openStream bytes = .ok document ∧
      serialize ⟨.withExtractor extractor, false⟩ document "render" = .ok output ∧
      openStream (Source.encode output.text) = .ok document' ∧
      serialize ⟨.withExtractor extractor, false⟩ document' "render" = .ok output' ∧
      (¬document'.IsTooDeep → output'.text = Source.unifyBreaks output.text ∧
        (output'.text = output.text ↔ ¬['\r', '\n'] <:+: output.text.toList)) := by
  have hwell := wellFormed_program source
  set p := (Document.ofSource source).program
  -- what is read the second time is the text of `p.unifyBreaks` with its last line closed
  refine ⟨.ofSource source, _, .ofSource (Format.closeLine p.unifyBreaks.render), _,
    by rw [openStream, h], serialize_render extractor _, ?_, serialize_render extractor _,
    fun hdeep ↦ ?_⟩
  · dsimp only
    exact openStream_encode_render hwell
  · dsimp only
    rw [render_closeLine_render hwell.unifyBreaks hdeep, Program.render_unifyBreaks hwell,
      ← Source.unifyBreaks_closeLine (Program.getLast?_render_ne hwell),
      Source.unifyBreaks_eq_self_iff]
    exact ⟨rfl, Iff.rfl⟩

/-- A comment and a string, each with two carriage returns before a line feed, and a call that is
not closed. -/
theorem serialize_render_twice_returns :
    Source.read (Source.encode "text('a\r\r\nb'. % x\r\r\n-1")
        = .ok "text('a\r\nb'. % x\r\n-1\n" ∧
      ∃ document document' output',
        openStream (Source.encode "text('a\r\r\nb'. % x\r\r\n-1") = .ok document ∧
        serialize .default document "render" = .ok ⟨"text(\"a\r\nb\").\n% x\r\n(-1)\n", []⟩ ∧
        openStream (Source.encode "text(\"a\r\nb\").\n% x\r\n(-1)\n") = .ok document' ∧
        ¬document'.IsTooDeep ∧ serialize .default document' "render" = .ok output' ∧
        output'.text = "text(\"a\nb\").\n% x\n(-1)\n" := by
  have hread : Source.read (Source.encode "text('a\r\r\nb'. % x\r\r\n-1")
      = .ok "text('a\r\nb'. % x\r\n-1\n" := by
    rw [Source.read_encode]
    decide
  obtain ⟨document, output, document', output', hopen, hwrite, hopen', hwrite', hsame⟩ :=
    serialize_render_twice .default _ _ hread
  have hdocument : .ofSource "text('a\r\nb'. % x\r\n-1\n" = document := by
    rw [openStream, hread] at hopen
    exact Except.ok.inj hopen
  have houtput : output = ⟨"text(\"a\r\nb\").\n% x\r\n(-1)\n", []⟩ := by
    rw [serialize_render, ← hdocument] at hwrite
    rw [← Except.ok.inj hwrite]
    decide +kernel
  rw [houtput] at hwrite hopen' hsame
  have hdeep : ¬document'.IsTooDeep := by
    rw [openStream_encode] at hopen'
    rw [← Except.ok.inj hopen']
    refine Grammar.not_isTooDeep_of_isClean ?_
    decide +kernel
  refine ⟨hread, document, document', output', hopen, hwrite, hopen', hdeep, hwrite', ?_⟩
  rw [(hsame hdeep).1]
  decide

/-- A comment that ends in two carriage returns is not the same when it is formatted twice. -/
theorem serialize_render_not_fixed :
    ∃ document document', openStream [0x25, 0x0d, 0x0d, 0x0a] = .ok document ∧
      serialize .default document "render" = .ok ⟨"%\r\n", []⟩ ∧
      openStream (Source.encode "%\r\n") = .ok document' ∧ ¬document'.IsTooDeep ∧
      serialize .default document' "render" = .ok ⟨"%\n", []⟩ := by
  have hbytes : [0x25, 0x0d, 0x0d, 0x0a] = Source.encode "%\r\r\n" := by decide
  refine ⟨_, _, by rw [hbytes, openStream_encode], ?_, openStream_encode _, ?_, ?_⟩
  · rw [default, Registry.default, serialize_render]
    decide +kernel
  · refine Grammar.not_isTooDeep_of_isClean ?_
    decide +kernel
  · rw [default, Registry.default, serialize_render]
    decide +kernel

end Converter

end DrawScript
