import DrawScript.Format.Builtin
import DrawScript.Proofs.Datum.Json
import DrawScript.Proofs.Grammar.Reading
import DrawScript.Proofs.Parser.Trees
import Mathlib.Data.List.Nodup

/-!
# Trees as JSON, without loss

The content of a tree's datum is enough to have the tree back, tokens, spans and values included,
and so the formats that write JSON lose nothing. Records of two sorts of node differ in their first
field (`Datum.Content.nodeType?`), and records of one sort are compared field by field.

Contents say of a number only how it is spelled, but the values of literals need not be read back at
all. In a well-formed tree they are what their tokens denote, a token denotes one leaf only
(`Token.Denotes.unique`), and the token is in the record.
-/

namespace DrawScript

open Datum (content contentList contentFields Content)

/-! ## Tokens -/

theorem Token.Kind.tag_inj {a b : Token.Kind} : a.tag = b.tag ↔ a = b := by
  have hnodup : (Token.Kind.all.map Token.Kind.tag).Nodup := by decide
  exact ⟨List.inj_on_of_nodup_map hnodup (Token.Kind.mem_all a) (Token.Kind.mem_all b),
    congrArg _⟩

theorem UnaryOperator.tag_inj {a b : UnaryOperator} : a.tag = b.tag ↔ a = b := by
  cases a <;> cases b <;> decide

theorem BinaryOperator.tag_inj {a b : BinaryOperator} : a.tag = b.tag ↔ a = b := by
  cases a <;> cases b <;> decide

namespace Datum

section Injectivity

variable {fields fields' : List (String × Datum)}

theorem content_nat_inj {m n : Nat} : content (.int m) = content (.int n) ↔ m = n := by
  refine ⟨fun h ↦ ?_, fun h ↦ by rw [h]⟩
  have hrepr : m.repr = n.repr := Content.word.inj h
  rw [Nat.repr_eq_ofList_toDigits, Nat.repr_eq_ofList_toDigits, String.ofList_inj] at hrepr
  rw [← Nat.ofDigitChars_ten_toDigits (n := m), hrepr, Nat.ofDigitChars_ten_toDigits]

theorem content_text_inj {a b : String} : content (.text a) = content (.text b) ↔ a = b := by
  rw [content, content, Content.text.injEq]

theorem content_list_inj {items items' : List Datum} :
    content (.list items) = content (.list items') ↔ contentList items = contentList items' := by
  rw [content, content, Content.list.injEq]

theorem content_record_inj :
    content (.record fields) = content (.record fields') ↔
      contentFields fields = contentFields fields' := by
  rw [content, content, Content.record.injEq]

theorem contentFields_cons_inj {name : String} {x y : Datum} :
    contentFields ((name, x) :: fields) = contentFields ((name, y) :: fields') ↔
      content x = content y ∧ contentFields fields = contentFields fields' := by
  rw [contentFields, contentFields, List.cons.injEq, Prod.mk.injEq, and_iff_right rfl]

theorem content_token_inj {a b : Token} : content a.toDatum = content b.toDatum ↔ a = b := by
  obtain ⟨kind, lexeme, start, stop⟩ := a
  obtain ⟨kind', lexeme', start', stop'⟩ := b
  simp only [Token.toDatum, Span.toDatum, content_record_inj, contentFields_cons_inj,
    content_text_inj, content_nat_inj, Token.Kind.tag_inj, and_true,
    Token.mk.injEq, Span.mk.injEq]

/-- The records of two nodes of one sort. -/
theorem content_node_inj {tag : String} {a b : Token} :
    content (.record (("type", .text tag) :: ("token", a.toDatum) :: fields)) =
        content (.record (("type", .text tag) :: ("token", b.toDatum) :: fields')) ↔
      a = b ∧ contentFields fields = contentFields fields' := by
  rw [content_record_inj, contentFields_cons_inj, contentFields_cons_inj, content_token_inj,
    and_iff_right rfl]

theorem contentFields_identifier_inj {a b : Identifier} :
    contentFields a.fields = contentFields b.fields ↔ a = b := by
  obtain ⟨token, value⟩ := a
  obtain ⟨token', value'⟩ := b
  simp only [Identifier.fields, contentFields_cons_inj, content_token_inj, content_text_inj,
    and_true, Identifier.mk.injEq]

/-- Data of one kind in a row, if the data of this kind can be told apart. -/
theorem contentList_map_inj {α : Type} {toDatum : α → Datum}
    (h : ∀ {a b : α}, content (toDatum a) = content (toDatum b) ↔ a = b) {as bs : List α} :
    contentList (as.map toDatum) = contentList (bs.map toDatum) ↔ as = bs := by
  have hinjective : Function.Injective (content ∘ toDatum) := fun _ _ ↦ h.mp
  rw [contentList_eq_map, contentList_eq_map, List.map_map, List.map_map]
  exact (List.map_injective_iff.mpr hinjective).eq_iff

theorem contentList_identifiers_inj {as bs : List Identifier} :
    contentList (as.map fun name ↦ .record name.fields) =
      contentList (bs.map fun name ↦ .record name.fields) ↔ as = bs :=
  contentList_map_inj (content_record_inj.trans contentFields_identifier_inj)

end Injectivity

/-! ## Sorts of nodes -/

/-- The sort of node that the first field of a record names. -/
def Content.nodeType? : Content → Option NodeType
  | .record ((_, .text "Identifier") :: _) => some .identifier
  | .record ((_, .text "Integer") :: _) => some .integer
  | .record ((_, .text "Float") :: _) => some .real
  | .record ((_, .text "String") :: _) => some .string
  | .record ((_, .text "Boolean") :: _) => some .boolean
  | .record ((_, .text "Prefix") :: _) => some .unary
  | .record ((_, .text "Infix") :: _) => some .binary
  | .record ((_, .text "Function") :: _) => some .function
  | .record ((_, .text "Call") :: _) => some .call
  | .record ((_, .text "Array") :: _) => some .array
  | .record ((_, .text "Index") :: _) => some .index
  | .record ((_, .text "Comment") :: _) => some .comment
  | .record ((_, .text "Expression") :: _) => some .statement
  | _ => none

theorem nodeType?_content_expr (e : Expr) : (content e.toDatum).nodeType? = some e.nodeType := by
  cases e <;> rfl

theorem nodeType?_content_stmt (s : Stmt) : (content s.toDatum).nodeType? = some s.nodeType := by
  cases s <;> rfl

end Datum

open Datum

theorem Expr.nodeType_eq_of_content_eq {e e' : Expr} (h : content e.toDatum = content e'.toDatum) :
    e.nodeType = e'.nodeType := by
  rw [← Option.some.injEq, ← nodeType?_content_expr, ← nodeType?_content_expr, h]

theorem Stmt.nodeType_eq_of_content_eq {s s' : Stmt} (h : content s.toDatum = content s'.toDatum) :
    s.nodeType = s'.nodeType := by
  rw [← Option.some.injEq, ← nodeType?_content_stmt, ← nodeType?_content_stmt, h]

/-! ## Trees -/

/-- A token denotes one leaf only, the one that the parser makes of it. -/
theorem Token.Denotes.unique {t : Token} {e e' : Expr} (h : t.Denotes e) (h' : t.Denotes e') :
    e = e' := by
  have hread {e : Expr} (h : t.Denotes e) :
      (Parser.primary (fun _ s ↦ (none, s)) ((Parser.State.ofSource "").facing [t])).1
        = some e := by
    rw [Grammar.primary_of_denotes h]
  exact Option.some.inj ((hread h).symm.trans (hread h'))

mutual

theorem Expr.eq_of_content_eq : (e e' : Expr) → e.WellFormed → e'.WellFormed →
    content e.toDatum = content e'.toDatum → e = e'
  | .identifier name, e', _, _, h => by
    cases e' with
    | identifier name' =>
      rw [Expr.toDatum, Expr.toDatum, content_record_inj, contentFields_cons_inj,
        contentFields_identifier_inj] at h
      rw [h.2]
    | _ => cases Expr.nodeType_eq_of_content_eq h
  | .integer token value, e', hwf, hwf', h => by
    cases e' with
    | integer token' value' =>
      rw [Expr.toDatum, Expr.toDatum, content_node_inj] at h
      obtain ⟨rfl, -⟩ := h
      exact hwf.2.unique hwf'.2
    | _ => cases Expr.nodeType_eq_of_content_eq h
  | .real token value, e', hwf, hwf', h => by
    cases e' with
    | real token' value' =>
      rw [Expr.toDatum, Expr.toDatum, content_node_inj] at h
      obtain ⟨rfl, -⟩ := h
      exact hwf.2.unique hwf'.2
    | _ => cases Expr.nodeType_eq_of_content_eq h
  | .string token value, e', hwf, hwf', h => by
    cases e' with
    | string token' value' =>
      rw [Expr.toDatum, Expr.toDatum, content_node_inj] at h
      obtain ⟨rfl, -⟩ := h
      exact hwf.2.unique hwf'.2
    | _ => cases Expr.nodeType_eq_of_content_eq h
  | .boolean token value, e', hwf, hwf', h => by
    cases e' with
    | boolean token' value' =>
      rw [Expr.toDatum, Expr.toDatum, content_node_inj] at h
      obtain ⟨rfl, -⟩ := h
      exact hwf.2.unique hwf'.2
    | _ => cases Expr.nodeType_eq_of_content_eq h
  | .unary token operator right, e', hwf, hwf', h => by
    cases e' with
    | unary token' operator' right' =>
      simp only [Expr.toDatum, content_node_inj, contentFields_cons_inj, content_text_inj,
        UnaryOperator.tag_inj, and_true] at h
      obtain ⟨htoken, hoperator, hright⟩ := h
      rw [htoken, hoperator, Expr.eq_of_content_eq right right' hwf.2.2 hwf'.2.2 hright]
    | _ => cases Expr.nodeType_eq_of_content_eq h
  | .binary token left operator right, e', hwf, hwf', h => by
    cases e' with
    | binary token' left' operator' right' =>
      simp only [Expr.toDatum, content_node_inj, contentFields_cons_inj, content_text_inj,
        BinaryOperator.tag_inj, and_true] at h
      obtain ⟨htoken, hleft, hoperator, hright⟩ := h
      rw [htoken, hoperator, Expr.eq_of_content_eq left left' hwf.2.2.1 hwf'.2.2.1 hleft,
        Expr.eq_of_content_eq right right' hwf.2.2.2 hwf'.2.2.2 hright]
    | _ => cases Expr.nodeType_eq_of_content_eq h
  | .function token parameters brace body, e', hwf, hwf', h => by
    cases e' with
    | function token' parameters' brace' body' =>
      rw [Expr.toDatum, Expr.toDatum, content_node_inj] at h
      simp only [contentFields_cons_inj, content_list_inj, contentList_identifiers_inj,
        content_record_inj, content_token_inj, and_true] at h
      obtain ⟨htoken, hparameters, hbrace, hbody⟩ := h
      rw [htoken, hparameters, hbrace,
        Stmt.eq_of_contentList_eq body body' hwf.2.2.2 hwf'.2.2.2 hbody]
    | _ => cases Expr.nodeType_eq_of_content_eq h
  | .call token callee arguments, e', hwf, hwf', h => by
    cases e' with
    | call token' callee' arguments' =>
      simp only [Expr.toDatum, content_node_inj, contentFields_cons_inj, content_list_inj,
        and_true] at h
      obtain ⟨htoken, hcallee, harguments⟩ := h
      rw [htoken, Expr.eq_of_content_eq callee callee' hwf.2.1 hwf'.2.1 hcallee,
        Expr.eq_of_contentList_eq arguments arguments' hwf.2.2 hwf'.2.2 harguments]
    | _ => cases Expr.nodeType_eq_of_content_eq h
  | .array token elements, e', hwf, hwf', h => by
    cases e' with
    | array token' elements' =>
      rw [Expr.toDatum, Expr.toDatum, content_node_inj, contentFields_cons_inj,
        content_list_inj] at h
      rw [h.1, Expr.eq_of_contentList_eq elements elements' hwf.2 hwf'.2 h.2.1]
    | _ => cases Expr.nodeType_eq_of_content_eq h
  | .index token left position, e', hwf, hwf', h => by
    cases e' with
    | index token' left' position' =>
      simp only [Expr.toDatum, content_node_inj, contentFields_cons_inj, and_true] at h
      obtain ⟨htoken, hleft, hposition⟩ := h
      rw [htoken, Expr.eq_of_content_eq left left' hwf.2.1 hwf'.2.1 hleft,
        Expr.eq_of_content_eq position position' hwf.2.2 hwf'.2.2 hposition]
    | _ => cases Expr.nodeType_eq_of_content_eq h

theorem Expr.eq_of_contentList_eq : (es es' : List Expr) → Expr.WellFormedList es →
    Expr.WellFormedList es' →
    contentList (Expr.toDataList es) = contentList (Expr.toDataList es') → es = es'
  | [], [], _, _, _ => rfl
  | [], _ :: _, _, _, h => nomatch h
  | _ :: _, [], _, _, h => nomatch h
  | e :: es, e' :: es', hwf, hwf', h => by
    rw [Expr.toDataList, Expr.toDataList, contentList, contentList, List.cons.injEq] at h
    rw [Expr.eq_of_content_eq e e' hwf.1 hwf'.1 h.1,
      Expr.eq_of_contentList_eq es es' hwf.2 hwf'.2 h.2]

theorem Stmt.eq_of_content_eq : (s s' : Stmt) → s.WellFormed → s'.WellFormed →
    content s.toDatum = content s'.toDatum → s = s'
  | .comment token, s', _, _, h => by
    cases s' with
    | comment token' =>
      rw [Stmt.toDatum, Stmt.toDatum, content_node_inj] at h
      rw [h.1]
    | expression token' value' => cases Stmt.nodeType_eq_of_content_eq h
  | .expression token value, s', hwf, hwf', h => by
    cases s' with
    | comment token' => cases Stmt.nodeType_eq_of_content_eq h
    | expression token' value' =>
      rw [Stmt.toDatum, Stmt.toDatum, content_node_inj, contentFields_cons_inj] at h
      rw [h.1, Expr.eq_of_content_eq value value' hwf hwf' h.2.1]

theorem Stmt.eq_of_contentList_eq : (ss ss' : List Stmt) → Stmt.WellFormedList ss →
    Stmt.WellFormedList ss' →
    contentList (Stmt.toDataList ss) = contentList (Stmt.toDataList ss') → ss = ss'
  | [], [], _, _, _ => rfl
  | [], _ :: _, _, _, h => nomatch h
  | _ :: _, [], _, _, h => nomatch h
  | s :: ss, s' :: ss', hwf, hwf', h => by
    rw [Stmt.toDataList, Stmt.toDataList, contentList, contentList, List.cons.injEq] at h
    rw [Stmt.eq_of_content_eq s s' hwf.1 hwf'.1 h.1,
      Stmt.eq_of_contentList_eq ss ss' hwf.2 hwf'.2 h.2]

end

theorem Program.eq_of_content_eq {p q : Program} (hp : p.WellFormed) (hq : q.WellFormed)
    (h : content p.toDatum = content q.toDatum) : p = q := by
  obtain ⟨ss⟩ := p
  obtain ⟨ss'⟩ := q
  rw [Program.toDatum, Program.toDatum, content_record_inj, contentFields_cons_inj,
    content_list_inj] at h
  rw [Stmt.eq_of_contentList_eq ss ss' hp hq h.1]

/-! ## The formats -/

namespace Format

/-- **JSON loses nothing.** Two sources are written as the same text exactly if they are parsed into
the same tree, or have the same tokens if it is these that are written. -/
theorem json_lossless (a b : String) :
    ((json.serialize (.ofSource a)).map (·.text) = (json.serialize (.ofSource b)).map (·.text) ↔
      (Document.ofSource a).program = (Document.ofSource b).program) ∧
    ((tokens.serialize (.ofSource a)).map (·.text) = (tokens.serialize (.ofSource b)).map (·.text) ↔
      Token.tokenize a = Token.tokenize b) := by
  constructor
  · constructor
    · intro h
      have htext : (Document.ofSource a).program.toDatum.toJson =
          (Document.ofSource b).program.toDatum.toJson := Except.ok.inj h
      exact Program.eq_of_content_eq (Parser.wellFormed_program a) (Parser.wellFormed_program b)
        (content_eq_of_toJson_eq htext)
    · intro h
      simp only [json, quiet, Except.map, h]
  · constructor
    · intro h
      have htext : tokensText a = tokensText b := Except.ok.inj h
      have hcontent := content_list_inj.mp (content_eq_of_toJson_eq htext)
      exact (contentList_map_inj content_token_inj).mp hcontent
    · intro h
      have htext : tokensText a = tokensText b := by rw [tokensText, tokensText, h]
      exact congrArg Except.ok htext

end Format

end DrawScript
