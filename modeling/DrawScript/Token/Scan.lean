import DrawScript.Token.Basic

/-!
# Scanning

Source text is cut into tokens from left to right. Blanks separate tokens and are dropped; at any
other character the longest text that belongs to some token is taken, and a character that begins
none is an `illegal` token of its own.

`munch` decides how far the token at hand reaches, so the pieces are cut with `take` and `drop` and
nothing can be lost between them. A quote opens a string only if its partner is found; otherwise it
is one illegal character and scanning goes on right behind it, so that a lost quote never swallows
the rest of a drawing.

`scan` recurses on the text alone: characters that the last token has already claimed are counted
down in `skip`. A `Cursor` reads the same stream one token at a time.
-/

namespace DrawScript.Token

/-! ## Character classes -/

/-- The characters that separate tokens. -/
def isBlank (c : Char) : Bool :=
  c == ' ' || c == '\t' || c == '\r' || c == '\n' || c == '\x0c'

/-- A character that can begin a name. -/
def isNameStart (c : Char) : Bool :=
  ('A' ≤ c && c ≤ 'Z') || ('a' ≤ c && c ≤ 'z') || c == '_'

/-- A decimal digit. -/
def isDigit (c : Char) : Bool :=
  '0' ≤ c && c ≤ '9'

/-- A character that can continue a name. -/
def isNamePart (c : Char) : Bool :=
  isNameStart c || isDigit c

/-- The number of bytes that a text takes in the source. -/
def byteLength (text : List Char) : Nat :=
  text.foldr (fun c n ↦ c.utf8Size + n) 0

@[simp] theorem byteLength_nil : byteLength [] = 0 := rfl

@[simp] theorem byteLength_cons (c : Char) (cs : List Char) :
    byteLength (c :: cs) = c.utf8Size + byteLength cs := rfl

theorem byteLength_append (a b : List Char) :
    byteLength (a ++ b) = byteLength a + byteLength b := by
  induction a with
  | nil => rw [List.nil_append, byteLength_nil, Nat.zero_add]
  | cons c a ih => rw [List.cons_append, byteLength_cons, byteLength_cons, ih, Nat.add_assoc]

/-! ## The reach of a token -/

/-- A name is a keyword if it is spelled like one. -/
def wordKind (word : List Char) : Kind :=
  if word = ['t', 'r', 'u', 'e'] then .trueWord
  else if word = ['f', 'a', 'l', 's', 'e'] then .falseWord
  else if word = ['f', 'n'] then .function
  else .ident

/-- A run of digits is an integer, and a real number if a period and more digits follow. The number
counts the characters that follow the first digit. -/
def munchNumber (cs : List Char) : Kind × Nat :=
  let whole := (cs.takeWhile isDigit).length
  match cs.dropWhile isDigit with
  | '.' :: d :: rest =>
    if isDigit d then (.float, whole + 2 + (rest.takeWhile isDigit).length) else (.int, whole)
  | _ => (.int, whole)

/-- How many characters follow an opening quote up to its partner, the partner included. A
backslash keeps the next character from ending the string, but it cannot cover a line break. -/
def munchString (quote : Char) : List Char → Option Nat
  | [] => none
  | ['\\'] => none
  | '\\' :: c :: rest => if c = '\n' then none else (munchString quote rest).map (· + 2)
  | c :: rest => if c = quote then some 1 else (munchString quote rest).map (· + 1)

/-- The kind of the token that begins with `c`, and how many of the characters behind `c` belong to
it. -/
def munch (c : Char) (cs : List Char) : Kind × Nat :=
  if isNameStart c then
    let part := cs.takeWhile isNamePart
    (wordKind (c :: part), part.length)
  else if isDigit c then munchNumber cs
  else match c with
    | '%' => (.comment, (cs.takeWhile (· != '\n')).length)
    | '"' => ((munchString '"' cs).elim (.illegal, 0) fun n ↦ (.string, n))
    | '\'' => ((munchString '\'' cs).elim (.illegal, 0) fun n ↦ (.string, n))
    | '(' => (.lparen, 0)
    | ')' => (.rparen, 0)
    | '\x7b' => (.lbrace, 0)
    | '\x7d' => (.rbrace, 0)
    | '[' => (.lbracket, 0)
    | ']' => (.rbracket, 0)
    | ',' => (.comma, 0)
    | '.' => (.period, 0)
    | '!' => if cs.head? = some '=' then (.notEq, 1) else (.bang, 0)
    | '-' => (.minus, 0)
    | '+' => (.plus, 0)
    | '/' => (.slash, 0)
    | '*' => (.asterisk, 0)
    | '=' => if cs.head? = some '=' then (.eq, 1) else (.illegal, 0)
    | '<' => (.lt, 0)
    | '>' => (.gt, 0)
    | _ => (.illegal, 0)

/-! ## Lexemes -/

/-- A backslash makes the character behind it literal. -/
def unescape : List Char → List Char
  | '\\' :: c :: rest => c :: unescape rest
  | '\\' :: [] => []
  | c :: rest => c :: unescape rest
  | [] => []

/-- The lexeme of a token with the given source text: a string loses its delimiters and its escapes,
every other token is its text. -/
def lexemeOf (kind : Kind) (text : List Char) : String :=
  match kind with
  | .string => String.ofList (unescape text.tail.dropLast)
  | _ => String.ofList text

/-- The token of a given kind that covers `text` from byte `offset` on. -/
def ofText (kind : Kind) (offset : Nat) (text : List Char) : Token :=
  ⟨kind, lexemeOf kind text, ⟨offset, offset + byteLength text⟩⟩

/-! ## Whole texts -/

/-- The tokens of a text that begins at byte `offset`, without the end mark, its first `skip`
characters left out. -/
def scan : (skip : Nat) → (offset : Nat) → List Char → List Token
  | _, _, [] => []
  | skip + 1, offset, c :: cs => scan skip (offset + c.utf8Size) cs
  | 0, offset, c :: cs =>
    if isBlank c then scan 0 (offset + c.utf8Size) cs
    else
      let (kind, n) := munch c cs
      ofText kind offset (c :: cs.take n) :: scan n (offset + c.utf8Size) cs

/-- Skipping characters is scanning what is left of them. -/
theorem scan_skip (n offset : Nat) (cs : List Char) :
    scan n offset cs = scan 0 (offset + byteLength (cs.take n)) (cs.drop n) := by
  induction cs generalizing n offset with
  | nil => cases n <;> rfl
  | cons c cs ih =>
    cases n with
    | zero => simp
    | succ n => rw [scan, ih]; simp [Nat.add_assoc]

/-- All tokens of a source text, the end mark included. -/
def tokenize (source : String) : List Token :=
  scan 0 0 source.toList ++ [eof source.utf8ByteSize]

/-! ## Reading one token at a time -/

/-- A place in a source text. -/
structure Cursor where
  offset : Nat
  rest : List Char
  deriving DecidableEq, Repr

namespace Cursor

/-- The beginning of a source text. -/
def ofSource (source : String) : Cursor :=
  ⟨0, source.toList⟩

/-- The place behind the first `n` characters. -/
def skip (cursor : Cursor) (n : Nat) : Cursor :=
  ⟨cursor.offset + byteLength (cursor.rest.take n), cursor.rest.drop n⟩

/-- The place of the next character that is no blank. -/
def skipBlanks (cursor : Cursor) : Cursor :=
  cursor.skip (cursor.rest.takeWhile isBlank).length

/-- The next token and the place behind it; at the end of the text the end mark, for ever. -/
def next (cursor : Cursor) : Token × Cursor :=
  let cursor := cursor.skipBlanks
  match cursor.rest with
  | [] => (eof cursor.offset, cursor)
  | c :: cs =>
    let (kind, n) := munch c cs
    (ofText kind cursor.offset (c :: cs.take n), cursor.skip (n + 1))

/-- The next token, or nothing at the end of the text. -/
def next? (cursor : Cursor) : Option Token × Cursor :=
  let (token, cursor) := cursor.next
  (if token.isEof then none else some token, cursor)

/-- The tokens from here to the end mark, and the end of the text. -/
def remaining (cursor : Cursor) : List Token × Cursor :=
  (scan 0 cursor.offset cursor.rest, cursor.skip cursor.rest.length)

end Cursor

end DrawScript.Token
