import DrawScript.Document

/-!
# Expectations about documents

A small language for saying what a document should look like: how many statements it has, what its
parts render to, what was wrong with it. Checking an expectation gives nothing if it is met, and
otherwise a message that shows what was found instead, with the place in the tree.

Expectations are checked in order and the first that fails decides. They come from outside, so some
may make no sense; that counts only if the check gets as far as them.
-/

namespace DrawScript

/-- The message of two values that should be equal; the remark may be empty. -/
def mismatch (remark left right : String) : String :=
  "assertion `left == right` failed" ++ (if remark.isEmpty then "" else ": " ++ remark) ++
    "\n  left: " ++ left ++ "\n right: " ++ right

/-- Why a check does not succeed. -/
inductive CheckFailure where
  /-- An expectation is not met; the message says how. -/
  | unmet (message : String)
  /-- An expectation makes no sense; the name is that of its part at fault. -/
  | unreadable (part : String)
  deriving DecidableEq, Repr

/-- What an expression should be. -/
inductive ExprExpectation where
  | renders (text : String)
  | nodeType (name : String)
  | call (name : String) (count : Nat)
  /-- What an argument of a call or an element of an array should be. -/
  | argument (index : Nat) (expectations : List ExprExpectation)
  /-- What makes no sense as an expectation. -/
  | unreadable (part : String)

/-- What a statement should be. -/
inductive StmtExpectation where
  | comment (text : String)
  | expression (expectations : List ExprExpectation)
  /-- What makes no sense as an expectation. -/
  | unreadable (part : String)

/-- What a document should be. -/
inductive Expectation where
  | statementCount (count : Nat)
  | renders (text : String)
  | clean
  | diagnostics (messages : List String)
  | statement (index : Nat) (expectations : List StmtExpectation)
  /-- What makes no sense as an expectation. -/
  | unreadable (part : String)

/-- Equality of two texts, with the message if they differ. -/
def expectEqual (remark left right : String) : Except CheckFailure Unit :=
  if left = right then .ok ()
  else .error (.unmet (mismatch remark (Text.quoted left) (Text.quoted right)))

/-- Equality of two numbers, with the message if they differ. -/
def expectCount (remark : String) (left right : Nat) : Except CheckFailure Unit :=
  if left = right then .ok () else .error (.unmet (mismatch remark left.repr right.repr))

namespace ExprExpectation

/-- A name that may be missing, in a message. -/
def showName : Option String → String
  | some name => "Some(" ++ Text.quoted name ++ ")"
  | none => "None"

/-- The sort and the canonical text of an expression, in a message. -/
def found (e : Expr) : String :=
  e.nodeType.name ++ ": " ++ e.render

/-- The arguments of a call or the elements of an array. -/
def parts? : Expr → Option (List Expr)
  | .call _ _ arguments => some arguments
  | .array _ elements => some elements
  | _ => none

mutual

/-- Checks an expectation about the expression at a place. -/
def check (place : String) (e : Expr) : ExprExpectation → Except CheckFailure Unit
  | renders text => expectEqual (place ++ ": render mismatch") e.render text
  | nodeType name =>
    expectEqual (place ++ ": node type mismatch for " ++ e.render) e.nodeType.name name
  | call name count =>
    match e with
    | .call _ callee arguments => do
      if callee.identifier? = some name then
        expectCount (place ++ ": argument count mismatch in " ++ e.render) arguments.length count
      else
        .error (.unmet (mismatch (place ++ ": callee mismatch in " ++ e.render)
          (showName callee.identifier?) (showName (some name))))
    | _ => .error (.unmet (place ++ ": expected a call to " ++ name ++ ", found " ++ found e))
  | argument index expectations =>
    match parts? e with
    | none => .error (.unmet (place ++ ": expected a call or an array, found " ++ found e))
    | some parts =>
      match parts[index]? with
      | none =>
        .error (.unmet (place ++ ": index " ++ index.repr ++ " out of bounds (" ++
          parts.length.repr ++ " items)"))
      | some part => checkAll (place ++ "[" ++ index.repr ++ "]") part expectations
  | unreadable part => .error (.unreadable part)

/-- Checks expectations in order, up to the first that is not met. -/
def checkAll (place : String) (e : Expr) : List ExprExpectation → Except CheckFailure Unit
  | [] => .ok ()
  | x :: xs => do
    check place e x
    checkAll place e xs

end

end ExprExpectation

namespace StmtExpectation

/-- Checks an expectation about the statement at a place. -/
def check (place : String) (s : Stmt) : StmtExpectation → Except CheckFailure Unit
  | comment text =>
    match s with
    | .comment token => expectEqual (place ++ ": comment text mismatch") token.lexeme text
    | _ =>
      .error (.unmet
        (place ++ ": expected a comment, found " ++ s.nodeType.name ++ ": " ++ s.render))
  | expression expectations =>
    match s.expression? with
    | none =>
      .error (.unmet (place ++ ": expected an expression statement, found " ++ s.nodeType.name))
    | some e => ExprExpectation.checkAll (place ++ ".expression") e expectations
  | unreadable part => .error (.unreadable part)

end StmtExpectation

namespace Expectation

/-- Checks an expectation about a document. -/
def check (document : Document) : Expectation → Except CheckFailure Unit
  | statementCount count =>
    let found := document.program.statements.length
    expectCount ("Expected " ++ count.repr ++ " statements, found " ++ found.repr ++ ":\n" ++
      document.program.render) found count
  | renders text => expectEqual "" document.program.render text
  | clean =>
    if document.isClean then .ok ()
    else .error (.unmet ("Expected no diagnostics, found: " ++ Text.quotedList document.errors))
  | diagnostics messages =>
    if document.errors = messages then .ok ()
    else
      .error (.unmet (mismatch "" (Text.quotedList document.errors) (Text.quotedList messages)))
  | statement index expectations =>
    match document.program.statements[index]? with
    | none =>
      .error (.unmet ("Statement index " ++ index.repr ++ " out of bounds (program has " ++
        document.program.statements.length.repr ++ " statements)"))
    | some s =>
      expectations.forM (StmtExpectation.check ("statements[" ++ index.repr ++ "]") s)
  | unreadable part => .error (.unreadable part)

end Expectation

/-- The document of a source text that should have no diagnostics. -/
def Document.ofCleanSource (source : String) : Except String Document :=
  let document := Document.ofSource source
  if document.isClean then .ok document
  else
    .error ("Expected a clean parse of " ++ Text.quoted source ++ ", got diagnostics:\n  " ++
      "\n  ".intercalate document.errors)

end DrawScript
