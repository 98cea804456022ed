import DrawScript.Token.Basic
import DrawScript.Precedence
import DrawScript.Binary64.Basic

/-!
# Syntax trees

A script is a list of statements, each a comment or an expression. Every node keeps the token it was
built from, so that a tree can be written back and its parts located in the source; the leaves keep
the value that their lexeme denotes beside it.

Equality of trees is equality of every field, tokens and spans included; `Program.beq` decides it.
-/

namespace DrawScript

/-- A name, as an expression or as the parameter of a function. -/
structure Identifier where
  token : Token
  value : String
  deriving DecidableEq, Repr

namespace Identifier

/-- The identifier that a token spells. -/
def ofToken (token : Token) : Identifier :=
  ⟨token, token.lexeme⟩

end Identifier

mutual

/-- An expression. The token of a composite node is the operator, keyword or opening bracket that
makes it one. -/
inductive Expr where
  | identifier (name : Identifier)
  | integer (token : Token) (value : Int)
  | real (token : Token) (value : Binary64)
  | string (token : Token) (value : String)
  | boolean (token : Token) (value : Bool)
  | unary (token : Token) (operator : UnaryOperator) (right : Expr)
  | binary (token : Token) (left : Expr) (operator : BinaryOperator) (right : Expr)
  | function (token : Token) (parameters : List Identifier) (brace : Token) (body : List Stmt)
  | call (token : Token) (callee : Expr) (arguments : List Expr)
  | array (token : Token) (elements : List Expr)
  | index (token : Token) (left : Expr) (position : Expr)

/-- A statement. An expression statement keeps the first token of its expression. -/
inductive Stmt where
  | comment (token : Token)
  | expression (token : Token) (value : Expr)

end

/-- A whole script. -/
structure Program where
  statements : List Stmt

/-! ## Names of node types -/

/-- The sorts of nodes that a tree has. -/
inductive NodeType where
  | program
  | comment
  | statement
  | block
  | identifier
  | integer
  | real
  | string
  | boolean
  | unary
  | binary
  | function
  | call
  | array
  | index
  deriving DecidableEq, Repr

/-- How views and messages write a node type. -/
def NodeType.name : NodeType → String
  | program => "Program"
  | comment => "CommentStatement"
  | statement => "ExpressionStatement"
  | block => "BlockStatement"
  | identifier => "Identifier"
  | integer => "IntegerLiteral"
  | real => "FloatingLiteral"
  | string => "StringLiteral"
  | boolean => "Boolean"
  | unary => "PrefixExpression"
  | binary => "InfixExpression"
  | function => "FunctionLiteral"
  | call => "CallExpression"
  | array => "ArrayLiteral"
  | index => "IndexExpression"

/-! ## Expressions -/

namespace Expr

/-- The token that an expression was built from. -/
def token : Expr → Token
  | identifier name => name.token
  | integer token _ | real token _ | string token _ | boolean token _ => token
  | unary token _ _ | binary token _ _ _ | function token _ _ _ => token
  | call token _ _ | array token _ | index token _ _ => token

/-- The sort of node that an expression is. -/
def nodeType : Expr → NodeType
  | identifier _ => .identifier
  | integer _ _ => .integer
  | real _ _ => .real
  | string _ _ => .string
  | boolean _ _ => .boolean
  | unary _ _ _ => .unary
  | binary _ _ _ _ => .binary
  | function _ _ _ _ => .function
  | call _ _ _ => .call
  | array _ _ => .array
  | index _ _ _ => .index

/-- The name, if the expression is one. -/
def identifier? : Expr → Option String
  | identifier name => some name.value
  | _ => none

/-- The name that a call calls, if its callee is a plain name. -/
def calleeName? : Expr → Option String
  | call _ callee _ => callee.identifier?
  | _ => none

end Expr

namespace Stmt

/-- The token that a statement begins with. -/
def token : Stmt → Token
  | comment token | expression token _ => token

/-- The sort of node that a statement is. -/
def nodeType : Stmt → NodeType
  | comment _ => .comment
  | expression _ _ => .statement

/-- The expression of an expression statement. -/
def expression? : Stmt → Option Expr
  | comment _ => none
  | expression _ value => some value

end Stmt

namespace Program

/-- Has the script no statements? -/
def isEmpty (program : Program) : Bool :=
  program.statements.isEmpty

/-- The lexeme that the script begins with, or nothing if it is empty. -/
def literal (program : Program) : String :=
  (program.statements.head?.map fun statement ↦ statement.token.lexeme).getD ""

end Program

/-! ## Equality -/

mutual

/-- Equality of expressions, field by field. -/
def Expr.beq : Expr → Expr → Bool
  | .identifier a, .identifier b => a == b
  | .integer s a, .integer t b => s == t && a == b
  | .real s a, .real t b => s == t && a == b
  | .string s a, .string t b => s == t && a == b
  | .boolean s a, .boolean t b => s == t && a == b
  | .unary s f a, .unary t g b => s == t && f == g && Expr.beq a b
  | .binary s a f a', .binary t b g b' => s == t && f == g && Expr.beq a b && Expr.beq a' b'
  | .function s ps c as, .function t qs d bs => s == t && ps == qs && c == d && Stmt.beqList as bs
  | .call s a as, .call t b bs => s == t && Expr.beq a b && Expr.beqList as bs
  | .array s as, .array t bs => s == t && Expr.beqList as bs
  | .index s a a', .index t b b' => s == t && Expr.beq a b && Expr.beq a' b'
  | _, _ => false

/-- Equality of lists of expressions. -/
def Expr.beqList : List Expr → List Expr → Bool
  | [], [] => true
  | a :: as, b :: bs => Expr.beq a b && Expr.beqList as bs
  | _, _ => false

/-- Equality of statements, field by field. -/
def Stmt.beq : Stmt → Stmt → Bool
  | .comment s, .comment t => s == t
  | .expression s a, .expression t b => s == t && Expr.beq a b
  | _, _ => false

/-- Equality of lists of statements. -/
def Stmt.beqList : List Stmt → List Stmt → Bool
  | [], [] => true
  | a :: as, b :: bs => Stmt.beq a b && Stmt.beqList as bs
  | _, _ => false

end

/-- Equality of scripts, field by field. -/
def Program.beq (a b : Program) : Bool :=
  Stmt.beqList a.statements b.statements

instance : BEq Program := ⟨Program.beq⟩

end DrawScript
