import Lox.Token.Basic

/-!
Lox programs as trees. A reference to a name carries the depth at which scope resolution found
it: `some d` for the frame `d` steps out from the innermost one, `none` for the globals. The
parser leaves every depth `none`; resolution fills them in.
-/

namespace Lox

/-- A constant: one written in the source, or a value held by a tree read from a document. -/
inductive Constant where
  | nil
  | bool (b : Bool)
  | num (x : Float)
  | str (s : String)
  -- A value that a tree read from a document may hold and no source can write: a list or an object,
  -- kept as read.
  | data (j : Json)
  deriving Inhabited

inductive Expr where
  | literal (value : Constant)
  | grouping (inner : Expr)
  | var (name : Token) (depth : Option Nat)
  | assign (name : Token) (value : Expr) (depth : Option Nat)
  | unary (op : Token) (operand : Expr)
  | binary (left : Expr) (op : Token) (right : Expr)
  -- `and` or `or`, which may skip the right operand.
  | logical (left : Expr) (op : Token) (right : Expr)
  -- A call; `paren` is the closing parenthesis.
  | call (callee : Expr) (paren : Token) (args : List Expr)
  | get (object : Expr) (name : Token)
  | set (object : Expr) (name : Token) (value : Expr)
  | thisRef (keyword : Token) (depth : Option Nat)
  | superMethod (keyword : Token) (method : Token) (depth : Option Nat)
  deriving Inhabited

mutual

inductive Stmt where
  | expr (e : Expr)
  | print (e : Expr)
  | varDecl (name : Token) (init : Option Expr)
  | block (body : List Stmt)
  | ifElse (cond : Expr) (thenBranch : Stmt) (elseBranch : Option Stmt)
  | whileLoop (cond : Expr) (body : Stmt)
  | funDecl (decl : FunDecl)
  | returnStmt (keyword : Token) (value : Option Expr)
  | classDecl (name : Token) (superclass : Option Expr) (methods : List FunDecl)

/-- A function or method: its name, its parameters and its body. -/
inductive FunDecl where
  | mk (name : Token) (params : List Token) (body : List Stmt)

end

instance : Inhabited FunDecl := ⟨.mk default [] []⟩
instance : Inhabited Stmt := ⟨.block []⟩

namespace FunDecl

def name : FunDecl → Token
  | .mk n _ _ => n

def params : FunDecl → List Token
  | .mk _ ps _ => ps

def body : FunDecl → List Stmt
  | .mk _ _ b => b

end FunDecl

/-- A program: its statements in order. -/
abbrev Program := List Stmt

end Lox
