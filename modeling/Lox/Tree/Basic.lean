import Lox.Token.Basic

/-!
Syntax trees as a document holds them. A document may put anything in any place: a node, a
list of nodes, or nothing, where a program would have a statement, an expression or a list of
statements. `Tree` keeps what the document says, place by place, so that printing, writing back
and running can each decide what to make of it; `Tree.shape` names what stands in a place when
one of them refuses it.
-/

namespace Lox

/-- The kinds of nodes a document may hold. -/
inductive NodeKind where
  | block | classDecl | exprStmt | functionDecl | ifStmt | printStmt | returnStmt | varDecl
  | whileStmt | assign | binary | call | get | grouping | literal | logical | set | superExpr
  | thisExpr | unary | varRef
  deriving Repr, BEq, DecidableEq, Inhabited

namespace NodeKind

/-- Every kind, in the order documents list them. -/
def all : List NodeKind :=
  [block, classDecl, exprStmt, functionDecl, ifStmt, printStmt, returnStmt, varDecl,
   whileStmt, assign, binary, call, get, grouping, literal, logical, set, superExpr,
   thisExpr, unary, varRef]

/-- The name a document gives the kind in its `type` field. -/
def name : NodeKind → String
  | block => "Block" | classDecl => "ClassDecl" | exprStmt => "ExprStmt"
  | functionDecl => "FunctionDecl" | ifStmt => "IfStmt" | printStmt => "PrintStmt"
  | returnStmt => "ReturnStmt" | varDecl => "VarDecl" | whileStmt => "WhileStmt"
  | assign => "Assign" | binary => "Binary" | call => "Call" | get => "Get"
  | grouping => "Grouping" | literal => "Literal" | logical => "Logical" | set => "Set"
  | superExpr => "Super" | thisExpr => "This" | unary => "Unary" | varRef => "Variable"

def ofName? (s : String) : Option NodeKind := all.find? (·.name == s)

/-- Whether nodes of the kind carry a `name` token. -/
def hasName : NodeKind → Bool
  | classDecl | functionDecl | varDecl | assign | get | set | varRef => true
  | _ => false

end NodeKind

/-- A syntax tree as a document holds it. -/
inductive Tree where
  | nothing
  | list (items : List Tree)
  | block (statements : Tree)
  | classDecl (name : Token) (superclass : Tree) (methods : Tree)
  | exprStmt (expr : Tree)
  | functionDecl (name : Token) (params : List Token) (body : Tree)
  | ifStmt (condition thenBranch elseBranch : Tree)
  | printStmt (value : Tree)
  | returnStmt (keyword : Token) (value : Tree)
  | varDecl (name : Token) (initializer : Tree)
  | whileStmt (condition body : Tree)
  | assign (name : Token) (value : Tree)
  | binary (left : Tree) (op : Token) (right : Tree)
  | call (callee : Tree) (paren : Token) (arguments : Tree)
  | get (object : Tree) (name : Token)
  | grouping (expression : Tree)
  -- A constant, as the document gives it; integers are already doubles.
  | literal (value : Json)
  | logical (left : Tree) (op : Token) (right : Tree)
  | set (object : Tree) (name : Token) (value : Tree)
  | superExpr (keyword method : Token)
  | thisExpr (keyword : Token)
  | unary (op : Token) (right : Tree)
  | varRef (name : Token)
  deriving Inhabited

/-- What stands in a place: nothing, a list, or a node of a kind. -/
inductive Shape where
  | nothing
  | list
  | node (kind : NodeKind)
  deriving Repr, BEq, DecidableEq, Inhabited

namespace Tree

def kind? : Tree → Option NodeKind
  | .nothing => none
  | .list _ => none
  | .block .. => some .block
  | .classDecl .. => some .classDecl
  | .exprStmt .. => some .exprStmt
  | .functionDecl .. => some .functionDecl
  | .ifStmt .. => some .ifStmt
  | .printStmt .. => some .printStmt
  | .returnStmt .. => some .returnStmt
  | .varDecl .. => some .varDecl
  | .whileStmt .. => some .whileStmt
  | .assign .. => some .assign
  | .binary .. => some .binary
  | .call .. => some .call
  | .get .. => some .get
  | .grouping .. => some .grouping
  | .literal .. => some .literal
  | .logical .. => some .logical
  | .set .. => some .set
  | .superExpr .. => some .superExpr
  | .thisExpr .. => some .thisExpr
  | .unary .. => some .unary
  | .varRef .. => some .varRef

/-- What the tree is, as a place holding it. -/
def shape : Tree → Shape
  | .nothing => .nothing
  | .list _ => .list
  | t => match t.kind? with
    | some k => .node k
    | none => .nothing

def name? : Tree → Option Token
  | .classDecl n _ _ => some n
  | .functionDecl n _ _ => some n
  | .varDecl n _ => some n
  | .assign n _ => some n
  | .get _ n => some n
  | .set _ n _ => some n
  | .varRef n => some n
  | _ => none

end Tree

end Lox
