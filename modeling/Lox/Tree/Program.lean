import Lox.Tree.Json
import Lox.Syntax.Basic

/-!
Programs and document trees. Every program is a tree (`Program.toTree`). A tree is a program
when each place holds what the program needs there (`Tree.toProgram`): a statement, an
expression, a list of statements, a named expression for a superclass, function declarations
for methods. The places are checked in the order scope resolution visits them, so the first
misplaced part found is the one resolution would stumble on: a `Set` checks its value before its
object, a class its superclass before its methods, a method its name before its parameters.
-/

namespace Lox

/-- Why a tree is not a program. -/
inductive Misplaced where
  -- A place for a statement or an expression holds something else.
  | unexpected (found : Shape)
  | notIterable (found : Shape)
  -- A superclass or method lacks a part: its `name`, or a method's `params`.
  | noAttribute (found : Shape) (part : String)
  deriving Inhabited

namespace Constant

/-- A constant as a document holds it. -/
def toJson : Constant → Json
  | .nil => .null
  | .bool b => .bool b
  | .num x => .float x
  | .str s => .str s
  | .data j => j

/-- The constant of a document value. -/
def ofJson : Json → Constant
  | .bool b => .bool b
  | .float x => .num x
  | .int n => .num (Float.ofInt n)
  | .str s => .str s
  | .null => .nil
  | j => .data j

end Constant

namespace Expr

def toTree : Expr → Tree
  | .literal c => .literal c.toJson
  | .grouping e => .grouping e.toTree
  | .var n _ => .varRef n
  | .assign n v _ => .assign n v.toTree
  | .unary op e => .unary op e.toTree
  | .binary l op r => .binary l.toTree op r.toTree
  | .logical l op r => .logical l.toTree op r.toTree
  | .call c p args => .call c.toTree p (.list (args.attach.map fun ⟨a, _⟩ => a.toTree))
  | .get o n => .get o.toTree n
  | .set o n v => .set o.toTree n v.toTree
  | .thisRef k _ => .thisExpr k
  | .superMethod k m _ => .superExpr k m

end Expr

mutual

def Stmt.toTree : Stmt → Tree
  | .expr e => .exprStmt e.toTree
  | .print e => .printStmt e.toTree
  | .varDecl n i => .varDecl n (match i with | some e => e.toTree | none => .nothing)
  | .block b => .block (.list (Stmt.listToTree b))
  | .ifElse c t e =>
    .ifStmt c.toTree t.toTree (match e with | some s => s.toTree | none => .nothing)
  | .whileLoop c b => .whileStmt c.toTree b.toTree
  | .funDecl f => f.toTree
  | .returnStmt k v => .returnStmt k (match v with | some e => e.toTree | none => .nothing)
  | .classDecl n s ms =>
    .classDecl n (match s with | some e => e.toTree | none => .nothing)
      (.list (FunDecl.listToTree ms))

def Stmt.listToTree : List Stmt → List Tree
  | [] => []
  | s :: rest => s.toTree :: Stmt.listToTree rest

def FunDecl.toTree : FunDecl → Tree
  | .mk n ps b => .functionDecl n ps (.list (Stmt.listToTree b))

def FunDecl.listToTree : List FunDecl → List Tree
  | [] => []
  | f :: rest => f.toTree :: FunDecl.listToTree rest

end

/-- A program as a tree: the list of its statements. -/
def Program.toTree (p : Program) : Tree := .list (Stmt.listToTree p)

namespace Tree

mutual

/-- The expression a tree holds. -/
def toExpr : Tree → Except Misplaced Expr
  | .varRef n => pure (.var n none)
  | .assign n v => do return .assign n (← toExpr v) none
  | .binary l op r => do
    let l ← toExpr l
    return .binary l op (← toExpr r)
  | .logical l op r => do
    let l ← toExpr l
    return .logical l op (← toExpr r)
  | .call c p (.list args) => do
    let c ← toExpr c
    return .call c p (← toExprs args)
  | .call c _ other => do
    let _ ← toExpr c
    .error (.notIterable other.shape)
  | .get o n => do return .get (← toExpr o) n
  | .set o n v => do
    let v ← toExpr v
    return .set (← toExpr o) n v
  | .grouping e => do return .grouping (← toExpr e)
  | .unary op r => do return .unary op (← toExpr r)
  | .literal j => pure (.literal (Constant.ofJson j))
  | .thisExpr k => pure (.thisRef k none)
  | .superExpr k m => pure (.superMethod k m none)
  | other => .error (.unexpected other.shape)

def toExprs : List Tree → Except Misplaced (List Expr)
  | [] => pure []
  | t :: rest => do
    let e ← toExpr t
    return e :: (← toExprs rest)

/-- The statement a tree holds. -/
def toStmt : Tree → Except Misplaced Stmt
  | .block (.list items) => do return .block (← toStmts items)
  | .block other => .error (.notIterable other.shape)
  | .varDecl n .nothing => pure (.varDecl n none)
  | .varDecl n i => do return .varDecl n (some (← toExpr i))
  | .functionDecl n ps (.list body) => do return .funDecl (.mk n ps (← toStmts body))
  | .functionDecl _ _ other => .error (.notIterable other.shape)
  | .classDecl n sup methods => do
    let superclass ← match sup with
      | .nothing => pure none
      | s => match s.name? with
        | some _ => some <$> toExpr s
        | none => .error (.noAttribute s.shape "name")
    match methods with
    | .list ms => return .classDecl n superclass (← toMethods ms)
    | other => .error (.notIterable other.shape)
  | .exprStmt e => do return .expr (← toExpr e)
  | .ifStmt c t e => do
    let c ← toExpr c
    let t ← toStmt t
    match e with
    | .nothing => return .ifElse c t none
    | e => return .ifElse c t (some (← toStmt e))
  | .printStmt v => do return .print (← toExpr v)
  | .returnStmt k .nothing => pure (.returnStmt k none)
  | .returnStmt k v => do return .returnStmt k (some (← toExpr v))
  | .whileStmt c b => do
    let c ← toExpr c
    return .whileLoop c (← toStmt b)
  | other => .error (.unexpected other.shape)

def toStmts : List Tree → Except Misplaced (List Stmt)
  | [] => pure []
  | t :: rest => do
    let s ← toStmt t
    return s :: (← toStmts rest)

/-- The methods of a list of trees: each a function declaration. -/
def toMethods : List Tree → Except Misplaced (List FunDecl)
  | [] => pure []
  | .functionDecl n ps (.list body) :: rest => do
    let f := FunDecl.mk n ps (← toStmts body)
    return f :: (← toMethods rest)
  | .functionDecl _ _ other :: _ => .error (.notIterable other.shape)
  | t :: _ =>
    match t.name? with
    | some _ => .error (.noAttribute t.shape "params")
    | none => .error (.noAttribute t.shape "name")

end

/-- The program a tree holds: a list of statements. -/
def toProgram : Tree → Except Misplaced Program
  | .list items => toStmts items
  | other => .error (.notIterable other.shape)

/-- Goes on with `next` after a walk that met no misplaced place; after one that did, closes off
what it walked with `close` and stops. -/
def walkOn {α β : Type} (w : α × Bool) (close : α → β) (next : α → β × Bool) : β × Bool :=
  if w.2 then (close w.1, true) else next w.1

mutual

/-- The part of an expression that resolution walks before it meets a misplaced place, and
whether it meets one. The walk follows `toExpr`; the misplaced place and every place after it
read as `nil`, which resolution passes without a trace. -/
def walkedExpr : Tree → Expr × Bool
  | .varRef n => (.var n none, false)
  | .assign n v => Prod.map (.assign n · none) id (walkedExpr v)
  | .binary l op r =>
    walkOn (walkedExpr l) (.binary · op (.literal .nil)) fun l =>
      Prod.map (.binary l op ·) id (walkedExpr r)
  | .logical l op r =>
    walkOn (walkedExpr l) (.logical · op (.literal .nil)) fun l =>
      Prod.map (.logical l op ·) id (walkedExpr r)
  | .call c p (.list args) =>
    walkOn (walkedExpr c) (.call · p []) fun c => Prod.map (.call c p ·) id (walkedExprs args)
  | .call c p _ => (.call (walkedExpr c).1 p [], true)
  | .get o n => Prod.map (.get · n) id (walkedExpr o)
  | .set o n v =>
    walkOn (walkedExpr v) (.set (.literal .nil) n ·) fun v =>
      Prod.map (.set · n v) id (walkedExpr o)
  | .grouping e => Prod.map .grouping id (walkedExpr e)
  | .unary op r => Prod.map (.unary op ·) id (walkedExpr r)
  | .literal j => (.literal (Constant.ofJson j), false)
  | .thisExpr k => (.thisRef k none, false)
  | .superExpr k m => (.superMethod k m none, false)
  | _ => (.literal .nil, true)

def walkedExprs : List Tree → List Expr × Bool
  | [] => ([], false)
  | t :: rest => walkOn (walkedExpr t) ([·]) fun e => Prod.map (e :: ·) id (walkedExprs rest)

/-- The part of a statement that resolution walks before it meets a misplaced place, and whether
it meets one; an empty block stands for a statement it never reaches. -/
def walkedStmt : Tree → Stmt × Bool
  | .block (.list items) => Prod.map .block id (walkedStmts items)
  | .block _ => (.block [], true)
  | .varDecl n .nothing => (.varDecl n none, false)
  | .varDecl n i => Prod.map (.varDecl n <| some ·) id (walkedExpr i)
  | .functionDecl n ps (.list body) =>
    Prod.map (fun b => .funDecl (.mk n ps b)) id (walkedStmts body)
  | .functionDecl n ps _ => (.funDecl (.mk n ps []), true)
  | .classDecl n sup methods =>
    -- the superclass's name is checked before it is resolved, even when it is no expression,
    -- so a stop in it keeps the name
    let superclass : Option Expr × Bool := match sup with
      | .nothing => (none, false)
      | s => match s.name? with
        | some name => walkOn (walkedExpr s) (some <| .get · name) fun e => (some e, false)
        | none => (none, true)
    walkOn superclass (.classDecl n · []) fun s =>
      match methods with
      | .list ms => Prod.map (.classDecl n s ·) id (walkedMethods ms)
      | _ => (.classDecl n s [], true)
  | .exprStmt e => Prod.map .expr id (walkedExpr e)
  | .ifStmt c t e =>
    walkOn (walkedExpr c) (.ifElse · (.block []) none) fun c =>
      walkOn (walkedStmt t) (.ifElse c · none) fun t =>
        match e with
        | .nothing => (.ifElse c t none, false)
        | e => Prod.map (.ifElse c t <| some ·) id (walkedStmt e)
  | .printStmt v => Prod.map .print id (walkedExpr v)
  | .returnStmt k .nothing => (.returnStmt k none, false)
  | .returnStmt k v => Prod.map (.returnStmt k <| some ·) id (walkedExpr v)
  | .whileStmt c b =>
    walkOn (walkedExpr c) (.whileLoop · (.block [])) fun c =>
      Prod.map (.whileLoop c ·) id (walkedStmt b)
  | _ => (.block [], true)

def walkedStmts : List Tree → List Stmt × Bool
  | [] => ([], false)
  | t :: rest => walkOn (walkedStmt t) ([·]) fun s => Prod.map (s :: ·) id (walkedStmts rest)

/-- The methods resolution walks: a method whose body is no list has its parameters declared
before the walk stops. -/
def walkedMethods : List Tree → List FunDecl × Bool
  | [] => ([], false)
  | .functionDecl n ps (.list body) :: rest =>
    walkOn (walkedStmts body) (fun b => [.mk n ps b]) fun b =>
      Prod.map (.mk n ps b :: ·) id (walkedMethods rest)
  | .functionDecl n ps _ :: _ => ([.mk n ps []], true)
  | _ :: _ => ([], true)

end

/-- The part of a program that resolution walks before it meets a misplaced place: all of it
when there is none. -/
def walkedProgram : Tree → Program
  | .list items => (walkedStmts items).1
  | _ => []

end Tree

end Lox
