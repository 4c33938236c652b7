import Lox.Tree.Basic
import Lox.Number.Text
import Lox.Json.Repr
import Lox.Json.Print

/-!
Syntax trees as S-expressions, one per statement, joined by line feeds. A node is written as
its operator or keyword followed by its parts, in parentheses: `(block s..)`, `(class A < B m..)`,
`(; e)`, `(fun f (a b) s..)`, `(if c t)`, `(if-else c t e)`, `(print e)`, `(return e)`,
`(var x e)`, `(while c b)`, `(= x v)`, `(op l r)`, `(call f args..)`, `(. obj name)`,
`(group e)`, `(= obj name v)`, `(super m)`; `this` and names stand alone. A string constant is
written in double quotes as it is, other constants as Lox writes their values, and a list or
object constant as its JSON text.

Printing a tree from a document can fail: a place for a node may hold nothing or a list, a
place for a list may hold something else, and a superclass may lack a name.
-/

namespace Lox

/-- Why a tree cannot be printed. -/
inductive PrintError where
  -- A place for a node holds nothing or a list.
  | unexpected (found : Shape)
  | notIterable (found : Shape)
  | notSpreadable (found : Shape)
  | noName (found : Shape)
  deriving Inhabited

namespace Tree

/-- The text of a constant: a string in double quotes, anything else as a Lox value. -/
def constantText : Json → String
  | .str s => "\"" ++ s ++ "\""
  | .null => "nil"
  | .bool b => if b then "true" else "false"
  | .float x => NumberStyle.lox.render x
  | .int n => if n < 0 then "-" ++ Nat.repr n.natAbs else Nat.repr n.natAbs
  | j => j.reprText

def form (head : String) (parts : List String) : String :=
  "(" ++ " ".intercalate (head :: parts) ++ ")"

def spaced (parts : List String) : String := String.join (parts.map (" " ++ ·))

mutual

/-- The S-expression of a node. -/
def sexprOf : Tree → Except PrintError String
  | .block (.list items) => do return "(block" ++ spaced (← sexprList items) ++ ")"
  | .block other => .error (.notIterable other.shape)
  | .classDecl name sup methods => do
    let head := "(class " ++ name.lexeme
    let head ← match sup with
      | .nothing => pure head
      | s => match s.name? with
        | some n => pure (head ++ " < " ++ n.lexeme)
        | none => .error (.noName s.shape)
    match methods with
    | .list ms => return head ++ spaced (← sexprList ms) ++ ")"
    | other => .error (.notIterable other.shape)
  | .exprStmt e => do return form ";" [← sexprOf e]
  | .functionDecl name params (.list body) => do
    let ps := " ".intercalate (params.map (·.lexeme))
    return "(fun " ++ name.lexeme ++ " (" ++ ps ++ ")" ++ spaced (← sexprList body) ++ ")"
  | .functionDecl _ _ other => .error (.notIterable other.shape)
  | .ifStmt c t .nothing => do
    let c ← sexprOf c
    return form "if" [c, ← sexprOf t]
  | .ifStmt c t e => do
    let c ← sexprOf c
    let t ← sexprOf t
    return form "if-else" [c, t, ← sexprOf e]
  | .printStmt v => do return form "print" [← sexprOf v]
  | .returnStmt _ .nothing => pure "(return)"
  | .returnStmt _ v => do return form "return" [← sexprOf v]
  | .varDecl name .nothing => pure ("(var " ++ name.lexeme ++ ")")
  | .varDecl name i => do return form ("var " ++ name.lexeme) [← sexprOf i]
  | .whileStmt c b => do
    let c ← sexprOf c
    return form "while" [c, ← sexprOf b]
  | .assign name v => do return form ("= " ++ name.lexeme) [← sexprOf v]
  | .binary l op r => do
    let l ← sexprOf l
    return form op.lexeme [l, ← sexprOf r]
  | .logical l op r => do
    let l ← sexprOf l
    return form op.lexeme [l, ← sexprOf r]
  | .call callee _ (.list args) => do
    let c ← sexprOf callee
    return form "call" (c :: (← sexprList args))
  | .call _ _ other => .error (.notSpreadable other.shape)
  | .get o name => do return "(. " ++ (← sexprOf o) ++ " " ++ name.lexeme ++ ")"
  | .grouping e => do return form "group" [← sexprOf e]
  | .literal v => pure (constantText v)
  | .set o name v => do
    let o ← sexprOf o
    return "(= " ++ o ++ " " ++ name.lexeme ++ " " ++ (← sexprOf v) ++ ")"
  | .superExpr _ m => pure ("(super " ++ m.lexeme ++ ")")
  | .thisExpr _ => pure "this"
  | .unary op r => do return form op.lexeme [← sexprOf r]
  | .varRef name => pure name.lexeme
  | .nothing => .error (.unexpected .nothing)
  | .list _ => .error (.unexpected .list)

def sexprList : List Tree → Except PrintError (List String)
  | [] => pure []
  | t :: rest => do
    let s ← sexprOf t
    return s :: (← sexprList rest)

end

/-- The S-expressions of a document's statements, one a line. -/
def sexpr : Tree → Except PrintError String
  | .list items => do return "\n".intercalate (← sexprList items)
  | other => .error (.notIterable other.shape)

end Tree

end Lox
