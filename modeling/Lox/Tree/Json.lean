import Lox.Tree.Basic
import Lox.Json.Print
import Lox.Json.Repr
import Lox.Number.Read

/-!
Syntax trees as JSON documents. A node is an object whose `type` names its kind, with one field
per child; a token is an object with `type`, `lexeme`, `literal`, `line` and `column`. Writing
is total. Reading follows the document in a fixed order, each node's fields in the order listed
in `Tree.toJson`, and stops at the first place that cannot be read: a scalar where a node
belongs, an object whose `type` names no kind, a missing required key, or a token that is not
an object. The optional children (`superclass`, `else_branch`, the `value` of a return, the
`initializer`) and the token fields `literal`, `line` and `column` may be missing. An integer
constant is read as a double.
-/

namespace Lox

/-- Why a document is not a syntax tree. -/
inductive DecodeError where
  -- A place for a node holds a scalar other than `null`.
  | notNode
  -- An object whose `type` is missing or names no kind.
  | unknownKind (given : Option Json)
  | missingKey (key : String)
  | tokenNotObject (found : Json)
  | paramsNotList (found : Json)
  -- An integer constant too large for a double: at least `2 ^ 1024 - 2 ^ 970` in magnitude, which
  -- rounds past the largest double.
  | tooLarge
  deriving Inhabited

namespace Token

def toJson (t : Token) : Json :=
  .obj [("type", .str t.kind.name), ("lexeme", .str t.lexeme), ("literal", t.literal),
    ("line", .int t.line), ("column", .int t.column)]

/-- A position field: a natural number, or zero. -/
def positionOf : Option Json → Nat
  | some (.int n) => n.toNat
  | _ => 0

def ofJson : Json → Except DecodeError Token
  | .obj fields => do
    let kind ← (fields.lookup "type").elim (.error (.missingKey "type")) .ok
    let lexeme ← (fields.lookup "lexeme").elim (.error (.missingKey "lexeme")) .ok
    pure ⟨TokenKind.ofName kind.plainText, lexeme.plainText, (fields.lookup "literal").getD .null,
      positionOf (fields.lookup "line"), positionOf (fields.lookup "column")⟩
  | other => .error (.tokenNotObject other)

/-- The parameters of a function read from a document: a list of tokens, or the keys of an
object or the characters of a string taken as tokens. -/
def paramsOfJson : Json → Except DecodeError (List Token)
  | .arr items => items.mapM ofJson
  | .obj fields => fields.mapM fun (k, _) => ofJson (.str k)
  | .str s => s.toList.mapM fun c => ofJson (.str (String.ofList [c]))
  | other => .error (.paramsNotList other)

end Token

namespace Tree

def required (fields : List (String × Json)) (key : String) : Except DecodeError Json :=
  (fields.lookup key).elim (.error (.missingKey key)) .ok

/-- The value under an optional key, `null` when missing. -/
def optional (fields : List (String × Json)) (key : String) : Json :=
  (fields.lookup key).getD .null

def tokenField (fields : List (String × Json)) (key : String) : Except DecodeError Token := do
  Token.ofJson (← required fields key)

/-- A constant as a node holds it: integers become doubles. -/
def constantOfJson : Json → Except DecodeError Json
  | .int n =>
    if n.natAbs ≥ Nat.pow 2 1024 - Nat.pow 2 970 then .error .tooLarge
    else .ok (.float ((Decimal.mk n.natAbs 0).toFloat (n < 0)))
  | j => .ok j

/-- Reads a tree from a document; `fuel` bounds the nesting. -/
def ofJsonWith : Nat → Json → Except DecodeError Tree
  | 0, _ => .error .notNode
  | _ + 1, .null => .ok .nothing
  | fuel + 1, .arr items => .list <$> items.mapM (ofJsonWith fuel)
  | fuel + 1, .obj fields =>
    let sub := fun key => do ofJsonWith fuel (← required fields key)
    let opt := fun key => ofJsonWith fuel (optional fields key)
    let tok := tokenField fields
    match fields.lookup "type" with
    | some (.str "Block") => return .block (← sub "statements")
    | some (.str "ClassDecl") => do
      let name ← tok "name"
      let superclass ← opt "superclass"
      return .classDecl name superclass (← sub "methods")
    | some (.str "ExprStmt") => return .exprStmt (← sub "expr")
    | some (.str "FunctionDecl") => do
      let name ← tok "name"
      let params ← Token.paramsOfJson (← required fields "params")
      return .functionDecl name params (← sub "body")
    | some (.str "IfStmt") => do
      let c ← sub "condition"
      let t ← sub "then_branch"
      return .ifStmt c t (← opt "else_branch")
    | some (.str "PrintStmt") => return .printStmt (← sub "value")
    | some (.str "ReturnStmt") => do
      let kw ← tok "keyword"
      return .returnStmt kw (← opt "value")
    | some (.str "VarDecl") => do
      let name ← tok "name"
      return .varDecl name (← opt "initializer")
    | some (.str "WhileStmt") => do
      let c ← sub "condition"
      return .whileStmt c (← sub "body")
    | some (.str "Assign") => do
      let name ← tok "name"
      return .assign name (← sub "value")
    | some (.str "Binary") => do
      let l ← sub "left"
      let op ← tok "op"
      return .binary l op (← sub "right")
    | some (.str "Logical") => do
      let l ← sub "left"
      let op ← tok "op"
      return .logical l op (← sub "right")
    | some (.str "Call") => do
      let callee ← sub "callee"
      let paren ← tok "paren"
      return .call callee paren (← sub "arguments")
    | some (.str "Get") => do
      let o ← sub "obj"
      return .get o (← tok "name")
    | some (.str "Grouping") => return .grouping (← sub "expression")
    | some (.str "Literal") => return .literal (← constantOfJson (← required fields "value"))
    | some (.str "Set") => do
      let o ← sub "obj"
      let name ← tok "name"
      return .set o name (← sub "value")
    | some (.str "Super") => do
      let kw ← tok "keyword"
      return .superExpr kw (← tok "method")
    | some (.str "This") => return .thisExpr (← tok "keyword")
    | some (.str "Unary") => do
      let op ← tok "op"
      return .unary op (← sub "right")
    | some (.str "Variable") => return .varRef (← tok "name")
    | other => .error (.unknownKind other)
  | _ + 1, _ => .error .notNode

def ofJson (j : Json) : Except DecodeError Tree := ofJsonWith (j.depth + 2) j

def toJson : Tree → Json
  | .nothing => .null
  | .list items => .arr (items.attach.map fun ⟨t, _⟩ => toJson t)
  | .block s => .obj [("type", .str "Block"), ("statements", toJson s)]
  | .classDecl n s m =>
    .obj [("type", .str "ClassDecl"), ("name", n.toJson), ("superclass", toJson s),
      ("methods", toJson m)]
  | .exprStmt e => .obj [("type", .str "ExprStmt"), ("expr", toJson e)]
  | .functionDecl n ps b =>
    .obj [("type", .str "FunctionDecl"), ("name", n.toJson), ("params", .arr (ps.map Token.toJson)),
      ("body", toJson b)]
  | .ifStmt c t e =>
    .obj [("type", .str "IfStmt"), ("condition", toJson c), ("then_branch", toJson t),
      ("else_branch", toJson e)]
  | .printStmt v => .obj [("type", .str "PrintStmt"), ("value", toJson v)]
  | .returnStmt k v => .obj [("type", .str "ReturnStmt"), ("keyword", k.toJson), ("value", toJson v)]
  | .varDecl n i => .obj [("type", .str "VarDecl"), ("name", n.toJson), ("initializer", toJson i)]
  | .whileStmt c b => .obj [("type", .str "WhileStmt"), ("condition", toJson c), ("body", toJson b)]
  | .assign n v => .obj [("type", .str "Assign"), ("name", n.toJson), ("value", toJson v)]
  | .binary l op r =>
    .obj [("type", .str "Binary"), ("left", toJson l), ("op", op.toJson), ("right", toJson r)]
  | .call c p a =>
    .obj [("type", .str "Call"), ("callee", toJson c), ("paren", p.toJson), ("arguments", toJson a)]
  | .get o n => .obj [("type", .str "Get"), ("obj", toJson o), ("name", n.toJson)]
  | .grouping e => .obj [("type", .str "Grouping"), ("expression", toJson e)]
  | .literal v => .obj [("type", .str "Literal"), ("value", v)]
  | .logical l op r =>
    .obj [("type", .str "Logical"), ("left", toJson l), ("op", op.toJson), ("right", toJson r)]
  | .set o n v =>
    .obj [("type", .str "Set"), ("obj", toJson o), ("name", n.toJson), ("value", toJson v)]
  | .superExpr k m => .obj [("type", .str "Super"), ("keyword", k.toJson), ("method", m.toJson)]
  | .thisExpr k => .obj [("type", .str "This"), ("keyword", k.toJson)]
  | .unary op r => .obj [("type", .str "Unary"), ("op", op.toJson), ("right", toJson r)]
  | .varRef n => .obj [("type", .str "Variable"), ("name", n.toJson)]

end Tree

end Lox
