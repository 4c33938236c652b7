import Lox.Syntax.Basic
import Lox.Syntax.Grammar
import Lox.Grammar.Run
import Lox.Token.Lexer
import Lox.Diagnostic

/-!
Parsing Lox source into a program. Tokens are scanned as the parser asks for them, so a
syntax error before a bad character is the one reported, and a bad character is reported only
when every token before it was shifted. The tree is built during the reductions, which also
check three things the grammar does not: an assignment target is a variable or a property, a
function has at most 255 parameters and a call at most 255 arguments. Those checks are
reported, in the order the reductions met them, only when the whole input is a sentence.

A `for` loop is built as the equivalent `while` loop: the increment runs after the body in a
block of its own, a missing condition is `true`, and an initializer puts the loop in a block.
-/

namespace Lox

/-- Why a source is not a program. -/
inductive SyntaxError where
  | lexical (e : LexError)
  | unexpected (tok : Token) (expected : List Terminal)
  | invalidAssignmentTarget (equals : Token)
  -- A function declared with more than 255 parameters; the 256th.
  | tooManyParameters (param : Token)
  -- A call with more than 255 arguments; its closing parenthesis.
  | tooManyArguments (paren : Token)
  deriving Inhabited

namespace SyntaxError

/-- The most parameters and arguments allowed. -/
def limit : Nat := 255

/-- What the parser expected, in words: any expression when both numbers and identifiers fit,
otherwise the sorted names of the terminals joined by `or`. -/
def expectation (expected : List Terminal) : String :=
  if expected.contains .number && expected.contains .identifier then "Expect expression."
  else
    match (expected.map Terminal.display).mergeSort (· ≤ ·) with
    | [] => "Unexpected token."
    | shown => "Expect " ++ " or ".intercalate shown ++ "."

def message : SyntaxError → String
  | .lexical e => e.message
  | .unexpected _ expected => expectation expected
  | .invalidAssignmentTarget _ => "Invalid assignment target."
  | .tooManyParameters _ => s!"Can't have more than {limit} parameters."
  | .tooManyArguments _ => s!"Can't have more than {limit} arguments."

def diagnostic (e : SyntaxError) : Diagnostic :=
  match e with
  | .lexical l => .atLine l.line e.message
  | .unexpected tok _ => .atToken tok e.message
  | .invalidAssignmentTarget tok => .atToken tok e.message
  | .tooManyParameters tok => .atToken tok e.message
  | .tooManyArguments tok => .atToken tok e.message

end SyntaxError

namespace Syntax

/-- What a reduction builds: the value of one grammar symbol. Lists built by left recursion are
kept last element first. -/
inductive Fragment where
  | token (tok : Token)
  | expr (e : Expr)
  | stmt (s : Stmt)
  | stmts (reversed : List Stmt)
  | function (f : FunDecl)
  | functions (reversed : List FunDecl)
  | tokens (reversed : List Token)
  | exprs (reversed : List Expr)
  | pairs (reversed : List (Token × Expr))
  | optionalExpr (e : Option Expr)
  | initializer (s : Option Stmt)
  | nothing
  deriving Inhabited

def clean (f : Fragment) : Fragment × List SyntaxError := (f, [])

/-- The `while` loop a `for` loop stands for. -/
def forLoop (init : Option Stmt) (cond incr : Option Expr) (body : Stmt) : Stmt :=
  let body := match incr with
    | some i => Stmt.block [body, .expr i]
    | none => body
  let loop := Stmt.whileLoop (cond.getD (.literal (.bool true))) body
  match init with
  | some i => .block [i, loop]
  | none => loop

def constantOf (tok : Token) : Constant :=
  match tok.literal with
  | .float x => .num x
  | .str s => .str s
  | _ => .nil

/-- An assignment to a target: a variable becomes an assignment, a property a field write, and
anything else is refused at the `=` and kept as it was. -/
def assignTo (target : Expr) (equals : Token) (value : Expr) : Fragment × List SyntaxError :=
  match target with
  | .var name _ => clean (.expr (.assign name value none))
  | .get object name => clean (.expr (.set object name value))
  | other => (.expr other, [.invalidAssignmentTarget equals])

/-- A function with its parameters, refusing more than the limit at the first one too many. -/
def functionOf (name : Token) (params : List Token) (body : Stmt) :
    Fragment × List SyntaxError :=
  let stmts := match body with
    | .block b => b
    | other => [other]
  let issues := match params[SyntaxError.limit]? with
    | some extra => [SyntaxError.tooManyParameters extra]
    | none => []
  (.function (.mk name params stmts), issues)

/-- A call with its arguments, refusing more than the limit at the closing parenthesis. -/
def callOf (callee : Expr) (paren : Token) (args : List Expr) : Fragment × List SyntaxError :=
  let issues := if args.length > SyntaxError.limit then [SyntaxError.tooManyArguments paren] else []
  (.expr (.call callee paren args), issues)

/-- Folds an operand and its operator pairs to the left. -/
def foldChain (logical : Bool) (first : Expr) (pairs : List (Token × Expr)) : Expr :=
  pairs.foldl (fun acc (op, e) => if logical then .logical acc op e else .binary acc op e) first

/-- The value a production builds from the values of its right side. A right side of any other
shape builds nothing. -/
def Production.build : Production → List Fragment → Fragment × List SyntaxError
  | .start, args | .programItems, args | .declarationClass, args | .declarationFun, args
  | .declarationVar, args | .declarationStatement, args | .statementExpr, args
  | .statementFor, args | .statementIf, args | .statementPrint, args | .statementReturn, args
  | .statementWhile, args | .statementBlock, args | .expression, args | .assignmentPlain, args
  | .chainShort _, args | .unaryCall, args | .callPrimary, args =>
    match args with
    | [f] => clean f
    | _ => clean .nothing
  | .programEmpty, args =>
    match args with
    | [] => clean (.stmts [])
    | _ => clean .nothing
  | .declarationsFirst, args =>
    match args with
    | [.stmt s] => clean (.stmts [s])
    | _ => clean .nothing
  | .declarationsNext, args =>
    match args with
    | [.stmts r, .stmt s] => clean (.stmts (s :: r))
    | _ => clean .nothing
  | .classSuperMethods, args =>
    match args with
    | [_, .token name, _, .token sup, _, .functions r, _] =>
      clean (.stmt (.classDecl name (some (.var sup none)) r.reverse))
    | _ => clean .nothing
  | .classSuper, args =>
    match args with
    | [_, .token name, _, .token sup, _, _] =>
      clean (.stmt (.classDecl name (some (.var sup none)) []))
    | _ => clean .nothing
  | .classMethods, args =>
    match args with
    | [_, .token name, _, .functions r, _] => clean (.stmt (.classDecl name none r.reverse))
    | _ => clean .nothing
  | .classPlain, args =>
    match args with
    | [_, .token name, _, _] => clean (.stmt (.classDecl name none []))
    | _ => clean .nothing
  | .methodsFirst, args =>
    match args with
    | [.function f] => clean (.functions [f])
    | _ => clean .nothing
  | .methodsNext, args =>
    match args with
    | [.functions r, .function f] => clean (.functions (f :: r))
    | _ => clean .nothing
  | .funDecl, args =>
    match args with
    | [_, .function f] => clean (.stmt (.funDecl f))
    | _ => clean .nothing
  | .functionParams, args =>
    match args with
    | [.token name, _, .tokens r, _, .stmt body] => functionOf name r.reverse body
    | _ => clean .nothing
  | .functionPlain, args =>
    match args with
    | [.token name, _, _, .stmt body] => functionOf name [] body
    | _ => clean .nothing
  | .parametersOne, args =>
    match args with
    | [.token t] => clean (.tokens [t])
    | _ => clean .nothing
  | .parametersMany, args =>
    match args with
    | [.token t, .tokens r] => clean (.tokens (r ++ [t]))
    | _ => clean .nothing
  | .moreParametersFirst, args =>
    match args with
    | [_, .token t] => clean (.tokens [t])
    | _ => clean .nothing
  | .moreParametersNext, args =>
    match args with
    | [.tokens r, _, .token t] => clean (.tokens (t :: r))
    | _ => clean .nothing
  | .varInit, args =>
    match args with
    | [_, .token name, _, .expr e, _] => clean (.stmt (.varDecl name (some e)))
    | _ => clean .nothing
  | .varPlain, args =>
    match args with
    | [_, .token name, _] => clean (.stmt (.varDecl name none))
    | _ => clean .nothing
  | .exprStmt, args =>
    match args with
    | [.expr e, _] => clean (.stmt (.expr e))
    | _ => clean .nothing
  | .forStmt, args =>
    match args with
    | [_, _, .initializer i, .optionalExpr c, _, .optionalExpr inc, _, .stmt body] =>
      clean (.stmt (forLoop i c inc body))
    | _ => clean .nothing
  | .forInitVar, args | .forInitExpr, args =>
    match args with
    | [.stmt s] => clean (.initializer (some s))
    | _ => clean .nothing
  | .forInitEmpty, args =>
    match args with
    | [_] => clean (.initializer none)
    | _ => clean .nothing
  | .forCondSome, args | .forIncrSome, args =>
    match args with
    | [.expr e] => clean (.optionalExpr (some e))
    | _ => clean .nothing
  | .forCondNone, args | .forIncrNone, args =>
    match args with
    | [] => clean (.optionalExpr none)
    | _ => clean .nothing
  | .ifElse, args =>
    match args with
    | [_, _, .expr c, _, .stmt t, _, .stmt e] => clean (.stmt (.ifElse c t (some e)))
    | _ => clean .nothing
  | .ifThen, args =>
    match args with
    | [_, _, .expr c, _, .stmt t] => clean (.stmt (.ifElse c t none))
    | _ => clean .nothing
  | .printStmt, args =>
    match args with
    | [_, .expr e, _] => clean (.stmt (.print e))
    | _ => clean .nothing
  | .returnValue, args =>
    match args with
    | [.token kw, .expr e, _] => clean (.stmt (.returnStmt kw (some e)))
    | _ => clean .nothing
  | .returnBare, args =>
    match args with
    | [.token kw, _] => clean (.stmt (.returnStmt kw none))
    | _ => clean .nothing
  | .whileStmt, args =>
    match args with
    | [_, _, .expr c, _, .stmt b] => clean (.stmt (.whileLoop c b))
    | _ => clean .nothing
  | .blockItems, args =>
    match args with
    | [_, .stmts r, _] => clean (.stmt (.block r.reverse))
    | _ => clean .nothing
  | .blockEmpty, args =>
    match args with
    | [_, _] => clean (.stmt (.block []))
    | _ => clean .nothing
  | .assignmentTarget, args =>
    match args with
    | [.expr target, .token equals, .expr value] => assignTo target equals value
    | _ => clean .nothing
  | .chainLong l, args =>
    match args with
    | [.expr first, .pairs r] => clean (.expr (foldChain l.isLogical first r.reverse))
    | _ => clean .nothing
  | .tailFirst _ _, args =>
    match args with
    | [.token op, .expr e] => clean (.pairs [(op, e)])
    | _ => clean .nothing
  | .tailNext _ _, args =>
    match args with
    | [.pairs r, .token op, .expr e] => clean (.pairs ((op, e) :: r))
    | _ => clean .nothing
  | .unaryBang, args | .unaryMinus, args =>
    match args with
    | [.token op, .expr e] => clean (.expr (.unary op e))
    | _ => clean .nothing
  | .callArgs, args =>
    match args with
    | [.expr callee, _, .exprs r, .token paren] => callOf callee paren r.reverse
    | _ => clean .nothing
  | .callEmpty, args =>
    match args with
    | [.expr callee, _, .token paren] => callOf callee paren []
    | _ => clean .nothing
  | .callGet, args =>
    match args with
    | [.expr object, _, .token name] => clean (.expr (.get object name))
    | _ => clean .nothing
  | .argumentsOne, args =>
    match args with
    | [.expr e] => clean (.exprs [e])
    | _ => clean .nothing
  | .argumentsMany, args =>
    match args with
    | [.expr e, .exprs r] => clean (.exprs (r ++ [e]))
    | _ => clean .nothing
  | .moreArgumentsFirst, args =>
    match args with
    | [_, .expr e] => clean (.exprs [e])
    | _ => clean .nothing
  | .moreArgumentsNext, args =>
    match args with
    | [.exprs r, _, .expr e] => clean (.exprs (e :: r))
    | _ => clean .nothing
  | .primaryTrue, args =>
    match args with
    | [_] => clean (.expr (.literal (.bool true)))
    | _ => clean .nothing
  | .primaryFalse, args =>
    match args with
    | [_] => clean (.expr (.literal (.bool false)))
    | _ => clean .nothing
  | .primaryNil, args =>
    match args with
    | [_] => clean (.expr (.literal .nil))
    | _ => clean .nothing
  | .primaryNumber, args | .primaryString, args =>
    match args with
    | [.token t] => clean (.expr (.literal (constantOf t)))
    | _ => clean .nothing
  | .primaryThis, args =>
    match args with
    | [.token kw] => clean (.expr (.thisRef kw none))
    | _ => clean .nothing
  | .primarySuper, args =>
    match args with
    | [.token kw, _, .token m] => clean (.expr (.superMethod kw m none))
    | _ => clean .nothing
  | .primaryIdentifier, args =>
    match args with
    | [.token name] => clean (.expr (.var name none))
    | _ => clean .nothing
  | .primaryGroup, args =>
    match args with
    | [_, .expr e, _] => clean (.expr (.grouping e))
    | _ => clean .nothing

def buildNumbered (p : Nat) (args : List Fragment) : Fragment × List SyntaxError :=
  match productionArray[p]? with
  | some prod => prod.build args
  | none => clean .nothing

/-- The number of a token's terminal; a kind that names no terminal counts as the end. -/
def terminalOf (tok : Token) : Nat :=
  match tok.kind with
  | .terminal t => t.index
  | .other _ => Terminal.eof.index

def expectedIn (s : Nat) : List Terminal :=
  (table.expected s).filterMap fun i => Terminal.all[i]?

end Syntax

open Syntax in
/-- Parses a source: the program, or the errors in the order they are reported. -/
def parseProgram (source : String) : Except (List SyntaxError) Program :=
  let scan := Token.scan source
  let word := scan.tokens.map fun tok => (terminalOf tok, Fragment.token tok)
  match table.feedWord buildNumbered 0 word Table.Config.initial with
  | .stopped i s => .error [.unexpected ((scan.tokens[i]?).getD default) (expectedIn s)]
  | .consumed c =>
    match scan.error with
    | some e => .error [.lexical e]
    | none =>
      let stop := Token.endOfInput scan.tokens
      match table.feed buildNumbered Terminal.eof.index (.token stop) true c with
      | .accepted (.stmts r) issues =>
        if issues.isEmpty then .ok r.reverse else .error issues.toList
      | .accepted _ issues => if issues.isEmpty then .ok [] else .error issues.toList
      | .shifted _ => .error [.unexpected stop []]
      | .rejected s => .error [.unexpected stop (expectedIn s)]

end Lox
