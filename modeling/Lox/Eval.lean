import Lox.Store
import Lox.Text.Quoted

/-!
Evaluation of resolved Lox programs. Statements and expressions run against a frame of the
store: a reference with a depth reads the frame that many steps out, one without reads the
globals. A block runs in a new frame; a call runs its body in a new frame nested in the frame
the function closes over, holding the parameters; a bound method's frame holds `this`; the
methods of a class with a superclass close over a frame holding `super`. Only `nil` and `false`
are false, and `and` and `or` give one of their operands.

Arithmetic is that of doubles: division by zero gives an infinity signed by both operands, or
NaN for `0/0`. `==` and `!=` compare two numbers and give `nil` for any other pair of operands.
A call checks the argument count after evaluating the arguments. Calls nest at most as deep as
the evaluation frames allow, counted as the run's host counts them, and a call too deep fails
with `Stack overflow.` at its closing parenthesis.

A runtime error stops the run and is reported; a `Fault` means the depths of the program do not
fit its frames, which resolution rules out for the programs it accepts.
-/

namespace Lox

/-- A runtime error, at the token where it arose. -/
inductive RuntimeError where
  | operandNotNumber (op : Token)
  | operandsNotNumbers (op : Token)
  | operandsNotAddable (op : Token)
  | unsupportedUnary (op : Token)
  | unsupportedBinary (op : Token)
  | undefinedVariable (name : Token)
  | superUnresolved (keyword : Token)
  | undefinedProperty (name : Token)
  | notInstanceGet (name : Token)
  | notInstanceSet (name : Token)
  | notCallable (paren : Token)
  | arityMismatch (paren : Token) (expected got : Nat)
  | superclassNotClass (name : Token)
  | stackOverflow (paren : Token)
  deriving Inhabited

namespace RuntimeError

def token : RuntimeError → Token
  | .operandNotNumber t | .operandsNotNumbers t | .operandsNotAddable t | .unsupportedUnary t
  | .unsupportedBinary t | .undefinedVariable t | .superUnresolved t | .undefinedProperty t
  | .notInstanceGet t | .notInstanceSet t | .notCallable t | .arityMismatch t _ _
  | .superclassNotClass t | .stackOverflow t => t

def message : RuntimeError → String
  | .operandNotNumber _ => "Operand must be a number."
  | .operandsNotNumbers _ => "Operands must be numbers."
  | .operandsNotAddable _ => "Operands must be two numbers or two strings."
  | .unsupportedUnary op => s!"Unsupported unary operator '{op.lexeme}'."
  | .unsupportedBinary op => s!"Unsupported binary operator '{op.lexeme}'."
  | .undefinedVariable name => s!"Undefined variable '{name.lexeme}'."
  | .superUnresolved _ => "Undefined variable 'super'."
  | .undefinedProperty name => s!"Undefined property '{name.lexeme}'."
  | .notInstanceGet _ => "Only instances have properties."
  | .notInstanceSet _ => "Only instances have fields."
  | .notCallable _ => "Can only call functions and classes."
  | .arityMismatch _ expected got => s!"Expected {expected} arguments but got {got}."
  | .superclassNotClass _ => "Superclass must be a class."
  | .stackOverflow _ => "Stack overflow."

end RuntimeError

/-- Why evaluation stopped early. -/
inductive Failure where
  | error (e : RuntimeError)
  | fault (f : Fault)
  -- The frame holding `super` holds a value that is no class.
  | noMethods (v : Value)
  | exhausted
  deriving Inhabited

/-- How a statement finished: normally, or by returning a value. -/
inductive Completion where
  | normal
  | returned (v : Value)
  deriving Inhabited

/-- The state of a run: the store, what was printed, the debug lines and their level. -/
structure Machine where
  store : Store := .initial
  output : Array String := #[]
  log : Array String := #[]
  -- How much is written to the debug lines: 0 to 3.
  level : Nat := 0
  clock : Float := 1.0
  deriving Inhabited

abbrev Run := EStateM Failure Machine

namespace Run

/-- The deepest nesting of host evaluation frames a run allows. -/
def frameLimit : Nat := 10000

/-- The host frames below the first statement of a run. -/
def baseDepth : Nat := 8

def fail {α : Type} (e : RuntimeError) : Run α := throw (.error e)

def lift {α : Type} : Except Fault α → Run α
  | .ok a => pure a
  | .error f => throw (.fault f)

/-- Writes a debug line when the level is at least `level`. -/
def note (level : Nat) (line : Unit → String) : Run Unit :=
  modify fun m => if m.level ≥ level then { m with log := m.log.push (line ()) } else m

def emit (text : String) : Run Unit :=
  modify fun m => { m with output := m.output.push (text ++ "\n") }

def change (f : Store → Store) : Run Unit := modify fun m => { m with store := f m.store }

def pushFrame (parent : Nat) (slots : List (String × Value)) : Run Nat :=
  modifyGet fun m =>
    let (f, s) := m.store.pushWith parent slots
    (f, { m with store := s })

def truthWord (b : Bool) : String := if b then "True" else "False"

/-- The value of a reference: by depth, or among the globals by name. -/
def lookUp (name : Token) (depth : Option Nat) (env : Nat) : Run Value := do
  let s := (← get).store
  match depth with
  | some d => lift (s.getAt env d name.lexeme)
  | none =>
    match s.lookup Store.globals name.lexeme with
    | some v => pure v
    | none => fail (.undefinedVariable name)

/-- The frame an assignment through a reference changes: the frame at the depth, or the
globals when they bind the name. The frame is found first and changed after, so that the store
is changed in place. -/
def bindingFrame (name : Token) (depth : Option Nat) (env : Nat) : Run Nat := do
  let s := (← get).store
  match depth with
  | some d => lift (s.ancestor env d)
  | none =>
    match s.binder Store.globals name.lexeme with
    | some b => pure b
    | none => fail (.undefinedVariable name)

/-- Assigns through a reference: by depth, or among the globals by name. -/
def assignTo (name : Token) (depth : Option Nat) (env : Nat) (v : Value) : Run Unit := do
  let target ← bindingFrame name depth env
  change (·.define target name.lexeme v)

def unaryOp (op : Token) (v : Value) : Run Value :=
  match op.kind with
  | .terminal .bang => pure (.bool !v.truthy)
  | .terminal .minus =>
    match v with
    | .num x => pure (.num (-x))
    | _ => fail (.operandNotNumber op)
  | _ => fail (.unsupportedUnary op)

/-- An operator on two numbers, failing for anything else. -/
def numeric (op : Token) (a b : Value) (f : Float → Float → Value) : Run Value :=
  match a, b with
  | .num x, .num y => pure (f x y)
  | _, _ => fail (.operandsNotNumbers op)

def binaryOp (op : Token) (a b : Value) : Run Value :=
  match op.kind with
  | .terminal .plus =>
    match a, b with
    | .num x, .num y => pure (.num (x + y))
    | .str x, .str y => pure (.str (x ++ y))
    | _, _ => fail (.operandsNotAddable op)
  | .terminal .minus => numeric op a b fun x y => .num (x - y)
  | .terminal .star => numeric op a b fun x y => .num (x * y)
  | .terminal .slash => numeric op a b fun x y => .num (x / y)
  | .terminal .greater => numeric op a b fun x y => .bool (decide (x > y))
  | .terminal .greaterEqual => numeric op a b fun x y => .bool (decide (x ≥ y))
  | .terminal .less => numeric op a b fun x y => .bool (decide (x < y))
  | .terminal .lessEqual => numeric op a b fun x y => .bool (decide (x ≤ y))
  | .terminal .equalEqual =>
    match a, b with
    | .num x, .num y => pure (.bool (x == y))
    | _, _ => pure .nil
  | .terminal .bangEqual =>
    match a, b with
    | .num x, .num y => pure (.bool (x != y))
    | _, _ => pure .nil
  | _ => fail (.unsupportedBinary op)

/-- A method bound to a receiver: the same function closing over a new frame that binds
`this`. -/
def bindMethod (m : Closure) (receiver : Value) : Run Closure := do
  let f ← pushFrame m.frame [("this", receiver)]
  pure { m with frame := f }

/-- The number of arguments a value takes when called, if it can be called. -/
def arity? : Value → Option Nat
  | .native f => some f.arity
  | .function c => some c.decl.params.length
  | .klass k => some k.arity
  | _ => none

def nameOf (e : Expr) : Token :=
  match e with
  | .var n _ => n
  | .assign n _ _ => n
  | .get _ n => n
  | .set _ n _ => n
  | _ => default

/-- The methods of a class body, by name: a later method of the same name replaces an earlier
one in its place. -/
def methodTable (ms : List FunDecl) (env : Nat) : List (String × Closure) :=
  ms.foldl (fun acc m =>
    let c : Closure := ⟨m, env, m.name.lexeme == "init"⟩
    if acc.any (·.1 == m.name.lexeme) then
      acc.map fun (k, v) => if k == m.name.lexeme then (k, c) else (k, v)
    else acc ++ [(m.name.lexeme, c)]) []

/-- The debug line of a class: its name, its superclass and its sorted method names. -/
def classLine (k : Klass) : String :=
  let parent := match k.superclass with
    | some s => " < " ++ s.name
    | none => ""
  let names := (k.methods.map (·.1)).mergeSort (· ≤ ·)
  "define class " ++ k.name ++ parent ++ " with methods [" ++
    ", ".intercalate (names.map Quoted.quote) ++ "]"

/-- The frame the methods of a class close over: a new frame holding `super` when the class has
a superclass, else the frame of the declaration. -/
def methodFrame (env : Nat) : Option Klass → Run Nat
  | some k => pushFrame env [("super", .klass k)]
  | none => pure env

/-- Declares a class in frame `env` once its superclass is known: the name is bound to `nil`
first, the methods close over a frame holding `super` when there is a superclass, and the class
then replaces `nil` in the frame that binds the name. -/
def defineClass (env : Nat) (name : Token) (sup : Option Klass) (methods : List FunDecl) :
    Run Completion := do
  change (·.define env name.lexeme .nil)
  let methodEnv ← methodFrame env sup
  let k := Klass.mk name.lexeme sup (methodTable methods methodEnv)
  match (← get).store.binder env name.lexeme with
  | some b => change (·.define b name.lexeme (.klass k))
  | none => fail (.undefinedVariable name)
  note 2 fun _ => classLine k
  pure .normal

mutual

/-- Evaluates an expression in frame `env`; `depth` counts the host frames in use and `fuel`
bounds the steps. -/
def eval : Nat → Nat → Nat → Expr → Run Value
  | 0, _, _, _ => throw .exhausted
  | fuel + 1, depth, env, e =>
    match e with
    | .literal c => pure (Value.ofConstant c)
    | .grouping inner => eval fuel (depth + 1) env inner
    | .var name d => lookUp name d env
    | .assign name value d => do
      let v ← eval fuel (depth + 1) env value
      assignTo name d env v
      pure v
    | .unary op operand => do
      let v ← eval fuel (depth + 1) env operand
      unaryOp op v
    | .logical left op right => do
      let l ← eval fuel (depth + 1) env left
      if op.isOf .kwOr then
        if l.truthy then pure l else eval fuel (depth + 1) env right
      else
        if !l.truthy then pure l else eval fuel (depth + 1) env right
    | .binary left op right => do
      let l ← eval fuel (depth + 1) env left
      let r ← eval fuel (depth + 1) env right
      binaryOp op l r
    | .call callee paren args => do
      let f ← eval fuel (depth + 1) env callee
      match arity? f with
      | none => fail (.notCallable paren)
      | some n => do
        let vs ← evalArgs fuel (depth + 1) env args
        if vs.length != n then fail (.arityMismatch paren n vs.length)
        note 3 fun _ => "call " ++ f.text ++ " with (" ++ ", ".intercalate (vs.map Value.text) ++ ")"
        invoke fuel depth paren f vs
    | .get object name => do
      let o ← eval fuel (depth + 1) env object
      match o with
      | .object id k =>
        match (← get).store.field? id name.lexeme with
        | some v => pure v
        | none =>
          match k.findMethod name.lexeme with
          | some m => do return .function (← bindMethod m o)
          | none => fail (.undefinedProperty name)
      | _ => fail (.notInstanceGet name)
    | .set object name value => do
      let o ← eval fuel (depth + 1) env object
      match o with
      | .object id _ => do
        let v ← eval fuel (depth + 1) env value
        change (·.setField id name.lexeme v)
        pure v
      | _ => fail (.notInstanceSet name)
    | .thisRef keyword d => lookUp keyword d env
    | .superMethod keyword method d =>
      match d with
      | none => fail (.superUnresolved keyword)
      | some k => do
        let s := (← get).store
        let sup ← lift (s.getAt env k "super")
        let receiver ← lift (s.getAt env (k - 1) "this")
        match sup with
        | .klass c =>
          match c.findMethod method.lexeme with
          | some m => do return .function (← bindMethod m receiver)
          | none => fail (.undefinedProperty method)
        | other => throw (.noMethods other)

/-- Evaluates arguments from left to right. -/
def evalArgs : Nat → Nat → Nat → List Expr → Run (List Value)
  | 0, _, _, _ => throw .exhausted
  | _, _, _, [] => pure []
  | fuel + 1, depth, env, a :: rest => do
    let v ← eval fuel depth env a
    let vs ← evalArgs fuel depth env rest
    pure (v :: vs)

/-- Calls a value whose argument count has been checked; `depth` is that of the call's
expression. -/
def invoke : Nat → Nat → Token → Value → List Value → Run Value
  | 0, _, _, _, _ => throw .exhausted
  | fuel + 1, depth, paren, f, args =>
    match f with
    | .native .clock => do return .num (← get).clock
    | .function c => callClosure fuel (depth + 2) paren c args
    | .klass k => do
      let id ← modifyGet fun m =>
        let (id, s) := m.store.newObject
        (id, { m with store := s })
      let receiver := Value.object id k
      match k.findMethod "init" with
      | some m => do
        let bound ← bindMethod m receiver
        let _ ← callClosure fuel (depth + 3) paren bound args
        pure receiver
      | none => pure receiver
    | _ => fail (.notCallable paren)

/-- Runs a function's body in a new frame holding its parameters; an initializer gives its
receiver. `depth` is that of the call itself. -/
def callClosure : Nat → Nat → Token → Closure → List Value → Run Value
  | 0, _, _, _, _ => throw .exhausted
  | fuel + 1, depth, paren, c, args => do
    if depth + 1 > frameLimit then fail (.stackOverflow paren)
    let frame ← pushFrame c.frame (c.decl.params.zip args |>.map fun (p, v) => (p.lexeme, v))
    let r ← execList fuel (depth + 1) frame c.decl.body
    if c.isInitializer then lift ((← get).store.getAt c.frame 0 "this")
    else
      match r with
      | .returned v => pure v
      | .normal => pure .nil

def exec : Nat → Nat → Nat → Stmt → Run Completion
  | 0, _, _, _ => throw .exhausted
  | fuel + 1, depth, env, s =>
    match s with
    | .expr e => do
      let _ ← eval fuel (depth + 1) env e
      pure .normal
    | .print e => do
      let v ← eval fuel (depth + 1) env e
      emit v.text
      pure .normal
    | .varDecl name init => do
      let v ← match init with
        | some e => eval fuel (depth + 1) env e
        | none => pure .nil
      change (·.define env name.lexeme v)
      note 2 fun _ => "declare " ++ name.lexeme ++ " = " ++ v.text
      pure .normal
    | .block body => do
      let f ← pushFrame env []
      execList fuel (depth + 1) f body
    | .ifElse cond thenBranch elseBranch => do
      let v ← eval fuel (depth + 1) env cond
      let b := v.truthy
      note 3 fun _ => "if condition " ++ v.text ++ " -> " ++ truthWord b
      if b then exec fuel (depth + 1) env thenBranch
      else
        match elseBranch with
        | some e => exec fuel (depth + 1) env e
        | none => pure .normal
    | .whileLoop cond body => loop fuel depth env cond body
    | .funDecl f => do
      change (·.define env f.name.lexeme (.function ⟨f, env, false⟩))
      note 2 fun _ => "define function " ++ f.name.lexeme
      pure .normal
    | .returnStmt _ value => do
      let v ← match value with
        | some e => eval fuel (depth + 1) env e
        | none => pure .nil
      pure (.returned v)
    | .classDecl name superclass methods => do
      let sup ← match superclass with
        | some e => do
          let v ← eval fuel (depth + 2) env e
          match v with
          | .klass k => pure (some k)
          | _ => fail (.superclassNotClass (nameOf e))
        | none => pure none
      defineClass env name sup methods

/-- Executes statements in order until one returns; `depth` is that of the block. -/
def execList : Nat → Nat → Nat → List Stmt → Run Completion
  | 0, _, _, _ => throw .exhausted
  | _, _, _, [] => pure .normal
  | fuel + 1, depth, env, s :: rest => do
    match ← exec fuel (depth + 1) env s with
    | .normal => execList fuel depth env rest
    | r => pure r

/-- Runs a loop: while the condition holds, the body, until it returns. -/
def loop : Nat → Nat → Nat → Expr → Stmt → Run Completion
  | 0, _, _, _, _ => throw .exhausted
  | fuel + 1, depth, env, cond, body => do
    let v ← eval fuel (depth + 1) env cond
    if v.truthy then
      match ← exec fuel (depth + 1) env body with
      | .normal => loop fuel depth env cond body
      | r => pure r
    else pure .normal

end

/-- The bound on evaluation steps of a run; it is never reached in practice. -/
def fuel : Nat := Nat.pow 2 62

/-- Runs top-level statements in the globals frame, each to its end. -/
def program : List Stmt → Run Unit
  | [] => pure ()
  | s :: rest => do
    let _ ← exec fuel baseDepth Store.globals s
    program rest

end Run

end Lox
