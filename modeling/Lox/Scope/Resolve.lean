import Lox.Syntax.Basic
import Lox.Diagnostic

/-!
Scope resolution. The resolver walks a program once, keeping a stack of local scopes (the
globals are not on it). A scope maps each name declared in it to whether its declaration is
complete. Each reference to a name gets the number of scopes between it and the innermost scope
that declares the name, or stays `none` when no local scope does, in which case it is looked up
among the globals at run time.

The scopes follow the frames the program will make: a block opens one, a function opens one
for its parameters and body together, a class with a superclass opens one holding `super`, and
the methods of every class share one holding `this`. The resolver reports, and walks on after:
redeclaring a local in the same scope, reading a local in its own initializer, returning outside
a function, returning a value from an initializer, a class inheriting from itself, and `this` or
`super` outside a class, or `super` in a class without a superclass.
-/

namespace Lox

/-- A static error found by scope resolution. -/
inductive ScopeError where
  | alreadyDeclared (name : Token)
  | ownInitializer (name : Token)
  | topLevelReturn (keyword : Token)
  | initializerReturn (keyword : Token)
  | selfInheritance (name : Token)
  | thisOutsideClass (keyword : Token)
  | superOutsideClass (keyword : Token)
  | superWithoutSuperclass (keyword : Token)
  deriving Inhabited

namespace ScopeError

def token : ScopeError → Token
  | .alreadyDeclared t | .ownInitializer t | .topLevelReturn t | .initializerReturn t
  | .selfInheritance t | .thisOutsideClass t | .superOutsideClass t
  | .superWithoutSuperclass t => t

def message : ScopeError → String
  | .alreadyDeclared _ => "Already a variable with this name in this scope."
  | .ownInitializer _ => "Can't read local variable in its own initializer."
  | .topLevelReturn _ => "Can't return from top-level code."
  | .initializerReturn _ => "Can't return a value from an initializer."
  | .selfInheritance _ => "A class can't inherit from itself."
  | .thisOutsideClass _ => "Can't use 'this' outside of a class."
  | .superOutsideClass _ => "Can't use 'super' outside of a class."
  | .superWithoutSuperclass _ => "Can't use 'super' in a class with no superclass."

def diagnostic (e : ScopeError) : Diagnostic := .atToken e.token e.message

end ScopeError

/-- The kind of function whose body is being resolved. -/
inductive FunctionKind where
  | none | function | initializer | method
  deriving Repr, BEq, DecidableEq, Inhabited

/-- The kind of class whose body is being resolved. -/
inductive ClassKind where
  | none | plain | subclass
  deriving Repr, BEq, DecidableEq, Inhabited

/-- A local scope: each name declared in it and whether its declaration is complete. -/
abbrev Scope := List (String × Bool)

structure Resolver where
  scopes : List Scope := []
  function : FunctionKind := .none
  klass : ClassKind := .none
  errors : Array ScopeError := #[]
  -- One line per resolved reference: `resolve 'x' at distance d (line n)`.
  log : Array String := #[]
  deriving Inhabited

namespace Resolver

abbrev M := StateM Resolver

def report (e : ScopeError) : M Unit := modify fun r => { r with errors := r.errors.push e }

def beginScope (names : Scope := []) : M Unit :=
  modify fun r => { r with scopes := names :: r.scopes }

def endScope : M Unit := modify fun r => { r with scopes := r.scopes.tail }

/-- Sets a name in a scope, keeping its place if present. -/
def Scope.put (s : Scope) (name : String) (done : Bool) : Scope :=
  if s.any (·.1 == name) then s.map fun (k, v) => if k == name then (k, done) else (k, v)
  else s ++ [(name, done)]

/-- Declares a name in the innermost scope, reporting a name declared there already. -/
def declare (name : Token) : M Unit := do
  match (← get).scopes with
  | [] => pure ()
  | s :: rest =>
    if s.any (·.1 == name.lexeme) then report (.alreadyDeclared name)
    else modify fun r => { r with scopes := Scope.put s name.lexeme false :: rest }

/-- Marks a name of the innermost scope as completely declared. -/
def define (name : Token) : M Unit := do
  match (← get).scopes with
  | [] => pure ()
  | s :: rest => modify fun r => { r with scopes := Scope.put s name.lexeme true :: rest }

/-- The number of scopes out from the innermost to the first that declares a name. -/
def depthIn (name : String) : List Scope → Nat → Option Nat
  | [], _ => none
  | s :: rest, d => if s.any (·.1 == name) then some d else depthIn name rest (d + 1)

/-- The depth of a reference to a name, logged when found. -/
def resolveLocal (name : Token) : M (Option Nat) := do
  let r ← get
  match depthIn name.lexeme r.scopes 0 with
  | some d =>
    set { r with log := r.log.push s!"resolve '{name.lexeme}' at distance {d} (line {name.line})" }
    return some d
  | none => return none

/-- Runs a step with another function kind, restoring the kind after. -/
def withFunction {α : Type} (kind : FunctionKind) (step : M α) : M α := do
  let saved := (← get).function
  modify fun r => { r with function := kind }
  let a ← step
  modify fun r => { r with function := saved }
  return a

/-- The name token of an expression that has one: a variable, an assignment or a property. -/
def nameOf? : Expr → Option Token
  | .var n _ => some n
  | .assign n _ _ => some n
  | .get _ n => some n
  | .set _ n _ => some n
  | _ => none

def resolveExpr : Expr → M Expr
  | .var name _ => do
    let r ← get
    match r.scopes with
    | s :: _ => if s.lookup name.lexeme == some false then report (.ownInitializer name)
    | [] => pure ()
    return .var name (← resolveLocal name)
  | .assign name value _ => do
    let value ← resolveExpr value
    return .assign name value (← resolveLocal name)
  | .binary l op r => do
    let l ← resolveExpr l
    return .binary l op (← resolveExpr r)
  | .logical l op r => do
    let l ← resolveExpr l
    return .logical l op (← resolveExpr r)
  | .call callee paren args => do
    let callee ← resolveExpr callee
    let args ← args.attach.mapM fun ⟨a, _⟩ => resolveExpr a
    return .call callee paren args
  | .get object name => do return .get (← resolveExpr object) name
  | .set object name value => do
    let value ← resolveExpr value
    let object ← resolveExpr object
    return .set object name value
  | .grouping e => do return .grouping (← resolveExpr e)
  | .unary op e => do return .unary op (← resolveExpr e)
  | .literal c => pure (.literal c)
  | .thisRef keyword _ => do
    if (← get).klass == .none then
      report (.thisOutsideClass keyword)
      return .thisRef keyword none
    return .thisRef keyword (← resolveLocal keyword)
  | .superMethod keyword method _ => do
    let k := (← get).klass
    if k == .none then report (.superOutsideClass keyword)
    else if k != .subclass then report (.superWithoutSuperclass keyword)
    return .superMethod keyword method (← resolveLocal keyword)

mutual

def resolveStmt : Stmt → M Stmt
  | .block body => do
    beginScope
    let body ← resolveStmts body
    endScope
    return .block body
  | .varDecl name init => do
    declare name
    let init ← match init with
      | some e => some <$> resolveExpr e
      | none => pure none
    define name
    return .varDecl name init
  | .funDecl f => do
    declare f.name
    define f.name
    return .funDecl (← resolveFunction f .function)
  | .classDecl name superclass methods => do
    let saved := (← get).klass
    modify fun r => { r with klass := .plain }
    declare name
    define name
    let superclass ← match superclass with
      | some s => do
        match nameOf? s with
        | some n => if n.lexeme == name.lexeme then report (.selfInheritance n)
        | none => pure ()
        modify fun r => { r with klass := .subclass }
        let s ← resolveExpr s
        beginScope [("super", true)]
        pure (some s)
      | none => pure none
    beginScope [("this", true)]
    let methods ← resolveMethods methods
    endScope
    if superclass.isSome then endScope
    modify fun r => { r with klass := saved }
    return .classDecl name superclass methods
  | .expr e => do return .expr (← resolveExpr e)
  | .ifElse c t e => do
    let c ← resolveExpr c
    let t ← resolveStmt t
    match e with
    | some e => return .ifElse c t (some (← resolveStmt e))
    | none => return .ifElse c t none
  | .print e => do return .print (← resolveExpr e)
  | .returnStmt keyword value => do
    let kind := (← get).function
    if kind == .none then report (.topLevelReturn keyword)
    match value with
    | some v => do
      if kind == .initializer then report (.initializerReturn keyword)
      return .returnStmt keyword (some (← resolveExpr v))
    | none => return .returnStmt keyword none
  | .whileLoop c b => do
    let c ← resolveExpr c
    return .whileLoop c (← resolveStmt b)

def resolveStmts : List Stmt → M (List Stmt)
  | [] => pure []
  | s :: rest => do
    let s ← resolveStmt s
    return s :: (← resolveStmts rest)

/-- Resolves a function body in a scope holding its parameters. -/
def resolveFunction : FunDecl → FunctionKind → M FunDecl
  | .mk name params body, kind => withFunction kind do
    beginScope
    for p in params do
      declare p
      define p
    let body ← resolveStmts body
    endScope
    return .mk name params body

/-- Resolves the methods of a class; `init` is an initializer. -/
def resolveMethods : List FunDecl → M (List FunDecl)
  | [] => pure []
  | m :: rest => do
    let kind := if m.name.lexeme == "init" then FunctionKind.initializer else .method
    let m ← resolveFunction m kind
    return m :: (← resolveMethods rest)

end

end Resolver

/-- The outcome of resolving a program: the program with its depths, and what was reported. -/
structure Resolution where
  program : Program
  errors : List ScopeError
  log : List String

def Program.resolve (p : Program) : Resolution :=
  let (p', r) := (Resolver.resolveStmts p).run {}
  ⟨p', r.errors.toList, r.log.toList⟩

end Lox
