import Lox.Syntax.Basic
import Lox.Number.Text
import Lox.Json.Repr

/-!
Run-time values of Lox. Functions close over a frame of the store by its number, so closures
made in one activation share that activation's frame. Classes are values that never change
once made; instances live in the store, since their fields change and several references may
see one instance, and a reference to an instance also names its class.
-/

namespace Lox

/-- Functions provided by the interpreter itself. -/
inductive Native where
  | clock
  deriving Repr, BEq, DecidableEq, Inhabited

namespace Native

def name : Native → String
  | .clock => "clock"

def arity : Native → Nat
  | .clock => 0

end Native

/-- A function value: a declaration and the frame it closes over. -/
structure Closure where
  decl : FunDecl
  -- The frame the function was declared in, or the frame binding `this` for a bound method.
  frame : Nat
  -- Whether the function is a class's `init`, which always returns its receiver.
  isInitializer : Bool
  deriving Inhabited

/-- A class: its name, its superclass and its methods by name, in first-declaration order. -/
inductive Klass where
  | mk (name : String) (superclass : Option Klass) (methods : List (String × Closure))
  deriving Inhabited

namespace Klass

def name : Klass → String
  | .mk n _ _ => n

def superclass : Klass → Option Klass
  | .mk _ s _ => s

def methods : Klass → List (String × Closure)
  | .mk _ _ ms => ms

/-- The method of the nearest class on the superclass chain that declares the name. -/
def findMethod : Klass → String → Option Closure
  | .mk _ s ms, name =>
    match ms.lookup name with
    | some m => some m
    | none =>
      match s with
      | some k => k.findMethod name
      | none => none

/-- The number of arguments a call of the class takes: that of its initializer, or none. -/
def arity (k : Klass) : Nat :=
  match k.findMethod "init" with
  | some m => m.decl.params.length
  | none => 0

end Klass

inductive Value where
  | nil
  | bool (b : Bool)
  | num (x : Float)
  | str (s : String)
  | native (f : Native)
  | function (c : Closure)
  | klass (k : Klass)
  | object (id : Nat) (k : Klass)
  -- A list or an object from a document, kept as read.
  | data (j : Json)
  deriving Inhabited

namespace Value

def ofConstant : Constant → Value
  | .nil => .nil
  | .bool b => .bool b
  | .num x => .num x
  | .str s => .str s
  | .data j => .data j

/-- Only `nil` and `false` are false. -/
def truthy : Value → Bool
  | .nil => false
  | .bool b => b
  | _ => true

/-- The text `print` writes for a value. -/
def text : Value → String
  | .nil => "nil"
  | .bool b => if b then "true" else "false"
  | .num x => NumberStyle.lox.render x
  | .str s => s
  | .native _ => "<native fn>"
  | .function c => "<fn " ++ c.decl.name.lexeme ++ ">"
  | .klass k => k.name
  | .object _ k => k.name ++ " instance"
  | .data j => j.reprText

end Value

end Lox
