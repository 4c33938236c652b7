import Lox.Store
import Lox.Uncaught

/-!
A cursor over a store of frames: the frame that is current, which may be none after stepping
out of the outermost frame. It offers the operations a scope makes of its frames: entering a new
frame, leaving to the enclosing one, defining, and reading and assigning by name along the chain
or by depth. With no current frame every operation but entering fails.
-/

namespace Lox

structure Cursor where
  store : Store
  current : Option Nat
  deriving Inhabited

/-- Why a cursor operation failed. -/
inductive CursorError where
  -- No frame of the chain binds the name; reported at a line.
  | undefined (name : String) (line : Nat)
  | fault (f : Fault)
  | noFrame (operation : String)
  deriving Inhabited

/-- The message a failure is reported with. A name that no frame binds is a runtime error of the
language; a missing frame and a depth that does not fit are failures of the host, and say what
the host says. -/
def CursorError.message : CursorError → String
  | .undefined name _ => s!"Undefined variable '{name}'."
  | .fault f => (Uncaught.ofFault f).message
  | .noFrame operation => (Uncaught.noAttribute "NoneType" operation).message

namespace Cursor

def initial : Cursor := ⟨⟨#[⟨none, []⟩], #[]⟩, some 0⟩

/-- The current frame, or a failure naming the operation. -/
def frame (c : Cursor) (operation : String) : Except CursorError Nat :=
  match c.current with
  | some f => .ok f
  | none => .error (.noFrame operation)

def push (c : Cursor) : Cursor :=
  let (f, s) := c.store.push c.current
  ⟨s, some f⟩

def pop (c : Cursor) : Except CursorError Cursor := do
  let f ← c.frame "enclosing"
  return { c with current := (c.store.frame f).parent }

def define (c : Cursor) (name : String) (v : Value) : Except CursorError Cursor := do
  let f ← c.frame "define"
  return { c with store := c.store.define f name v }

def get (c : Cursor) (name : String) (line : Nat) : Except CursorError Value := do
  let f ← c.frame "get"
  match c.store.lookup f name with
  | some v => pure v
  | none => .error (.undefined name line)

def assign (c : Cursor) (name : String) (v : Value) (line : Nat) : Except CursorError Cursor := do
  let f ← c.frame "assign"
  match c.store.assign f name v with
  | some s => pure { c with store := s }
  | none => .error (.undefined name line)

def getAt (c : Cursor) (d : Nat) (name : String) : Except CursorError Value := do
  let f ← c.frame "get_at"
  (c.store.getAt f d name).mapError CursorError.fault

def assignAt (c : Cursor) (d : Nat) (name : String) (v : Value) : Except CursorError Cursor := do
  let f ← c.frame "assign_at"
  let s ← (c.store.assignAt f d name v).mapError CursorError.fault
  return { c with store := s }

/-- The current frame and its chain described, or `None` when there is no current frame. -/
def describe (c : Cursor) : String :=
  match c.current with
  | some f => c.store.describe f
  | none => "None"

end Cursor

end Lox
