import Lox.Syntax.Parse
import Lox.Scope.Resolve
import Lox.Eval
import Lox.Tree.Program

/-!
Sessions: one interpreter that runs program after program, as a script run or an interactive
prompt does. The globals, the store and the debug lines live on from one run to the next; each
run reports afresh. A run parses, stops at a syntax error, resolves, stops if resolution reported
anything, and then executes until the end or the first runtime error.

Debug lines, when the session's level allows: level 1 writes `run N statement(s)` and
`runtime error at line L: M`; level 2 adds resolved references, declarations of variables,
functions and classes; level 3 adds calls and conditions.
-/

namespace Lox

structure Report where
  stdout : String
  errors : List String
  hadError : Bool
  hadRuntimeError : Bool
  deriving Inhabited

/-- A failure that ends a session outside the language: a document that is no tree or no
program, or a program whose depths do not fit its frames. A tree with a misplaced part stops
resolution there, after it walked the part of the tree before it (`Tree.walkedProgram`) and
reported what it found on the way. -/
inductive Escape where
  | decode (e : DecodeError)
  | misplaced (e : Misplaced) (walked : Program)
  | fault (f : Fault)
  | noMethods (v : Value)
  | exhausted
  deriving Inhabited

structure Session where
  machine : Machine
  deriving Inhabited

namespace Session

/-- A fresh session writing debug lines up to a level. -/
def new (level : Nat := 0) : Session := ⟨{ level := level }⟩

/-- Adds a debug line when the session's level is at least `level`. -/
def note (m : Machine) (level : Nat) (line : String) : Machine :=
  if m.level ≥ level then { m with log := m.log.push line } else m

def staticReport (errors : List Diagnostic) : Report := ⟨"", errors.map (·.text), true, false⟩

/-- Resolves and runs a program. -/
def runProgram (s : Session) (p : Program) : Except Escape (Session × Report) :=
  let r := p.resolve
  let m := if s.machine.level ≥ 2 then { s.machine with log := s.machine.log ++ r.log.toArray }
    else s.machine
  if !r.errors.isEmpty then .ok (⟨m⟩, staticReport (r.errors.map (·.diagnostic)))
  else
    let m := note m 1 s!"run {r.program.length} statement(s)"
    match (Run.program r.program).run { m with output := #[] } with
    | .ok _ m' => .ok (⟨m'⟩, ⟨String.join m'.output.toList, [], false, false⟩)
    | .error (.error e) m' =>
      let m' := note m' 1 s!"runtime error at line {e.token.line}: {e.message}"
      .ok (⟨m'⟩, ⟨String.join m'.output.toList, [(Diagnostic.runtime e.token.line e.message).text],
        false, true⟩)
    | .error (.fault f) _ => .error (.fault f)
    | .error (.noMethods v) _ => .error (.noMethods v)
    | .error .exhausted _ => .error .exhausted

def runSource (s : Session) (source : String) : Except Escape (Session × Report) :=
  match parseProgram source with
  | .error es => .ok (s, staticReport (es.map (·.diagnostic)))
  | .ok p => s.runProgram p

/-- Reads a program from a syntax-tree document and runs it. -/
def runDocument (s : Session) (j : Json) : Except Escape (Session × Report) := do
  let tree ← (Tree.ofJson j).mapError Escape.decode
  let p ← tree.toProgram.mapError fun e => .misplaced e tree.walkedProgram
  s.runProgram p

/-- Runs lines one after another in one session, as the prompt does. -/
def runLines (s : Session) : List String → Except Escape (Session × List Report)
  | [] => .ok (s, [])
  | line :: rest => do
    let (s, r) ← s.runSource line
    let (s, rs) ← s.runLines rest
    return (s, r :: rs)

def debugText (s : Session) : String := String.join (s.machine.log.toList.map (· ++ "\n"))

end Session

/-- The diagnostics written before a session escaped: those resolution reported on the part of
a tree it walked before a misplaced part. -/
def Escape.diagnostics : Escape → List String
  | .misplaced _ walked => walked.resolve.errors.map (·.diagnostic.text)
  | _ => []

end Lox
