import Lox.Session
import Lox.Json.Parse
import Lox.Json.Print
import Lox.Text.Quoted
import Lox.Tree.Sexpr
import Lox.Cli.Arguments

/-!
The command line, as a function of its arguments, the files it can read and its standard input.

`lox [-v…] [script]` runs a script, or without one reads lines from standard input and runs
each, printing the prompt `> ` before each read and a line feed at the end. `--tokens F` lists
the tokens of a file, `--print-ast F` prints its program as S-expressions, `--emit-ast F` writes
the program's syntax tree to `F.ast.json`, and `--ast F` runs a tree read from a JSON file. Each
`v` raises the debug level, whose lines go to `debug.txt` for the modes that run programs.
The arguments are read by `Lox.Cli.parseArgs`; `-h` prints the help text, arguments that do not
parse print the usage and the reason, and arguments that fit nowhere are a usage error.

Exit codes: 0 on success, 2 for arguments that do not parse, 64 for a usage error, 65 for a
syntax or resolution error (or a bad character in a token listing), 66 for a missing file and 70
for a runtime error. Files are read with every line ending turned into a line feed.
-/

namespace Lox

namespace Cli

/-- What the command line does. -/
inductive Mode where
  | tokens (file : String)
  | printAst (file : String)
  | emitAst (file : String)
  | runAst (file : String)
  | script (file : String)
  | prompt
  deriving Inhabited

/-- The mode the options ask for. A file option or script given as the empty text counts as not
given, but still excludes the other file options. -/
def Options.mode (o : Options) : Mode :=
  let given := fun f => (o.file? f).filter (· ≠ "")
  match given .tokens, given .printAst, given .emitAst, given .ast, o.script.filter (· ≠ "") with
  | some f, _, _, _, _ => .tokens f
  | none, some f, _, _, _ => .printAst f
  | none, none, some f, _, _ => .emitAst f
  | none, none, none, some f, _ => .runAst f
  | none, none, none, none, some f => .script f
  | _, _, _, _, _ => .prompt

/-- A path as it is shown: repeated slashes and `.` parts dropped, no slash at the end. -/
def showPath (p : String) : String :=
  let absolute := p.startsWith "/"
  let parts := (p.splitOn "/").filter fun s => !s.isEmpty && s != "."
  let body := "/".intercalate parts
  if absolute then "/" ++ body else if body.isEmpty then "." else body

/-- Text with every `\r\n` and lone `\r` turned into a line feed. -/
def universalNewlines (s : String) : String :=
  let rec go : List Char → List Char
    | '\r' :: '\n' :: rest => '\n' :: go rest
    | '\r' :: rest => '\n' :: go rest
    | c :: rest => c :: go rest
    | [] => []
  String.ofList (go s.toList)

/-- The lines standard input yields to a prompt: split at line feeds, the last one kept if it
has text. -/
def inputLines (s : String) : List String :=
  let parts := (universalNewlines s).splitOn "\n"
  match parts.getLast? with
  | some "" => parts.dropLast
  | _ => parts

end Cli

/-- A run of the command line: its arguments, the files it may read, and standard input. -/
structure Invocation where
  args : List String
  files : List (String × String)
  stdin : String

/-- What a run of the command line did. -/
structure Outcome where
  exit : Nat
  stdout : String
  stderr : String
  created : List (String × String)
  deriving Inhabited

namespace Cli

def usage : Outcome := ⟨64, "", "Usage: pylox [script]\n", []⟩

def missing (path : String) (created : List (String × String)) : Outcome :=
  ⟨66, "", "Error: file " ++ showPath path ++ " not found\n", created⟩

/-- Reads a file of the invocation, with line endings made line feeds. -/
def read? (inv : Invocation) (path : String) : Option String :=
  (inv.files.lookup (showPath path)).map universalNewlines

/-- The exit code after a report: 65 for a static error, 70 for a runtime error. -/
def exitFor (r : Report) : Nat := if r.hadError then 65 else if r.hadRuntimeError then 70 else 0

def errorText (errors : List String) : String := String.join (errors.map (· ++ "\n"))

/-- The debug file of a session, for levels above zero. -/
def debugFile (level : Nat) (s : Session) : List (String × String) :=
  if level > 0 then [("debug.txt", s.debugText)] else []

/-- Runs one prompt line in a session; errors are reported for the line and the session goes
on. -/
def promptLine (s : Session) (line : String) : Except Escape (Session × Report) := s.runSource line

/-- Runs prompt lines: the prompt before each, output and errors after it, a line feed at the
end. -/
def prompt (s : Session) :
    List String → String → String → Except Escape (Session × String × String)
  | [], out, err => .ok (s, out ++ "> \n", err)
  | line :: rest, out, err => do
    let (s, r) ← promptLine s line
    prompt s rest (out ++ "> " ++ r.stdout) (err ++ errorText r.errors)

/-- The line of a token in a listing: `line:column TYPE 'lexeme'`. -/
def tokenLine (t : Token) : String :=
  s!"{t.line}:{t.column} {t.kind.name} {Quoted.quote t.lexeme}\n"

end Cli

open Cli in
def Invocation.run (inv : Invocation) : Except Escape Outcome :=
  match parseArgs inv.args with
  | .help => .ok ⟨0, helpText, "", []⟩
  | .failed e => .ok ⟨2, "", usageText ++ "pylox: error: " ++ e.message ++ "\n", []⟩
  | .run o =>
  if !o.extra.isEmpty then .ok usage
  else
    match o.mode with
    | .tokens f =>
      match read? inv f with
      | none => .ok (missing f [])
      | some src =>
        let scan := Token.scan src
        let toks := Token.tokenize src
        let err := errorText (scan.error.toList.map fun e => (SyntaxError.lexical e).diagnostic.text)
        .ok ⟨if scan.error.isSome then 65 else 0, String.join (toks.map tokenLine), err, []⟩
    | .printAst f =>
      match read? inv f with
      | none => .ok (missing f [])
      | some src =>
        match parseProgram src with
        | .error es => .ok ⟨65, "", errorText (es.map (·.diagnostic.text)), []⟩
        | .ok p =>
          let text := match (Program.toTree p).sexpr with
            | .ok t => t
            | .error _ => ""
          .ok ⟨0, text ++ "\n", "", []⟩
    | .emitAst f =>
      match read? inv f with
      | none => .ok (missing f [])
      | some src =>
        match parseProgram src with
        | .error es => .ok ⟨65, "", errorText (es.map (·.diagnostic.text)), []⟩
        | .ok p =>
          let out := showPath f ++ ".ast.json"
          .ok ⟨0, out ++ "\n", "", [(out, (Program.toTree p).toJson.renderIndented 2 0)]⟩
    | .runAst f =>
      let s := Session.new o.level
      match read? inv f with
      | none => .ok (missing f (debugFile o.level s))
      | some src =>
        match Json.parse src with
        | .error _ => .error (.decode .notNode)
        | .ok j => do
          let (s, r) ← s.runDocument j
          return ⟨exitFor r, r.stdout, errorText r.errors, debugFile o.level s⟩
    | .script f =>
      let s := Session.new o.level
      match read? inv f with
      | none => .ok (missing f (debugFile o.level s))
      | some src => do
        let (s, r) ← s.runSource src
        return ⟨exitFor r, r.stdout, errorText r.errors, debugFile o.level s⟩
    | .prompt => do
      let (s, out, err) ← prompt (Session.new o.level) (inputLines inv.stdin) "" ""
      return ⟨0, out, err, debugFile o.level s⟩

/-- The verbosity of an invocation that starts the prompt, and nothing for any other. -/
def Invocation.prompts? (args : List String) : Option Nat :=
  match Cli.parseArgs args with
  | .run o =>
    match o.mode with
    | .prompt => if o.extra.isEmpty then some o.level else none
    | _ => none
  | _ => none

end Lox
