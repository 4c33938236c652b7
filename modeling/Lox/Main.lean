import Lox.Cli
import Lox.Uncaught

/-!
The command line. Everything it decides is `Lox.Invocation.run`; this layer only reads the files
the arguments may name, runs the prompt line by line against the terminal, and writes what the
run produced.
-/

namespace Lox.Command

/-- The paths an argument may name: the argument itself and, for `--option=value`, the value. -/
def candidates (arg : String) : List String :=
  match arg.splitOn "=" with
  | [_] => [arg]
  | _ :: rest => [arg, "=".intercalate rest]
  | [] => [arg]

/-- A file with its normalised path, or nothing when it cannot be read. -/
def readIfPresent (path : String) : IO (Option (String × String)) := do
  try
    let text ← IO.FS.readFile path
    return some (Cli.showPath path, text)
  catch _ =>
    return none

/-- The files the arguments may name, those that can be read. -/
def gather (args : List String) : IO (List (String × String)) := do
  let mut found := []
  for path in args.flatMap candidates do
    if let some entry ← readIfPresent path then
      found := found ++ [entry]
  return found

def writeCreated (created : List (String × String)) : IO Unit := do
  for (path, text) in created do
    IO.FS.writeFile path text

/-- Reports a run that stopped outside the language, after the diagnostics it wrote first. -/
def crash (stderr : IO.FS.Stream) (e : Escape) : IO UInt32 := do
  stderr.putStr (Cli.errorText e.diagnostics)
  stderr.putStrLn (Uncaught.ofEscape e).text
  stderr.flush
  return 1

/-- The prompt: `> ` before each line, the line run in the session, a line feed at the end of
input. -/
partial def promptLoop (stdin stdout stderr : IO.FS.Stream) (s : Session) :
    IO (Except Escape Session) := do
  stdout.putStr "> "
  stdout.flush
  let chunk ← stdin.getLine
  if chunk.isEmpty then
    stdout.putStr "\n"
    stdout.flush
    return .ok s
  let mut session := s
  let mut first := true
  for line in Cli.inputLines chunk do
    if !first then
      stdout.putStr "> "
    first := false
    match Cli.promptLine session line with
    | .error e => return .error e
    | .ok (s', r) =>
      session := s'
      stdout.putStr r.stdout
      stdout.flush
      stderr.putStr (Cli.errorText r.errors)
      stderr.flush
  promptLoop stdin stdout stderr session

end Lox.Command

open Lox in
def main (args : List String) : IO UInt32 := do
  let stdin ← IO.getStdin
  let stdout ← IO.getStdout
  let stderr ← IO.getStderr
  match Invocation.prompts? args with
  | some level =>
    let outcome ← Command.promptLoop stdin stdout stderr (Session.new level)
    match outcome with
    | .error e => Command.crash stderr e
    | .ok s =>
      Command.writeCreated (Cli.debugFile level s)
      return 0
  | none =>
    let files ← Command.gather args
    match (Invocation.mk args files "").run with
    | .error e => Command.crash stderr e
    | .ok o =>
      Command.writeCreated o.created
      stdout.putStr o.stdout
      stdout.flush
      stderr.putStr o.stderr
      stderr.flush
      return o.exit.toUInt32
