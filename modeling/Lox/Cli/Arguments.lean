import Lox.Text.Quoted

/-!
The option grammar of the command line and the parser that reads arguments by it.

The command line knows `-h`/`--help`, the counted flag `-v`, the four file options
`--emit-ast`, `--ast`, `--print-ast` and `--tokens`, of which at most one may be given, and one
optional script. The parser reads in two passes. The first names each argument: a plain word,
the separator `--` (after which every argument is plain), a flag with the text attached to it
after `=` or, for a one-letter flag, right after the letter, or a word that looks like an option
but names none. A long option may be any prefix of exactly one long spelling; a prefix of several
is an error at once. The second pass walks the arguments from the left: a flag takes its file
from its attached text or from the next argument, which must be plain; one-letter flags may be
run together (`-vvv`); the first run of plain arguments gives the script and every plain word
left over, like every unknown option, is kept aside. Asking for help stops the walk there, and
so does the first error.
-/

namespace Lox.Cli

/-- The options the command line knows. -/
inductive Flag where
  | help
  | verbose
  | emitAst
  | ast
  | printAst
  | tokens
  deriving DecidableEq, Repr, Inhabited

namespace Flag

/-- The flags in the order the parser lists them. -/
def all : List Flag := [.help, .verbose, .emitAst, .ast, .printAst, .tokens]

def spellings : Flag → List String
  | .help => ["-h", "--help"]
  | .verbose => ["-v"]
  | .emitAst => ["--emit-ast"]
  | .ast => ["--ast"]
  | .printAst => ["--print-ast"]
  | .tokens => ["--tokens"]

/-- Whether the flag takes a file; the file options are the ones that exclude each other. -/
def takesFile : Flag → Bool
  | .help | .verbose => false
  | _ => true

/-- The name of a flag in messages: its spellings joined by `/`. -/
def title (f : Flag) : String := "/".intercalate f.spellings

/-- Every spelling with its flag, in the parser's order. -/
def table : List (String × Flag) := all.flatMap fun f => f.spellings.map fun s => (s, f)

def named? (s : String) : Option Flag := table.lookup s

end Flag

inductive Word where
  | plain
  -- The first `--`: every argument after it is plain.
  | separator
  | flag (f : Flag) (spelling : String) (attached : Option String)
  | stray
  deriving Repr, Inhabited

/-- Why the arguments do not parse. -/
inductive ArgError where
  | ambiguous (arg : String) (spellings : List String)
  | expectedOne (f : Flag)
  | ignoredExplicit (f : Flag) (text : String)
  | notAllowed (f other : Flag)
  deriving Repr, Inhabited

def ArgError.message : ArgError → String
  | .ambiguous arg ss => "ambiguous option: " ++ arg ++ " could match " ++ ", ".intercalate ss
  | .expectedOne f => "argument " ++ f.title ++ ": expected one argument"
  | .ignoredExplicit f t => "argument " ++ f.title ++ ": ignored explicit argument " ++ Quoted.quote t
  | .notAllowed f o => "argument " ++ f.title ++ ": not allowed with argument " ++ o.title

def usageText : String :=
  "usage: pylox [-h] [-v]\n" ++
  "             [--emit-ast LOX_FILE | --ast AST_JSON_FILE | --print-ast LOX_FILE | --tokens LOX_FILE]\n" ++
  "             [script]\n"

def helpText : String :=
  usageText ++ "\nLox language interpreter\n\npositional arguments:\n" ++
  "  script                Lox script (.lox) to execute\n\noptions:\n" ++
  "  -h, --help            show this help message and exit\n" ++
  "  -v                    increase debug verbosity (can be repeated)\n" ++
  "  --emit-ast LOX_FILE   emit AST JSON for the given .lox file\n" ++
  "  --ast AST_JSON_FILE   execute AST from a JSON file\n" ++
  "  --print-ast LOX_FILE  print the AST of the given .lox file\n" ++
  "  --tokens LOX_FILE     print the tokens of the given file\n"

/-- Splits at the first `=`: the text before it and, when there is one, the text after it. -/
def splitAttached (arg : String) : String × Option String :=
  match arg.splitOn "=" with
  | name :: v :: more => (name, some ("=".intercalate (v :: more)))
  | _ => (arg, none)

/-- Whether an argument reads as a negative number, `-12` or `-1.5` or `-.5`. -/
def isNegativeNumber (arg : String) : Bool :=
  match arg.toList with
  | '-' :: rest =>
    let (whole, afterWhole) := rest.span Char.isDigit
    match afterWhole with
    | [] => !whole.isEmpty
    | '.' :: fraction => !fraction.isEmpty && fraction.all Char.isDigit
    | _ => false
  | _ => false

/-- The flags an option-like argument may stand for: for `--name`, the long spellings it is a
prefix of, with the text after `=`; for `-xrest`, the flag `-x` with `rest` attached, and the
spellings the whole argument is a prefix of. -/
def candidates (arg : String) : List (Flag × String × Option String) :=
  match arg.toList with
  | '-' :: '-' :: _ =>
    let (pre, attached) := splitAttached arg
    Flag.table.filterMap fun (s, f) => if s.startsWith pre then some (f, s, attached) else none
  | '-' :: _ :: _ =>
    let short := String.ofList (arg.toList.take 2)
    let rest := String.ofList (arg.toList.drop 2)
    Flag.table.filterMap fun (s, f) =>
      if s = short then some (f, s, some rest)
      else if s.startsWith arg then some (f, s, none)
      else none
  | _ => []

def classify (arg : String) : Except ArgError Word :=
  match arg.toList with
  | [] => .ok .plain
  | c :: rest =>
    if c ≠ '-' then .ok .plain
    else
      match Flag.named? arg with
      | some f => .ok (.flag f arg none)
      | none =>
        if rest.isEmpty then .ok .plain
        else
          let (name, attached) := splitAttached arg
          match attached.bind fun _ => Flag.named? name with
          | some f => .ok (.flag f name attached)
          | none =>
            match candidates arg with
            | [(f, s, a)] => .ok (.flag f s a)
            | [] => if isNegativeNumber arg || arg.any (· == ' ') then .ok .plain else .ok .stray
            | more => .error (.ambiguous arg (more.map fun (_, s, _) => s))

/-- Names every argument: those after the first `--` are plain. -/
def classifyAll : List String → Except ArgError (List (String × Word))
  | [] => .ok []
  | "--" :: rest => .ok (("--", .separator) :: rest.map fun a => (a, .plain))
  | a :: rest => do
    let w ← classify a
    let ws ← classifyAll rest
    pure ((a, w) :: ws)

structure Options where
  level : Nat := 0
  -- The file options given, with their files; a later one replaces an earlier.
  files : List (Flag × String) := []
  script : Option String := none
  scriptTaken : Bool := false
  extra : List String := []
  deriving Inhabited

/-- What the arguments ask for. -/
inductive Request where
  | help
  -- Nothing: the arguments do not parse.
  | failed (e : ArgError)
  | run (o : Options)
  deriving Inhabited

namespace Options

def file? (o : Options) (f : Flag) : Option String := o.files.lookup f

/-- Records a file option, refusing it beside a different one. -/
def setFile (o : Options) (f : Flag) (v : String) : Except ArgError Options :=
  match Flag.all.find? fun g => g ≠ f && (o.files.lookup g).isSome with
  | some g => .error (.notAllowed f g)
  | none => .ok { o with files := (f, v) :: o.files.filter (·.1 ≠ f) }

/-- Fills the script's place from a run of plain arguments: a leading separator, at most one
word and a trailing separator go to it, the rest is kept aside. -/
def takePlain (o : Options) (run : List (String × Word)) : Options :=
  if o.scriptTaken then { o with extra := o.extra ++ run.map (·.1) }
  else
    let o := { o with scriptTaken := true }
    let body := match run with
      | (_, .separator) :: rest => rest
      | _ => run
    match body with
    | (a, .plain) :: (_, .separator) :: rest =>
      { o with script := some a, extra := o.extra ++ rest.map (·.1) }
    | (a, .plain) :: rest => { o with script := some a, extra := o.extra ++ rest.map (·.1) }
    | rest => { o with extra := o.extra ++ rest.map (·.1) }

end Options

/-- Carries out the flags one argument gave, in order. -/
def perform (o : Options) : List (Flag × Option String) → Except Request Options
  | [] => .ok o
  | (.help, _) :: _ => .error .help
  | (.verbose, _) :: rest => perform { o with level := o.level + 1 } rest
  | (f, v) :: rest =>
    match o.setFile f (v.getD "") with
    | .ok o => perform o rest
    | .error e => .error (.failed e)

/-- Reads a run of one-letter flags after the first: each next letter must be a flag that takes
no file. `fuel` bounds the letters read. -/
def cluster : Nat → Flag → String → String → Except ArgError (List (Flag × Option String))
  | 0, _, _, _ => .ok []
  | fuel + 1, f, spelling, attached =>
    match attached.toList with
    | [] => .ok [(f, none)]
    | c :: more =>
      if f.takesFile then .ok [(f, some attached)]
      else if (spelling.toList.drop 1).head? == some '-' then .error (.ignoredExplicit f attached)
      else
        match Flag.named? (String.ofList ['-', c]) with
        | some g => do
          let rest ← cluster fuel g (String.ofList ['-', c]) (String.ofList more)
          pure ((f, none) :: rest)
        | none => .error (.ignoredExplicit f attached)

/-- One step at a flag: the flags it stands for, with their files, and the arguments left. -/
def atFlag (f : Flag) (spelling : String) (attached : Option String)
    (rest : List (String × Word)) : Except ArgError (List (Flag × Option String) × List (String × Word)) :=
  match attached with
  | some t =>
    if f.takesFile then .ok ([(f, some t)], rest)
    else if t.isEmpty then .error (.ignoredExplicit f t)
    else do
      let fs ← cluster (t.length + 1) f spelling t
      pure (fs, rest)
  | none =>
    if f.takesFile then
      match rest with
      | (v, .plain) :: more => .ok ([(f, some v)], more)
      | _ => .error (.expectedOne f)
    else .ok ([(f, none)], rest)

def Word.isOption : Word → Bool
  | .flag .. | .stray => true
  | _ => false

/-- Walks the named arguments from the left; `fuel` bounds the steps, each of which reads at
least one argument. -/
def walk : Nat → Options → List (String × Word) → Request
  | 0, o, _ => .run o
  | _, o, [] => .run (o.takePlain [])
  | fuel + 1, o, (arg, w) :: rest =>
    match w with
    | .stray => walk fuel { o with extra := o.extra ++ [arg] } rest
    | .flag f spelling attached =>
      match atFlag f spelling attached rest with
      | .error e => .failed e
      | .ok (fs, rest) =>
        match perform o fs with
        | .error r => r
        | .ok o => walk fuel o rest
    | _ =>
      let run := ((arg, w) :: rest).takeWhile fun p => !p.2.isOption
      let after := ((arg, w) :: rest).dropWhile fun p => !p.2.isOption
      walk fuel (o.takePlain run) after

def parseArgs (args : List String) : Request :=
  match classifyAll args with
  | .error e => .failed e
  | .ok words => walk (words.length + 1) {} words

end Lox.Cli
