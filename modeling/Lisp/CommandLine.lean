import Lisp.Interpreter

/-!
# The command line

Arguments are taken from left to right.  The first one that is wrong, or that
asks for the help or the version, ends the command at once; otherwise the
command runs the code given with `-e`, or else the file named.  A program's
value is printed only for `-e`.
-/

namespace Lisp.CommandLine

/-- What a command leaves behind. -/
structure Exit where
  code : Nat
  stdout : String := ""
  stderr : String := ""
  files : Files := {}
  deriving Inhabited

/-- The settings of the environment that the command looks at. -/
structure Environment where
  maxDepth : Option String := none
  expansionCache : Option String := none
  deriving Inhabited

/-- What the arguments ask for. -/
structure Invocation where
  source : Option String := none
  file : Option String := none
  interactive : Bool := false
  withPrelude : Bool := true
  options : Options
  deriving Inhabited

/-- The answer to `--version`. -/
def version : String := "yali 0.1.0\n"

/-- One line on how to call the command. -/
def usage : String :=
  "Usage: yali [-e CODE] [file] [--repl] [--no-prelude] [--max-depth N] " ++
    "[--no-macro-cache] [--no-dot] [-v|-vv|-q]\n"

/-- The answer to `--help`. -/
def help : String :=
  usage ++ "\nOptions:\n" ++
    "  -e CODE           Evaluate CODE, print the result and exit\n" ++
    "  --repl            Start the REPL, or enter it after running a script\n" ++
    "  --no-prelude      Do not load the prelude definitions\n" ++
    "  --max-depth N     Evaluation nesting limit before stack exhaustion\n" ++
    "  --no-macro-cache  Re-run macros on every expansion\n" ++
    "  --no-dot          Read a.b.c as a plain symbol\n" ++
    "  -v, -vv           Log debug / trace events to stderr\n" ++
    "  -q                Only log errors\n" ++
    "  --version         Show version\n" ++
    "  -h, --help        Show this help\n" ++
    "\nYALI_LOG overrides the log filter, e.g. YALI_LOG=yali_core=debug.\n"

/-- The end of a command that was called wrongly. -/
def misuse (message : String) : Exit :=
  { code := 2, stderr := Failure.errorMark ++ " " ++ message ++ "\n" ++ usage }

/-- The invocation that arguments describe, or the early end of the command. -/
def parse (i : Invocation) : List String → Except Exit Invocation
  | [] => .ok i
  | ["-e"] => .error (misuse "-e requires code to evaluate")
  | "-e" :: code :: rest => parse { i with source := some code } rest
  | ["--max-depth"] => .error (misuse "--max-depth requires a positive integer")
  | "--max-depth" :: limit :: rest =>
    match Options.positiveCount? limit.toList with
    | some maxDepth => parse { i with options := { i.options with maxDepth } } rest
    | none => .error (misuse "--max-depth requires a positive integer")
  | "--repl" :: rest => parse { i with interactive := true } rest
  | "--no-prelude" :: rest => parse { i with withPrelude := false } rest
  | "--no-macro-cache" :: rest =>
    parse { i with options := { i.options with expansionCache := false } } rest
  | "--no-dot" :: rest =>
    parse { i with options := { i.options with dotAccess := false } } rest
  | "-v" :: rest => parse i rest
  | "-vv" :: rest => parse i rest
  | "-q" :: rest => parse i rest
  | "--version" :: _ => .error { code := 0, stdout := version }
  | "-h" :: _ => .error { code := 0, stdout := help }
  | "--help" :: _ => .error { code := 0, stdout := help }
  | arg :: rest =>
    if arg.startsWith "-" then .error (misuse s!"unknown option: {arg}")
    else
      match i.file with
      | some _ => .error (misuse s!"unexpected argument: {arg}")
      | none => parse { i with file := some arg } rest

/-- A failure as lines of the error output. -/
def complain (w : World) (f : Failure) : String :=
  String.join ((f.report w.heap).map (· ++ "\n"))

/-- The end of a command whose program failed. -/
def failed (w : World) (f : Failure) : Exit :=
  { code := 1, stdout := w.output, stderr := complain w f, files := w.files }

/-- Runs a program that is named `label`. -/
def execute (i : Invocation) (files : Files) (label code : String)
    (commands : Commands := {}) : Exit :=
  let options := { i.options with sourceName := some label }
  match Interpreter.create options files i.withPrelude commands with
  | (.failed f, w) => failed w f
  | (.outOfFuel, w) => { code := 1, stdout := w.output, files := w.files }
  | (.ok _, w) =>
    match Interpreter.evalText code w with
    | (.ok v, w) =>
      let printed := if i.source.isSome then v.print w.heap ++ "\n" else ""
      { code := 0, stdout := w.output ++ printed, files := w.files }
    | (.failed f, w) => { failed w f with code := if i.interactive then 0 else 1 }
    | (.outOfFuel, w) => { code := 1, stdout := w.output, files := w.files }

/-- Why the program file could not be read. -/
def unreadable (file : String) : FileError → String
  | .notFound => s!"File not found: {file}"
  | e => s!"Failed to read {file}: {e.message}"

/-- Runs the command in a working directory. -/
def command (args : List String) (env : Environment) (files : Files)
    (commands : Commands := {}) : Exit :=
  let options := Options.ofEnvironment env.maxDepth env.expansionCache
  match parse { options } args with
  | .error exit => { exit with files }
  | .ok i =>
    match i.source, i.file with
    | some code, _ => execute i files "<cmdline>" code commands
    | none, some file =>
      match files.read file with
      | .ok code => execute i files file code commands
      | .error e =>
        { code := 1, stderr := Failure.errorMark ++ " " ++ unreadable file e ++ "\n", files }
    | none, none => { code := 0, files }

end Lisp.CommandLine
