import Lisp.Files

/-!
# Commands

A program can have the shell run a command line.  What comes of it is decided
outside of the program and may differ from one time to the next, so it is given
beforehand, as the files are: the commands of an interpreter are the runs to
come, each under its command line.  A run says whether the shell can be started,
how the command ends, what it writes, and which files it leaves changed.
-/

namespace Lisp

/-- How a process ends. -/
inductive ExitStatus where
  | exited (code : Nat)
  | killed (signal : Nat) (coreDumped : Bool)
  deriving DecidableEq, Repr

namespace ExitStatus

/-- The names of the signals, the first of which has number one. -/
def signalNames : List String :=
  ["SIGHUP", "SIGINT", "SIGQUIT", "SIGILL", "SIGTRAP", "SIGABRT", "SIGBUS", "SIGFPE",
   "SIGKILL", "SIGUSR1", "SIGSEGV", "SIGUSR2", "SIGPIPE", "SIGALRM", "SIGTERM", "SIGSTKFLT",
   "SIGCHLD", "SIGCONT", "SIGSTOP", "SIGTSTP", "SIGTTIN", "SIGTTOU", "SIGURG", "SIGXCPU",
   "SIGXFSZ", "SIGVTALRM", "SIGPROF", "SIGWINCH", "SIGIO", "SIGPWR", "SIGSYS"]

/-- A signal by its number, and by its name if it has one. -/
def describeSignal (signal : Nat) : String :=
  match (signalNames.zipIdx 1).find? (·.2 = signal) with
  | some (name, _) => s!"{signal} ({name})"
  | none => toString signal

/-- The wording of an exit status. -/
def describe : ExitStatus → String
  | .exited code => s!"exit status: {code}"
  | .killed signal false => s!"signal: {describeSignal signal}"
  | .killed signal true => s!"signal: {describeSignal signal} (core dumped)"

end ExitStatus

/-- What comes of running a command line once.  What it writes is given as text,
and each file that it changes with its new content, or with none if it is gone. -/
inductive CommandRun where
  | unstarted (reason : String)
  | ended (status : ExitStatus) (output errors : String)
      (changes : List (String × Option String))
  deriving DecidableEq, Repr

/-- The files after a command has run. -/
def CommandRun.leave (files : Files) : CommandRun → Files
  | .unstarted _ => files
  | .ended _ _ _ changes => changes.foldl (fun fs change => fs.set change.1 change.2) files

/-- The runs of commands to come, each under its command line. -/
structure Commands where
  runs : List (String × CommandRun) := []
  deriving DecidableEq, Repr, Inhabited

namespace Commands

/-- The next run of a command line.  The shell takes no line with a NUL, and it
may not be started for a line without a run. -/
def next (cs : Commands) (line : String) : CommandRun :=
  if line.toList.contains '\x00' then .unstarted "nul byte found in provided data"
  else (cs.runs.lookup line).getD (.unstarted "Operation not permitted (os error 1)")

/-- The runs to come after the next one of a command line. -/
def after (cs : Commands) (line : String) : Commands :=
  ⟨cs.runs.eraseP (·.1 == line)⟩

end Commands

end Lisp
