import Lisp.CommandLine

/-!
# The executable

Loads the files of the working directory, runs the command, writes back the
files that it changed, and passes on its output and exit code.  It lists no runs
of the shell, so a program that it runs can start none.
-/

open Lisp

/-- The text files of the working directory. -/
def loadFiles : IO Files := do
  let mut entries := #[]
  for entry in ← (← IO.currentDir).readDir do
    unless ← entry.path.isDir do
      try
        let content ← IO.FS.readFile entry.path
        entries := entries.push (entry.fileName, content)
      catch _ => continue
  return ⟨entries.toList⟩

/-- Writes the files whose content has changed. -/
def storeFiles (old new : Files) : IO Unit :=
  for (name, content) in new.entries do
    unless old.entries.lookup name == some content do
      IO.FS.writeFile name content

/-- Runs the command in the current directory. -/
def main (args : List String) : IO UInt32 := do
  let maxDepth ← IO.getEnv "YALI_MAX_DEPTH"
  let expansionCache ← IO.getEnv "YALI_MACRO_CACHE"
  let files ← loadFiles
  let result := CommandLine.command args { maxDepth, expansionCache } files
  storeFiles files result.files
  IO.print result.stdout
  IO.eprint result.stderr
  return UInt32.ofNat result.code
