import Lisp.Eval.Conversion
import Lisp.Reader

/-!
# Builtins that read, evaluate, print, use files and run commands

A text or form that a program hands to `eval` is evaluated in a new frame
directly inside the global one: the frames of the caller are not visible there.
-/

namespace Lisp

/-- Reads a text with the settings of the interpreter. -/
def Eval.readText (text file : String) : Eval (List Value) := fun w =>
  match read text file w.options.dotAccess with
  | .ok forms => (.ok forms, w)
  | .error f => (.failed f, w)

/-- What a command line writes when the shell runs it.  The files that it changed stay
changed when it fails. -/
def Eval.runCommand (line : String) : Eval String := do
  let run ← Eval.ask fun w => w.commands.next line
  Eval.change fun w =>
    { w with commands := w.commands.after line, files := run.leave w.files }
  match run with
  | .unstarted reason => Eval.fail (.commandUnstarted reason)
  | .ended (.exited 0) output _ _ => return output
  | .ended status _ errors _ =>
    Eval.fail (.commandFailed line status.describe (.ofList (Text.trimEnd errors.toList)))

namespace Machine

variable (m : Machine)

/-- The value of a form that stands on its own, where no recur may leave it. -/
def interpret (frame : FrameId) (form : Value) : Eval Value :=
  Eval.noRecur .recurOutsideProcedure (m.eval frame form)

/-- The value of the last of several forms, `last` if there are none. -/
def interpretAll (frame : FrameId) (last : Value) : List Value → Eval Value
  | [] => return last
  | form :: rest => do
    let v ← m.interpret frame form
    interpretAll frame v rest

/-- Evaluates a form, or every form of a text, apart from the caller. -/
def evalApart (form : Value) : Eval Value := do
  let frame ← Eval.extend Heap.global "eval"
  match form with
  | .str text => m.interpretAll frame .nil (← Eval.readText text "<eval>")
  | other => m.interpret frame other

/-- The name that `read` gives to a text. -/
def fileName : List Value → Eval String
  | [] => return "<read>"
  | v :: _ => m.toStr v

/-- The name of a fresh symbol without its mark. -/
def freshName : List Value → Eval String
  | [] => return "sym"
  | .sym s :: _ => return s.name
  | v :: _ => m.toStr v

/-- The value of a builtin that reads, evaluates or prints. -/
def callReflection (op : ReflectionOp) (args : List Value) : Eval Value := do
  match op, args with
  | .read, .str text :: file =>
    let name ← m.fileName file
    return .ofList (← Eval.readText text name)
  | .read, other :: _ => Eval.failShowing other (.expectsGot "read expects source text")
  | .eval, [form] => m.evalApart form
  | .print, [v] => return .str (← Eval.shown v)
  | .colorPrint, [v] => Eval.ask fun w => .str (v.printColored w.heap)
  | .uniqueSymbol, args =>
    let name ← m.freshName args
    return .sym (.fresh (← Eval.serial) ("#" ++ name))
  | op, args => Eval.fail (.argumentCount op.name op.arity args.length)

/-- The path that an argument names. -/
def toPath (name : String) (v : Value) : Eval String :=
  match v with
  | .str path => pure path
  | .sym _ | .keyword _ => m.toStr v
  | other => Eval.failShowing other (.expectsGot (name ++ " expects a path string"))

/-- Whether the last argument of `write-file` asks to write after the old
content. -/
def toAppend : List Value → Eval Bool
  | [] => return false
  | .nil :: _ => return false
  | flag :: _ => do return (← m.toStr flag) == "a"

/-- The value of a builtin that uses the output, files or commands. -/
def callSystem (op : SystemOp) (args : List Value) : Eval Value := do
  match op, args with
  | .println, args =>
    let texts ← m.toStrs args
    Eval.change fun w => { w with output := w.output ++ (" ".intercalate texts ++ "\n") }
    return .nil
  | .readFile, [v] =>
    let path ← m.toPath "read-file" v
    match ← Eval.ask fun w => w.files.read path with
    | .ok content => return .str content
    | .error e => Eval.fail (.fileFailed "read-file" path e.message)
  | .writeFile, v :: contentForm :: flag =>
    let path ← m.toPath "write-file" v
    let content ← m.toStr contentForm
    let append ← m.toAppend flag
    match ← Eval.ask fun w => w.files.write path content append with
    | .ok files =>
      Eval.change fun w => { w with files }
      return .str path
    | .error e => Eval.fail (.fileFailed "write-file" path e.message)
  | .exec, _ :: _ =>
    let parts ← m.toStrs args
    return .str (← Eval.runCommand (" ".intercalate parts))
  | op, args => Eval.fail (.argumentCount op.name op.arity args.length)

end Machine

end Lisp
