import Lisp.Eval.Machine
import Lisp.Prelude

/-!
# Interpreters

An interpreter is a world that starts out with the core interfaces, their
implementations for builtin types, and the builtins as global definitions.  One
with files also has the builtins for output, files and commands, and can start
with the prelude.

The operations below run on the machine with `fuel`, which is more than any run
can use up in practice.
-/

namespace Lisp

/-- The names and parameters of the core interfaces, with their defaults and
hooks, in the order of their numbers. -/
def coreInterfaces : List Interface :=
  let a : Symbol := .intern "a"
  let b : Symbol := .intern "b"
  [{ name := .intern "to-Bool", params := [a] },
   { name := .intern "to-Num", params := [a] },
   { name := .intern "to-Str", params := [a], fallback := some (.builtin (.core .print)) },
   { name := .intern "to-Proc", params := [a] },
   { name := .intern "first", params := [a] },
   { name := .intern "rest", params := [a] },
   { name := .intern "empty?", params := [a] },
   { name := .intern "hash", params := [a], fallback := some (.builtin (.core .hash)),
     hook := some .recordHash },
   { name := .intern "binary=", params := [a, b],
     fallback := some (.builtin (.core .equals)), hook := some .recordEquality }]

/-- The implementations of the core interfaces for builtin types. -/
def coreImplementations : List (CoreInterface × TypeTag × CoreOp) :=
  [(.toBool, .nil, .nilToBool),
   (.toBool, .num, .numToBool),
   (.toBool, .str, .strToBool),
   (.toBool, .list, .listToBool),
   (.toBool, .map, .mapToBool),
   (.toNum, .bool, .boolToNum),
   (.toNum, .str, .strToNum),
   (.toProc, .keyword, .keywordToProc),
   (.toProc, .map, .mapToProc),
   (.toProc, .list, .listToProc),
   (.first, .list, .listFirst),
   (.rest, .list, .listRest),
   (.isEmpty, .list, .listIsEmpty),
   (.first, .nil, .nilFirst),
   (.rest, .nil, .nilRest),
   (.isEmpty, .nil, .nilIsEmpty),
   (.isEmpty, .map, .mapIsEmpty),
   (.toBool, .sym, .alwaysTrue),
   (.toBool, .keyword, .alwaysTrue),
   (.toBool, .proc, .alwaysTrue),
   (.toBool, .interface, .alwaysTrue),
   (.toBool, .type, .alwaysTrue),
   (.toBool, .error, .alwaysTrue)]

/-- The ratio of a circle's circumference to its diameter. -/
def pi : Float := Float.ofBits 0x400921FB54442D18

/-- The global definitions of every interpreter. -/
def coreBindings : List (Symbol × Value) :=
  TypeTag.builtins.map (fun tag => (.intern tag.builtinName, .type tag)) ++
    coreInterfaces.zipIdx.map (fun (i, id) => (i.name, .interface id)) ++
    (.intern "PI", .num pi) ::
    Builtin.globals.map (fun b => (.intern b.name, .builtin b))

/-- The builtins for output, files and commands as global definitions. -/
def systemBindings : List (Symbol × Value) :=
  SystemOp.all.map fun op => (.intern op.name, .builtin (.system op))

/-- A heap whose global frame has the given definitions. -/
def Heap.initial (bindings : List (Symbol × Value)) : Heap :=
  let empty : Heap :=
    { frames := ⟨#[{ bindings }]⟩, interfaces := coreInterfaces.toArray }
  coreImplementations.foldl
    (fun h (i, tag, op) => h.register i.id [tag] (.builtin (.core op))) empty

/-- The heap of an interpreter without files. -/
def Heap.core : Heap := .initial coreBindings

/-- The heap of an interpreter with files. -/
def Heap.withSystem : Heap := .initial (coreBindings ++ systemBindings)

namespace World

/-- An interpreter without files. -/
def core (options : Options) : World :=
  { heap := .core, options }

/-- An interpreter with files, before its prelude is loaded. -/
def withFiles (options : Options) (files : Files) (commands : Commands := {}) : World :=
  { heap := .withSystem, options, files, commands }

end World

namespace Interpreter

/-- The turns that every operation has. -/
def fuel : Nat := 1000000000000000000

/-- The machine of an interpreter. -/
def machine : Machine := run fuel

/-- Evaluates every form of a text in a frame; the value of the last one. -/
def evalTextIn (text file : String) (frame : FrameId) : Eval Value := do
  machine.interpretAll frame .nil (← Eval.readText text file)

/-- Evaluates a program in the global frame. -/
def evalText (text : String) : Eval Value := do
  let label ← Eval.ask (·.options.sourceLabel)
  evalTextIn text label Heap.global

/-- Evaluates the prelude. -/
def loadPrelude : Eval Unit := do
  let _ ← evalTextIn Prelude.text Prelude.label Heap.global

/-- An interpreter with files, and with the prelude if asked for. -/
def create (options : Options) (files : Files) (withPrelude : Bool)
    (commands : Commands := {}) : Answer Unit × World :=
  if withPrelude then loadPrelude (.withFiles options files commands)
  else (.ok (), .withFiles options files commands)

/-- Binds a global name. -/
def defineGlobal (name : String) (v : Value) : Eval Unit :=
  Eval.define Heap.global (.intern name) v

/-- Applies a value to arguments. -/
def apply (callee : Value) (args : List Value) : Eval Value :=
  machine.call callee args

end Interpreter

end Lisp
