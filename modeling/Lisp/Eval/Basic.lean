import Lisp.Commands
import Lisp.Failure.Wording
import Lisp.Options

/-!
# Evaluations

The state of an interpreter is a **world**: the heap, the calls in progress,
the nesting depth, the expansions remembered, the output written so far, the
files, the commands and the options.  An **evaluation** takes a world to an answer and a next
world; a failure keeps every change made before it.

The evaluator is open: it is written against a **machine**, a function that
answers requests, and never calls itself.  A request asks for the value of a
form in a frame, for the value of a call, or for the elements of a sequence
that programs define.  The machine with fuel ties the knot, and every
definition below it can be reasoned about for an arbitrary machine.
-/

namespace Lisp

/-- An expansion remembered for a macro and its operands. -/
structure Expansion where
  closure : ClosureId
  operands : List Value
  result : Value
  deriving Inhabited

/-- The state of an interpreter; `calls` has the innermost call first. -/
structure World where
  heap : Heap := {}
  calls : List Call := []
  depth : Nat := 0
  expansions : List Expansion := []
  output : String := ""
  files : Files := {}
  commands : Commands := {}
  options : Options := {}
  deriving Inhabited

/-- What an evaluation comes to. -/
inductive Answer (α : Type) where
  | ok (a : α)
  | failed (f : Failure)
  | outOfFuel
  deriving Inhabited

/-- An evaluation: from a world to an answer and the world after it. -/
def Eval (α : Type) := World → Answer α × World

namespace Eval

/-- An evaluation that changes nothing. -/
@[always_inline, inline]
protected def pure (a : α) : Eval α := fun w => (.ok a, w)

/-- One evaluation after another, the second only if the first has a value. -/
@[always_inline, inline]
protected def bind (x : Eval α) (next : α → Eval β) : Eval β := fun w =>
  match x w with
  | (.ok a, w) => next a w
  | (.failed f, w) => (.failed f, w)
  | (.outOfFuel, w) => (.outOfFuel, w)

@[always_inline]
instance : Monad Eval where
  pure := Eval.pure
  bind := Eval.bind

/-- Gives up with a failure. -/
@[inline]
def fail (f : Failure) : Eval α := fun w => (.failed f, w)

/-- Reads off the world. -/
@[inline]
def ask (view : World → α) : Eval α := fun w => (.ok (view w), w)

/-- Changes the world. -/
@[inline]
def change (f : World → World) : Eval Unit := fun w => (.ok (), f w)

/-- Changes the heap. -/
@[inline]
def changeHeap (f : Heap → Heap) : Eval Unit := fun w => (.ok (), { w with heap := f w.heap })

/-- Rewords a failure on its way out. -/
@[inline]
def onFailure (x : Eval α) (f : World → Failure → Failure) : Eval α := fun w =>
  match x w with
  | (.failed failure, w) => (.failed (f w failure), w)
  | other => other

/-- The printed text of a value, as of now. -/
def shown (v : Value) : Eval String := ask fun w => v.print w.heap

/-- Gives up with a failure whose message shows a value. -/
def failShowing (v : Value) (wording : String → Failure) : Eval α := fun w =>
  (.failed (wording (v.print w.heap)), w)

/-- The value of a computation that may fail. -/
def ofExcept : Except Failure α → Eval α
  | .ok a => Eval.pure a
  | .error f => fail f

/-- The call stack attached to a failure that still wants one. -/
def attachCalls (w : World) (f : Failure) : Failure :=
  f.withCalls w.calls

/-- Runs one level deeper, if the limit allows it. -/
def nested (x : Eval α) : Eval α := fun w =>
  if w.options.maxDepth < w.depth + 1 then (.failed (.tooDeep w.options.maxDepth), w)
  else
    match x { w with depth := w.depth + 1 } with
    | (answer, w) => (answer, { w with depth := w.depth - 1 })

/-- Runs inside a call. -/
def inCall (call : Call) (x : Eval α) : Eval α := fun w =>
  match onFailure x attachCalls { w with calls := call :: w.calls } with
  | (answer, w) => (answer, { w with calls := w.calls.tail })

/-- Runs inside a form read at `source`. -/
def inForm (source : Option Span) (x : Eval α) : Eval α :=
  onFailure x fun w f => attachCalls w (f.withSource source)

/-- A recur on its way out is a misuse here. -/
def noRecur (complaint : Failure) (x : Eval α) : Eval α :=
  onFailure x fun _ f => if f.cause.isRecur then complaint else f

/-- Adds a frame inside `outer`. -/
def extend (outer : FrameId) (label : String) : Eval FrameId := fun w =>
  let id := w.heap.frames.size
  (.ok id, { w with heap := { w.heap with frames := w.heap.frames.extend outer label } })

/-- Defines a symbol in a frame. -/
def define (frame : FrameId) (s : Symbol) (v : Value) : Eval Unit :=
  changeHeap fun h => { h with frames := h.frames.define frame s v }

/-- The next serial number. -/
def serial : Eval Nat := fun w =>
  (.ok w.heap.serials, { w with heap := { w.heap with serials := w.heap.serials + 1 } })

/-- Makes an error value, with a call stack if one is given. -/
def newError (message : String) (data : Value) (kind : Option String)
    (stack : Option (List String)) : Eval Value := fun w =>
  let id := w.heap.traces.size
  (.ok (.error id message data kind),
    { w with heap := { w.heap with traces := w.heap.traces.push stack } })

/-- The interface of a number. -/
def interface? (id : InterfaceId) : Eval (Option Interface) :=
  ask fun w => w.heap.interfaces[id]?

/-- The name of a type. -/
def typeName (tag : TypeTag) : Eval String :=
  ask fun w => w.heap.typeName tag

end Eval

/-- What the evaluator asks of the machine it runs on. -/
inductive Request where
  /-- The value of a form in a frame. -/
  | eval (frame : FrameId) (form : Value)
  /-- The value of a call, made at `source`. -/
  | apply (source : Option Span) (callee : Value) (args : List Value)
  /-- The elements of a sequence that a program defines, after those in `taken`,
  which are kept last first. -/
  | unfold (sequence : Value) (taken : List Value)
  deriving Inhabited

/-- Answers requests. -/
abbrev Machine := Request → Eval Value

namespace Machine

/-- The value of a form in tail position, where a recur may leave it. -/
@[inline]
def eval (m : Machine) (frame : FrameId) (form : Value) : Eval Value :=
  m (.eval frame form)

/-- The value of a form that is used in place. -/
def value (m : Machine) (frame : FrameId) (form : Value) : Eval Value :=
  Eval.noRecur .recurOutsideTail (m.eval frame form)

/-- The value of a call that no text is responsible for. -/
@[inline]
def call (m : Machine) (callee : Value) (args : List Value) : Eval Value :=
  m (.apply none callee args)

/-- Calls an interface, which dispatches on its leading arguments. -/
@[inline]
def dispatch (m : Machine) (i : CoreInterface) (args : List Value) : Eval Value :=
  m.call (.interface i.id) args

end Machine

end Lisp
