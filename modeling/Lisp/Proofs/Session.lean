import Lisp.Interpreter
import Lisp.Proofs.Congruence.Run

/-!
# Sessions

A host builds an interpreter and then makes one request after another of it.  A
step of such a session changes the world and may fail; the next one goes on from
the world that it left.  A world is **reachable** if some session ends in it.

`Discipline.perform` brings what a discipline says about evaluations up to the
steps of a host, which define names in the frame that they name, if any.
-/

namespace Lisp

/-- What a host asks of an interpreter. -/
inductive HostStep where
  /-- The value of a program in the global frame. -/
  | program (text : String)
  /-- The value of a text in a frame. -/
  | textIn (frame : FrameId) (text file : String)
  /-- The value of a form in a frame. -/
  | formIn (frame : FrameId) (form : Value)
  /-- The value of a call. -/
  | call (callee : Value) (args : List Value)
  /-- A global definition. -/
  | define (name : String) (v : Value)
  /-- A new frame. -/
  | extend (outer : FrameId) (label : String)
  /-- The elements of a value. -/
  | items (v : Value)
  /-- The comparison of two values. -/
  | equal (a b : Value)
  /-- The hash of a value. -/
  | hash (v : Value)

namespace HostStep

/-- The world that a step leaves, with whatever answer. -/
def perform (w : World) : HostStep → World
  | .program text => (Interpreter.evalText text w).2
  | .textIn frame text file => (Interpreter.evalTextIn text file frame w).2
  | .formIn frame form => (Interpreter.machine.interpret frame form w).2
  | .call callee args => (Interpreter.apply callee args w).2
  | .define name v => (Interpreter.defineGlobal name v w).2
  | .extend outer label => (Eval.extend outer label w).2
  | .items v => (Interpreter.machine.iterate v w).2
  | .equal a b => (Interpreter.machine.equal a b w).2
  | .hash v => (Interpreter.machine.hashOf v w).2

/-- The frame that a step may define names in. -/
def scope : HostStep → Option FrameId
  | .program _ => some Heap.global
  | .textIn frame _ _ => some frame
  | .formIn frame _ => some frame
  | .define _ _ => some Heap.global
  | .call _ _ | .extend _ _ | .items _ | .equal _ _ | .hash _ => none

end HostStep

/-- The world is one that some session of some interpreter ends in. -/
inductive World.Reachable : World → Prop
  | core (options : Options) : Reachable (.core options)
  | create (options : Options) (files : Files) (withPrelude : Bool) (commands : Commands) :
      Reachable (Interpreter.create options files withPrelude commands).2
  | step {w : World} (s : HostStep) : Reachable w → Reachable (s.perform w)

/-- Evaluates every form of a text in a frame; the value of the last one. -/
def Machine.evalTextIn (m : Machine) (text file : String) (frame : FrameId) : Eval Value := do
  m.interpretAll frame .nil (← Eval.readText text file)

/-- A text in a frame. -/
theorem Congruence.Machines.evalTextIn {C : Congruence} {t : Bool} {m n : Machine}
    (h : C.Machines m n) (text file : String) (frame : FrameId) :
    C.rel (some frame) t (m.evalTextIn text file frame) (n.evalTextIn text file frame) :=
  C.seq (C.readText text file) fun forms => h.interpretAll frame .nil forms

/-! ### Steps on any machine -/

/-- The step on a machine, whatever it comes to. -/
def HostStep.on (m : Machine) : HostStep → Eval Unit
  | .program text => do
    let _ ← m.evalTextIn text (← Eval.ask (·.options.sourceLabel)) Heap.global
  | .textIn frame text file => do
    let _ ← m.evalTextIn text file frame
  | .formIn frame form => do
    let _ ← m.interpret frame form
  | .call callee args => do
    let _ ← m.call callee args
  | .define name v => Eval.define Heap.global (.intern name) v
  | .extend outer label => do
    let _ ← Eval.extend outer label
  | .items v => do
    let _ ← m.iterate v
  | .equal a b => do
    let _ ← m.equal a b
  | .hash v => do
    let _ ← m.hashOf v

/-- The steps of a host are made on the machine of the interpreter. -/
theorem HostStep.on_machine (s : HostStep) (w : World) :
    (s.on Interpreter.machine w).2 = s.perform w := by
  have hdrop : ∀ {α : Type} (x : Eval α), ((x >>= fun _ => pure ()) w).2 = (x w).2 := by
    intro α x
    rw [Eval.bind_run]
    rcases x w with ⟨answer, w'⟩
    cases answer <;> rfl
  cases s with
  | define name v => rfl
  | program text => exact hdrop (Interpreter.evalText text)
  | _ => exact hdrop _

/-- A step on related machines. -/
theorem Congruence.Machines.hostStep {C : Congruence} {t : Bool} {m n : Machine}
    (h : C.Machines m n) (s : HostStep) : C.rel s.scope t (s.on m) (s.on n) := by
  cases s with
  | program text =>
      exact C.seq (C.ask fun _ _ => rfl) fun label => C.map _ (h.evalTextIn text label Heap.global)
  | textIn frame text file => exact C.map _ (h.evalTextIn text file frame)
  | formIn frame form => exact C.map _ (h.interpret frame form)
  | call callee args => exact C.map _ (h.call callee args)
  | define name v => exact C.define Heap.global (.intern name) v
  | extend outer label => exact C.extend outer label fun _ => C.pure ()
  | items v => exact C.map _ (h.iterate v)
  | equal a b => exact C.map _ (h.equal a b)
  | hash v => exact C.map _ (h.hashOf v)

namespace Discipline

variable (D : Discipline)

/-- A text in a frame. -/
theorem follows_evalTextIn (text file : String) (frame : FrameId) :
    D.Follows (some frame) (Interpreter.evalTextIn text file frame) :=
  (D.congruence.machines Interpreter.fuel).evalTextIn (t := true) text file frame

/-- A program in the global frame. -/
theorem follows_evalText (text : String) :
    D.Follows (some Heap.global) (Interpreter.evalText text) :=
  D.follows_bind (D.follows_of_unchanged fun _ => rfl) fun label _ =>
    D.follows_evalTextIn text label Heap.global

/-- The prelude. -/
theorem follows_loadPrelude : D.Follows (some Heap.global) Interpreter.loadPrelude :=
  D.follows_bind (D.follows_evalTextIn _ _ _) fun _ _ => D.follows_of_unchanged fun _ => rfl

/-- Building an interpreter with files. -/
theorem create (options : Options) (files : Files) (withPrelude : Bool) (commands : Commands) :
    D.rel (some Heap.global) (.withFiles options files commands)
      (Interpreter.create options files withPrelude commands).2 := by
  unfold Interpreter.create
  split
  · exact D.follows_loadPrelude _
  · exact D.refl _

/-- A step of a host follows the discipline, in the scope that it names. -/
theorem perform (w : World) (s : HostStep) : D.rel s.scope w (s.perform w) := by
  have h := D.congruence.machines Interpreter.fuel
  cases s with
  | program text => exact D.follows_evalText text w
  | textIn frame text file => exact D.follows_evalTextIn text file frame w
  | formIn frame form => exact h.interpret (t := true) frame form w
  | call callee args => exact h.call (t := true) callee args w
  | define name v => exact D.define w Heap.global (.intern name) v
  | extend outer label => exact D.extend w outer label _ (D.refl _)
  | items v => exact h.iterate (t := true) v w
  | equal a b => exact h.equal (t := true) a b w
  | hash v => exact h.hashOf (t := true) v w

end Discipline

end Lisp
