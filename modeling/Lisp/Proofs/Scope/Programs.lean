import Lisp.Proofs.Scope.Run
import Lisp.Proofs.Session

/-!
# The worlds that programs reach

A host hands an interpreter programs, and values that it got from it: these mention
only record types that the interpreter has declared.  A world that such a session
reaches, or that a request leaves when its fuel runs out on the way, is
**programmed**.  Every programmed world conforms (`World.Programmed.conforms`), since
an interpreter starts out that way and no step departs from it.
-/

namespace Lisp

open Eval (Keeps)

/-! ### The first world -/

namespace Heap

/-- What a new interpreter has as interfaces does not depend on its definitions. -/
theorem initial_interfaces (bindings : List (Symbol × Value)) :
    (initial bindings).interfaces = (initial []).interfaces := rfl

/-- The core implementations are for one builtin type each, so the table of an
interface that has none of them stays empty. -/
theorem foldl_register_of_ne (impls : List (CoreInterface × TypeTag × CoreOp)) (h : Heap)
    {id : InterfaceId} (hid : ∀ e ∈ impls, e.1.id ≠ id) :
    (impls.foldl (fun h (i, tag, op) => h.register i.id [tag] (.builtin (.core op)))
      h).interfaces[id]? = h.interfaces[id]? := by
  induction impls generalizing h with
  | nil => rfl
  | cons e rest ih =>
      obtain ⟨i, tag, op⟩ := e
      have hi : i.id ≠ id := hid _ List.mem_cons_self
      rw [List.foldl_cons, ih _ fun e he => hid e (List.mem_cons_of_mem _ he),
        Conforms.register_interfaces, if_neg hi]

/-- Registering implementations changes no hook. -/
theorem foldl_register_hook (impls : List (CoreInterface × TypeTag × CoreOp)) (h : Heap)
    (id : InterfaceId) :
    (impls.foldl (fun h (i, tag, op) => h.register i.id [tag] (.builtin (.core op)))
      h).interfaces[id]?.map (·.hook) = h.interfaces[id]?.map (·.hook) := by
  induction impls generalizing h with
  | nil => rfl
  | cons e rest ih =>
      obtain ⟨i, tag, op⟩ := e
      rw [List.foldl_cons, ih, Conforms.register_interfaces]
      split
      · cases h.interfaces[id]? <;> rfl
      · rfl

/-- Only two of the core interfaces have a hook. -/
theorem coreInterfaces_hook {id : InterfaceId} {hook : Hook}
    (h : coreInterfaces[id]?.map (·.hook) = some (some hook)) :
    hook = .recordHash ∧ id = CoreInterface.hash.id ∨
      hook = .recordEquality ∧ id = CoreInterface.equals.id := by
  rcases id with _ | _ | _ | _ | _ | _ | _ | _ | _ | id
  all_goals cases h
  · exact .inl ⟨rfl, rfl⟩
  · exact .inr ⟨rfl, rfl⟩

theorem initial_interface? (id : InterfaceId) (hid : ∀ e ∈ coreImplementations, e.1.id ≠ id)
    (bindings : List (Symbol × Value)) :
    (initial bindings).interfaces[id]? = coreInterfaces[id]? := by
  unfold initial
  dsimp only
  rw [foldl_register_of_ne coreImplementations _ hid]
  exact List.getElem?_toArray

/-- Only the equality and the hash record overrides. -/
theorem initial_hooks {bindings : List (Symbol × Value)} {id : InterfaceId} {i : Interface}
    (hi : (initial bindings).interfaces[id]? = some i) :
    (i.hook = some .recordHash → id = CoreInterface.hash.id) ∧
      (i.hook = some .recordEquality → id = CoreInterface.equals.id) := by
  have hhook : (initial bindings).interfaces[id]?.map (·.hook) =
      coreInterfaces[id]?.map (·.hook) := by
    unfold initial
    dsimp only
    rw [foldl_register_hook, List.getElem?_toArray]
  rw [hi, Option.map_some] at hhook
  constructor
  · intro hrecord
    rw [hrecord] at hhook
    obtain ⟨-, hid⟩ | ⟨heq, -⟩ := coreInterfaces_hook hhook.symm
    · exact hid
    · cases heq
  · intro hrecord
    rw [hrecord] at hhook
    obtain ⟨heq, -⟩ | ⟨-, hid⟩ := coreInterfaces_hook hhook.symm
    · cases heq
    · exact hid

/-- A heap in which nothing mentions a record type, and none is declared, conforms. -/
theorem initial_conforms {bindings : List (Symbol × Value)} (hbindings : reach bindings = 0) :
    (initial bindings).Conforms := by
  have hinterfaces : reach (initial bindings).interfaces.toList = 0 := by
    rw [initial_interfaces]
    decide +kernel
  have hkeys : ∀ i ∈ (initial bindings).interfaces.toList, ∀ e ∈ i.impls,
      e.1.length = i.arity := by
    rw [initial_interfaces]
    decide +kernel
  have hhash := initial_interface? CoreInterface.hash.id (by decide) bindings
  have hequals := initial_interface? CoreInterface.equals.id (by decide) bindings
  refine ⟨?_, ?_, ⟨_, hhash, rfl, rfl, rfl⟩, ⟨_, hequals, rfl, rfl, rfl⟩, initial_hooks, ?_, ?_⟩
  · rw [reach_heap_le_iff]
    refine ⟨?_, Nat.zero_le _, Nat.le_of_eq hinterfaces, Nat.zero_le _⟩
    show max (reach bindings) 0 ≤ 0
    omega
  · intro id i hi
    exact hkeys i (Array.mem_toList_iff.mpr (Array.mem_of_getElem? hi))
  · intro ty
    rw [coreImplementation?, hequals]
    rfl
  · intro ty
    rw [coreImplementation?, hhash]
    rfl

end Heap

namespace World

theorem core_conforms (options : Options) : (core options).Conforms :=
  ⟨Heap.initial_conforms (by decide +kernel), Nat.zero_le _⟩

theorem withFiles_conforms (options : Options) (files : Files) (commands : Commands) :
    (withFiles options files commands).Conforms :=
  ⟨Heap.initial_conforms (by decide +kernel), Nat.zero_le _⟩

end World

/-! ### Steps -/

namespace Interpreter

variable {n : Nat}

theorem evalTextIn_keeps (text file : String) (frame : FrameId) :
    Keeps n (evalTextIn text file frame) := by
  refine .bind (.readText text file) fun forms => ?_
  refine ((run_keepsTables fuel).interpretAll frame .nil forms).mono ?_
  simp only [reach_prod, reach_value_nil]
  omega

theorem evalText_keeps (text : String) : Keeps n (evalText text) :=
  .reading fun label => evalTextIn_keeps text label Heap.global

theorem create_conforms (options : Options) (files : Files) (withPrelude : Bool)
    (commands : Commands) : (create options files withPrelude commands).2.Conforms := by
  have hstart := World.withFiles_conforms options files commands
  unfold create
  split
  · have hprelude : Keeps 0 loadPrelude :=
      .bind (evalTextIn_keeps _ _ _) fun _ => .pure (Nat.zero_le _)
    exact (hprelude _ hstart (Nat.zero_le _)).1
  · exact hstart

end Interpreter

instance : Reach HostStep where
  reach
    | .program _ | .textIn .. | .extend .. => 0
    | .formIn _ form => reach form
    | .call callee args => reach (callee, args)
    | .define _ v | .items v | .hash v => reach v
    | .equal a b => reach (a, b)

/-- A step of a host keeps the world conforming and loses no record type. -/
theorem HostStep.perform_conforms {w : World} (hw : w.Conforms) {s : HostStep}
    (hs : reach s ≤ w.heap.types) :
    (s.perform w).Conforms ∧ w.heap.types ≤ (s.perform w).heap.types := by
  have h := run_keepsTables Interpreter.fuel
  have hkeeps : ∀ {α : Type} [Reach α] {x : Eval α}, Keeps (reach s) x →
      (x w).2.Conforms ∧ w.heap.types ≤ (x w).2.heap.types := by
    intro α _ x hx
    obtain ⟨hworld, hgrows, -⟩ := hx w hw hs
    exact ⟨hworld, hgrows⟩
  cases s with
  | program text => exact hkeeps (Interpreter.evalText_keeps text)
  | textIn frame text file => exact hkeeps (Interpreter.evalTextIn_keeps text file frame)
  | formIn frame form => exact hkeeps (h.interpret frame form)
  | call callee args => exact hkeeps (h.call callee args)
  | define name v => exact hkeeps (.define Heap.global (.intern name) (Nat.le_refl _))
  | extend outer label => exact hkeeps (.extend outer label)
  | items v => exact hkeeps (h.iterate v)
  | equal a b => exact hkeeps (h.equal a b)
  | hash v => exact hkeeps (h.hashOf v)

/-! ### Sessions -/

/-- The worlds that an interpreter can come to from a given one: by the steps of a
host, by requests with any fuel, and also in the middle of a run, inside some calls
and at some depth. -/
inductive World.Leads (start : World) : World → Prop
  | refl : Leads start start
  | step {w : World} (s : HostStep) : Leads start w → reach s ≤ w.heap.types →
      Leads start (s.perform w)
  | request {w : World} (fuel : Nat) (r : Request) : Leads start w → reach r ≤ w.heap.types →
      Leads start (run fuel r w).2
  | inside {w : World} (calls : List Call) (depth : Nat) : Leads start w →
      Leads start { w with calls, depth }

/-- A session stays among conforming worlds and loses no record type. -/
theorem World.Leads.conforms {start w : World} (h : start.Leads w) (hstart : start.Conforms) :
    w.Conforms ∧ start.heap.types ≤ w.heap.types := by
  induction h with
  | refl => exact ⟨hstart, Nat.le_refl _⟩
  | step s _ hs ih =>
      obtain ⟨hworld, hgrows⟩ := HostStep.perform_conforms ih.1 hs
      exact ⟨hworld, Nat.le_trans ih.2 hgrows⟩
  | request fuel r _ hr ih =>
      obtain ⟨hworld, hgrows, -⟩ := run_keepsTables fuel r _ ih.1 hr
      exact ⟨hworld, Nat.le_trans ih.2 hgrows⟩
  | inside calls depth _ ih => exact ⟨⟨ih.1.heap, ih.1.expansions⟩, ih.2⟩

/-- A world that a new interpreter can come to. -/
inductive World.Programmed (w : World) : Prop
  | core (options : Options) (h : (World.core options).Leads w)
  | create (options : Options) (files : Files) (withPrelude : Bool) (commands : Commands)
      (h : (Interpreter.create options files withPrelude commands).2.Leads w)

/-- Every programmed world conforms. -/
theorem World.Programmed.conforms {w : World} (hw : w.Programmed) : w.Conforms := by
  cases hw with
  | core options h => exact (h.conforms (core_conforms options)).1
  | create options files withPrelude commands h =>
      exact (h.conforms (Interpreter.create_conforms options files withPrelude commands)).1

end Lisp
