import Lisp.Proofs.Scope.Tables

/-!
# Evaluations that keep the tables in agreement

An evaluation **keeps** the tables if it leads from a conforming world to a
conforming one, never loses a record type, and answers with nothing that mentions
an undeclared one.  It is given values, so the statement says up to which number
these may mention record types: the world must have at least so many.

Every way of putting evaluations together is respected, and a value that one
evaluation hands on to the next only raises that number (`Keeps.bind`).
-/

namespace Lisp

/-- The tables of the world agree, and the expansions that it remembers mention
record types that exist. -/
structure World.Conforms (w : World) : Prop where
  heap : w.heap.Conforms
  expansions : reach w.expansions ≤ w.heap.types

namespace Eval

variable {α β : Type} [Reach α] [Reach β] {n k : Nat} {x : Eval α}

/-- From every conforming world with at least `n` record types, the evaluation
leads to a conforming world with no fewer of them, and its answer mentions no
others. -/
def Keeps (n : Nat) (x : Eval α) : Prop :=
  ∀ w, w.Conforms → n ≤ w.heap.types →
    (x w).2.Conforms ∧ w.heap.types ≤ (x w).2.heap.types ∧ reach (x w).1 ≤ (x w).2.heap.types

namespace Keeps

/-! ### Sequences -/

/-- The number of record types may be taken to be larger. -/
theorem mono (hx : Keeps n x) (hn : n ≤ k) : Keeps k x :=
  fun w hw hk => hx w hw (Nat.le_trans hn hk)

/-- An evaluation that stays in its world. -/
theorem of_unchanged (hworld : ∀ w, (x w).2 = w)
    (hanswer : ∀ w : World, w.Conforms → n ≤ w.heap.types → reach (x w).1 ≤ w.heap.types) :
    Keeps n x := by
  intro w hw hn
  rw [hworld w]
  exact ⟨hw, Nat.le_refl _, hanswer w hw hn⟩

theorem pure {a : α} (ha : reach a ≤ n) : Keeps n (Pure.pure a : Eval α) :=
  of_unchanged (fun _ => rfl) fun _ _ hn => Nat.le_trans ha hn

theorem fail {f : Failure} (hf : reach f ≤ n) : Keeps n (Eval.fail (α := α) f) :=
  of_unchanged (fun _ => rfl) fun _ _ hn => Nat.le_trans hf hn

/-- A failure that carries no value. -/
theorem complain {f : Failure} (hf : reach f = 0) : Keeps n (Eval.fail (α := α) f) :=
  fail (Nat.le_trans (Nat.le_of_eq hf) (Nat.zero_le n))

theorem showing {v : Value} {wording : String → Failure} (hf : ∀ text, reach (wording text) = 0) :
    Keeps n (Eval.failShowing (α := α) v wording) :=
  of_unchanged (fun _ => rfl) fun _ _ _ => Nat.le_trans (Nat.le_of_eq (hf _)) (Nat.zero_le _)

/-- What is read off the world. -/
theorem ask {view : World → α}
    (hview : ∀ w : World, w.Conforms → n ≤ w.heap.types → reach (view w) ≤ w.heap.types) :
    Keeps n (Eval.ask view) :=
  of_unchanged (fun _ => rfl) hview

/-- One evaluation after another; the second one is also given the value of the
first. -/
theorem bind {next : α → Eval β} (hx : Keeps n x)
    (hnext : ∀ a, Keeps (max n (reach a)) (next a)) : Keeps n (x >>= next) := by
  intro w hw hn
  obtain ⟨hworld, hgrows, hanswer⟩ := hx w hw hn
  rw [Eval.bind_run]
  rcases hrun : x w with ⟨answer, w'⟩
  rw [hrun] at hworld hgrows hanswer
  cases answer with
  | ok a =>
      have hbound : max n (reach a) ≤ w'.heap.types :=
        Nat.max_le.mpr ⟨Nat.le_trans hn hgrows, hanswer⟩
      obtain ⟨hworld', hgrows', hanswer'⟩ := hnext a w' hworld hbound
      exact ⟨hworld', Nat.le_trans hgrows hgrows', hanswer'⟩
  | failed f => exact ⟨hworld, hgrows, hanswer⟩
  | outOfFuel => exact ⟨hworld, hgrows, hanswer⟩

/-- One evaluation after another, where the first one gives plain data. -/
theorem seq [Plain α] {next : α → Eval β} (hx : Keeps n x) (hnext : ∀ a, Keeps n (next a)) :
    Keeps n (x >>= next) :=
  hx.bind fun a => (hnext a).mono (Nat.le_max_left _ _)

/-- A computation on the value of an evaluation. -/
theorem map {g : α → β} (hx : Keeps n x) (hg : ∀ a, reach (g a) ≤ max n (reach a)) :
    Keeps n (x >>= fun a => Pure.pure (g a)) :=
  hx.bind fun a => pure (hg a)

/-- What goes on with anything read off the world. -/
theorem reading {γ : Type} {view : World → γ} {next : γ → Eval β}
    (hnext : ∀ a, Keeps n (next a)) : Keeps n (Eval.ask view >>= next) :=
  fun w hw hn => hnext (view w) w hw hn

/-! ### Failures on their way out -/

/-- A failure that is reworded keeps the values in it. -/
theorem onFailure {g : World → Failure → Failure} (hx : Keeps n x)
    (hg : ∀ w f, reach (g w f) ≤ reach f) : Keeps n (Eval.onFailure x g) := by
  intro w hw hn
  obtain ⟨hworld, hgrows, hanswer⟩ := hx w hw hn
  unfold Eval.onFailure
  rcases hrun : x w with ⟨answer, w'⟩
  rw [hrun] at hworld hgrows hanswer
  cases answer with
  | ok a => exact ⟨hworld, hgrows, hanswer⟩
  | failed f => exact ⟨hworld, hgrows, Nat.le_trans (hg w' f) hanswer⟩
  | outOfFuel => exact ⟨hworld, hgrows, hanswer⟩

theorem inForm (source : Option Span) (hx : Keeps n x) : Keeps n (Eval.inForm source x) := by
  refine hx.onFailure fun w f => Nat.le_of_eq (reach_failure_congr ?_)
  simp only [Eval.attachCalls, Failure.cause_withCalls, Failure.cause_withSource]

theorem noRecur {complaint : Failure} (hcomplaint : reach complaint = 0) (hx : Keeps n x) :
    Keeps n (Eval.noRecur complaint x) := by
  refine hx.onFailure fun w f => ?_
  split
  · exact Nat.le_trans (Nat.le_of_eq hcomplaint) (Nat.zero_le _)
  · exact Nat.le_refl _

/-- A handler is given the values of the failure that it takes. -/
theorem rescue {takes : Failure → Bool} {handler : Failure → Eval α} (hx : Keeps n x)
    (hhandler : ∀ f, takes f = true → Keeps (max n (reach f)) (handler f)) :
    Keeps n (x.rescue takes handler) := by
  intro w hw hn
  obtain ⟨hworld, hgrows, hanswer⟩ := hx w hw hn
  unfold Eval.rescue
  rcases hrun : x w with ⟨answer, w'⟩
  rw [hrun] at hworld hgrows hanswer
  cases answer with
  | ok a => exact ⟨hworld, hgrows, hanswer⟩
  | outOfFuel => exact ⟨hworld, hgrows, hanswer⟩
  | failed f =>
      dsimp only
      split
      · next htakes =>
          have hbound : max n (reach f) ≤ w'.heap.types :=
            Nat.max_le.mpr ⟨Nat.le_trans hn hgrows, hanswer⟩
          obtain ⟨hworld', hgrows', hanswer'⟩ := hhandler f htakes w' hworld hbound
          exact ⟨hworld', Nat.le_trans hgrows hgrows', hanswer'⟩
      · exact ⟨hworld, hgrows, hanswer⟩

/-! ### Depth and calls -/

theorem nested (hx : Keeps n x) : Keeps n (Eval.nested x) := by
  intro w hw hn
  unfold Eval.nested
  split
  · exact ⟨hw, Nat.le_refl _, Nat.zero_le _⟩
  · obtain ⟨hworld, hgrows, hanswer⟩ :=
      hx { w with depth := w.depth + 1 } ⟨hw.heap, hw.expansions⟩ hn
    exact ⟨⟨hworld.heap, hworld.expansions⟩, hgrows, hanswer⟩

theorem inCall (call : Call) (hx : Keeps n x) : Keeps n (Eval.inCall call x) := by
  intro w hw hn
  have hattached : Keeps n (Eval.onFailure x Eval.attachCalls) :=
    hx.onFailure fun w f => Nat.le_of_eq (reach_failure_congr (Failure.cause_withCalls f w.calls))
  obtain ⟨hworld, hgrows, hanswer⟩ :=
    hattached { w with calls := call :: w.calls } ⟨hw.heap, hw.expansions⟩ hn
  exact ⟨⟨hworld.heap, hworld.expansions⟩, hgrows, hanswer⟩

/-! ### Changes of the world -/

/-- A change of the heap under an answer that the new heap has a place for. -/
theorem editHeapAs (view : Heap → α) (g : Heap → Heap)
    (hg : ∀ h : Heap, h.Conforms → n ≤ h.types → (g h).Conforms ∧ h.types ≤ (g h).types)
    (hview : ∀ h : Heap, n ≤ h.types → reach (view h) ≤ (g h).types) :
    Keeps n (fun w => (.ok (view w.heap), { w with heap := g w.heap })) := by
  intro w hw hn
  obtain ⟨hheap, hgrows⟩ := hg w.heap hw.heap hn
  exact ⟨⟨hheap, Nat.le_trans hw.expansions hgrows⟩, hgrows, hview w.heap hn⟩

/-- A change of the heap. -/
theorem editHeap {g : Heap → Heap}
    (hg : ∀ h : Heap, h.Conforms → n ≤ h.types → (g h).Conforms ∧ h.types ≤ (g h).types) :
    Keeps n (Eval.changeHeap g) :=
  editHeapAs (fun _ => ()) g hg fun _ _ => Nat.zero_le _

/-- A change of the heap that makes no record type. -/
theorem editCells {g : Heap → Heap} (htypes : ∀ h : Heap, (g h).types = h.types)
    (hg : ∀ h : Heap, h.Conforms → n ≤ h.types → (g h).Conforms) : Keeps n (Eval.changeHeap g) :=
  editHeap fun h hh hn => ⟨hg h hh hn, Nat.le_of_eq (htypes h).symm⟩

/-- A change outside the heap that keeps the expansions in scope. -/
theorem change {g : World → World} (hheap : ∀ w, (g w).heap = w.heap)
    (hexpansions : ∀ w : World, w.Conforms → n ≤ w.heap.types →
      reach (g w).expansions ≤ w.heap.types) : Keeps n (Eval.change g) := by
  intro w hw hn
  have hsame := hheap w
  refine ⟨⟨?_, ?_⟩, Nat.le_of_eq (congrArg Heap.types hsame).symm, Nat.zero_le _⟩
  · show (g w).heap.Conforms
    rw [hsame]
    exact hw.heap
  · show reach (g w).expansions ≤ (g w).heap.types
    rw [hsame]
    exact hexpansions w hw hn

theorem define (frame : FrameId) (s : Symbol) {v : Value} (hv : reach v ≤ n) :
    Keeps n (Eval.define frame s v) :=
  editCells (fun _ => rfl) fun _ hh hn => hh.define frame s (Nat.le_trans hv hn)

theorem extend (outer : FrameId) (label : String) : Keeps n (Eval.extend outer label) :=
  editHeapAs (fun h => h.frames.size) (fun h => { h with frames := h.frames.extend outer label })
    (fun _ hh _ => ⟨hh.extend outer label, Nat.le_refl _⟩) fun _ _ => Nat.zero_le _

theorem serial : Keeps n Eval.serial :=
  editHeapAs (fun h => h.serials) (fun h => { h with serials := h.serials + 1 })
    (fun _ hh _ => ⟨hh.serials _, Nat.le_refl _⟩) fun _ _ => Nat.zero_le _

theorem newError {message : String} {data : Value} {kind : Option String}
    {stack : Option (List String)} (hdata : reach data ≤ n) :
    Keeps n (Eval.newError message data kind stack) :=
  editHeapAs (fun h => Value.error h.traces.size message data kind)
    (fun h => { h with traces := h.traces.push stack })
    (fun _ hh _ => ⟨hh.traces _, Nat.le_refl _⟩) fun _ hn => Nat.le_trans hdata hn

theorem raise {v : Value} (hv : reach v ≤ n) : Keeps n (Eval.raise (α := α) v) := by
  refine reading fun calls => ?_
  have hthrown : Keeps n (Eval.fail (α := α) { cause := .thrown v, context := { calls } }) :=
    fail hv
  cases v with
  | error serial message data kind =>
      exact seq (editCells (fun _ => rfl) fun _ hh _ => hh.traces _) fun _ => hthrown
  | _ => exact hthrown

/-! ### What the heap holds -/

theorem interface? (id : InterfaceId) : Keeps n (Eval.interface? id) := by
  refine ask fun w hw _ => ?_
  cases hi : w.heap.interfaces[id]? with
  | none => exact Nat.zero_le _
  | some i =>
      show reach i ≤ w.heap.types
      exact Nat.le_trans (reach_cell_le hi) hw.heap.interfaces

theorem typeName (tag : TypeTag) : Keeps n (Eval.typeName tag) :=
  ask fun _ _ _ => Nat.zero_le _

theorem shown (v : Value) : Keeps n (Eval.shown v) :=
  ask fun _ _ _ => Nat.zero_le _

end Keeps

end Eval

/-- A machine that keeps the tables, whatever it is asked. -/
def Machine.KeepsTables (m : Machine) : Prop :=
  ∀ request, Eval.Keeps (reach request) (m request)

namespace Machine.KeepsTables

open Eval (Keeps)

variable {m : Machine} (h : m.KeepsTables)
include h

theorem eval (frame : FrameId) (form : Value) : Keeps (reach form) (m.eval frame form) :=
  h (.eval frame form)

theorem value (frame : FrameId) (form : Value) : Keeps (reach form) (m.value frame form) :=
  .noRecur rfl (h.eval frame form)

theorem interpret (frame : FrameId) (form : Value) : Keeps (reach form) (m.interpret frame form) :=
  .noRecur rfl (h.eval frame form)

theorem apply (source : Option Span) (callee : Value) (args : List Value) :
    Keeps (reach (callee, args)) (m (.apply source callee args)) :=
  h (.apply source callee args)

theorem call (callee : Value) (args : List Value) :
    Keeps (reach (callee, args)) (m.call callee args) :=
  h.apply none callee args

theorem dispatch (i : CoreInterface) (args : List Value) : Keeps (reach args) (m.dispatch i args) :=
  (h.call (.interface i.id) args).mono (Nat.max_le.mpr ⟨Nat.zero_le _, Nat.le_refl _⟩)

theorem unfold (sequence : Value) (taken : List Value) :
    Keeps (reach (sequence, taken)) (m (.unfold sequence taken)) :=
  h (.unfold sequence taken)

end Machine.KeepsTables

end Lisp
