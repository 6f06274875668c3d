import Lisp.Proofs.Scope.Forms

/-!
# The machine with fuel keeps the tables

A step on a machine that keeps the tables keeps them, and names as the request to
go on with only one that mentions what exists (`Machine.KeepsTables.step`).  The
induction on fuel is then short (`run_keepsTables`).
-/

namespace Lisp

open Eval (Keeps)

/-- What the frames bind is counted in the reach of the frames. -/
theorem Frames.reach_lookup_le (fs : Frames) (id : FrameId) (s : Symbol) :
    reach (fs.lookup id s) ≤ reach fs.table.toList := by
  fun_induction Frames.lookup fs id s with
  | case1 => exact Nat.zero_le _
  | case2 id frame hframe v hv =>
      have hframe' : reach frame ≤ reach fs.table.toList := reach_cell_le hframe
      have hbinding := Lisp.reach_lookup_le frame.bindings s
      rw [Frame.get?] at hv
      rw [hv] at hbinding
      exact Nat.le_trans hbinding hframe'
  | case3 => exact Nat.zero_le _
  | case4 id frame hframe hbinding outer houter hlt ih => exact ih
  | case5 => exact Nat.zero_le _

namespace Eval.Keeps

variable {n : Nat}

theorem implementationFor (id : InterfaceId) (args : List Value) :
    Keeps n (Machine.implementationFor id args) := by
  rw [Machine.implementationFor_eq]
  refine .bind (.ask fun w hw _ => hw.heap.inScope) fun heap => ?_
  split
  · exact .pure (Nat.zero_le _)
  · next i hi =>
      split
      · exact .complain rfl
      · split
        · next imp himp =>
            have hle := i.reach_implementation?_le ((args.take i.arity).map Value.tag)
            have hcell : reach i ≤ reach heap.interfaces.toList := reach_cell_le hi
            have htables := (Heap.reach_heap_le_iff.mp (Nat.le_refl (reach heap))).2.2.1
            rw [himp, reach_some] at hle
            exact .pure (by omega)
        · exact .complain rfl

end Eval.Keeps

namespace Machine.KeepsTables

variable {m : Machine} (h : m.KeepsTables)
include h

theorem runClosure (c : Closure) (receiver : Option Value) (args : List Value) :
    Keeps (reach (c, receiver, args)) (m.runClosure c receiver args) := by
  have hclosure : reach c = max (reach c.params) (reach c.body) := rfl
  simp only [reach_prod, hclosure]
  refine .seq (.extend _ _) fun frame => ?_
  have hrest : Keeps (max (max (reach c.params) (reach c.body)) (max (reach receiver) (reach args)))
      (m.destructureSequence .bind frame c.params args >>= fun _ => m.body frame c.body) := by
    refine .seq ((h.destructureSequence .bind frame _ args).mono ?_) fun _ => ?_
    · rw [reach_prod]
      omega
    · exact (h.body frame _).mono (by omega)
  cases receiver with
  | none => exact hrest
  | some v => exact .seq (.define frame _ (by rw [reach_some]; omega)) fun _ => hrest

/-- A recur out of a closure hands its values on to the call that follows. -/
theorem callClosure (source : Option Span) (id : ClosureId) (receiver : Option Value)
    (args : List Value) :
    Keeps (reach (receiver, args)) (m.callClosure source id receiver args) := by
  rw [Machine.callClosure_eq_rescue]
  refine .bind (.ask fun w hw _ => ?_) fun found => ?_
  · cases hc : w.heap.closures[id]? with
    | none => exact Nat.zero_le _
    | some c =>
        have hcell : reach c ≤ reach w.heap.closures.toList := reach_cell_le hc
        exact Nat.le_trans hcell hw.heap.closures
  · cases found with
    | none => exact .pure (Nat.zero_le _)
    | some c =>
        refine .rescue (.map (.inCall _ ((h.runClosure c receiver args).mono ?_)) fun v => ?_) ?_
        · simp only [reach_prod, reach_some]
          omega
        · exact Nat.le_max_right _ _
        · intro f hf
          obtain ⟨cause, context⟩ := f
          cases cause with
          | recur target args => exact .pure (Nat.le_max_right _ _)
          | _ => cases hf

theorem applyStep (source : Option Span) (callee : Value) (args : List Value) :
    Keeps (reach (callee, args)) (m.applyStep source callee args) := by
  -- A call that ends in a value, and one that goes on with another callee.
  have hdone : ∀ {n : Nat} {x : Eval Value}, Keeps n x →
      Keeps n (x >>= fun v => Pure.pure (Next.done v)) :=
    fun hx => hx.map fun _ => Nat.le_max_right _ _
  have hagain : ∀ {n : Nat} {x : Eval Value} {place : Option Span}, reach args ≤ n → Keeps n x →
      Keeps n (x >>= fun target => Pure.pure (Next.again (.apply place target args))) := by
    intro n x place hargs hx
    refine hx.map fun target => ?_
    show max (reach target) (reach args) ≤ max n (reach target)
    omega
  have hargs : reach args ≤ reach (callee, args) := Nat.le_max_right _ _
  cases callee with
  | closure id =>
      refine (h.callClosure source id none args).mono ?_
      simp only [reach_prod, reach_none]
      omega
  | builtin b => exact hdone (.inCall _ ((h.callBuiltin b args).mono hargs))
  | accessor id way subject => exact hdone (.inCall _ (h.callAccessor way subject args))
  | type tag => exact hdone (h.construct tag args)
  | interface id => exact hagain hargs (.implementationFor id args)
  | bound receiver target =>
      simp only [reach_prod, reach_bound] at hargs ⊢
      cases target with
      | closure id =>
          refine (h.callClosure source id (some receiver) args).mono ?_
          simp only [reach_prod, reach_some]
          omega
      | builtin b =>
          refine hdone (.inCall _ ((h.callBuiltin b _).mono ?_))
          rw [reach_cons]
          omega
      | accessor id way subject =>
          refine hdone (.inCall _ ((h.callAccessor way subject _).mono ?_))
          simp only [reach_prod, reach_cons, reach_accessor]
          omega
      | _ =>
          refine .pure ?_
          show max (reach _) (reach args) ≤ _
          omega
  | _ => exact hagain hargs ((h.toCallable _).mono (Nat.le_max_left _ _))

theorem unfoldStep (sequence : Value) (taken : List Value) :
    Keeps (reach (sequence, taken)) (m.unfoldStep sequence taken) := by
  have hsequence : reach [sequence] ≤ reach (sequence, taken) := by
    simp only [reach_cons, reach_nil, reach_prod]
    omega
  refine .seq ((h.dispatchBool .isEmpty _).mono hsequence) fun empty => ?_
  split
  · refine .pure ?_
    show reach (Value.ofList taken.reverse) ≤ _
    rw [reach_ofList, reach_reverse]
    exact Nat.le_max_right _ _
  · refine .bind ((h.dispatch .first _).mono hsequence) fun item => ?_
    refine .bind ((h.dispatch .rest _).mono (by omega)) fun rest => ?_
    simp only [reach_prod]
    split
    · refine .pure ?_
      show reach (Value.ofList (item :: taken).reverse) ≤ _
      rw [reach_ofList, reach_reverse, reach_cons]
      omega
    · refine .pure ?_
      show max (reach rest) (reach (item :: taken)) ≤ _
      rw [reach_cons]
      omega

theorem evalList (frame : FrameId) (head : Value) (rest : List Value) (source : Option Span) :
    Keeps (reach (head, rest)) (m.evalList frame head rest source) := by
  rw [reach_prod]
  unfold Machine.evalList
  split
  · exact (h.special frame _ rest).mono (Nat.le_max_right _ _)
  · refine .bind ((h.value frame head).mono (Nat.le_max_left _ _)) fun callee => ?_
    refine .reading fun found => ?_
    cases found with
    | some id =>
        refine .bind ((h.expand id rest source).mono (by omega)) fun expansion => ?_
        exact (h.eval frame expansion).mono (Nat.le_max_right _ _)
    | none =>
        refine .bind ((h.operands frame rest).mono (by omega)) fun args => ?_
        exact (h.apply source callee args).mono (by rw [reach_prod]; omega)

theorem evalStep (frame : FrameId) (form : Value) : Keeps (reach form) (m.evalStep frame form) := by
  cases form with
  | sym s =>
      refine .bind (.ask fun w hw _ => ?_) fun found => ?_
      · exact Nat.le_trans (w.heap.frames.reach_lookup_le frame s) hw.heap.frames
      · cases found with
        | some v => exact .pure (Nat.le_max_right _ _)
        | none => exact .complain rfl
  | list items source =>
      cases items with
      | nil => exact .pure (Nat.le_refl _)
      | cons head rest =>
          rw [reach_list]
          exact .nested (.inForm source (h.evalList frame head rest source))
  | _ => exact .pure (Nat.le_refl _)

/-- One step: neither its value nor the request that it names mentions a record
type that does not exist. -/
theorem step (request : Request) : Keeps (reach request) (m.step request) := by
  cases request with
  | eval frame form => exact .map (h.evalStep frame form) fun _ => Nat.le_max_right _ _
  | apply source callee args => exact h.applyStep source callee args
  | unfold sequence taken => exact h.unfoldStep sequence taken

end Machine.KeepsTables

/-- **The machine keeps the tables**, whatever its fuel and whatever it is asked. -/
theorem run_keepsTables (fuel : Nat) : (run fuel).KeepsTables := by
  induction fuel with
  | zero => exact fun _ => .of_unchanged (fun _ => rfl) fun _ _ _ => Nat.zero_le _
  | succ fuel ih =>
      intro request
      have hturn : Keeps (reach request) ((run fuel).step request >>= (run fuel).follow) := by
        refine (ih.step request).bind fun next => ?_
        cases next with
        | done v => exact .pure (Nat.le_max_right _ _)
        | again request => exact (ih request).mono (Nat.le_max_right _ _)
      rw [run_succ]
      unfold Machine.turnWith
      rw [Machine.stepWith_nested]
      exact hturn

end Lisp
