import Lisp.Proofs.Congruence.Forms

/-!
# The machine with fuel under related machines

One **turn** of the machine answers a request by a step and follows the request
that the step names, if it names one.  `Machines.turn` says that a turn on
related machines is again a pair of related machines; the induction on fuel is
then two lines long (`Congruence.machines`), and so is the induction for any
other machine that is made of turns.

A step names calls for a call and turns through a sequence for a turn through a
sequence (`Machine.applyStep_again`, `Machine.unfoldStep_again`), which is why
neither of them needs a frame of its own.
-/

namespace Lisp

namespace Machine

variable (m : Machine)

/-! ### Turns -/

/-- Follows a step to its value. -/
def follow : Next → Eval Value
  | .done v => pure v
  | .again request => m request

/-- The value of a form when nested forms are entered by way of `nest`. -/
def evalStepWith (nest : Eval Value → Eval Value) (frame : FrameId) (form : Value) : Eval Value :=
  match form with
  | .list (head :: rest) source =>
    nest (Eval.inForm source (m.evalList frame head rest source))
  | other => m.evalStep frame other

/-- A step in which nested forms are entered by way of `nest`. -/
def stepWith (nest : Eval Value → Eval Value) (request : Request) : Eval Next :=
  match request with
  | .eval frame form => do return .done (← m.evalStepWith nest frame form)
  | other => m.step other

/-- A step and what follows it, where nested forms are entered by way of `nest`. -/
def turnWith (nest : Eval Value → Eval Value) : Machine := fun request =>
  m.stepWith nest request >>= m.follow

/-- Entering nested forms the usual way gives the usual step. -/
theorem stepWith_nested : m.stepWith Eval.nested = m.step := by
  funext request
  cases request with
  | apply source callee args => rfl
  | unfold sequence taken => rfl
  | eval frame form =>
      cases form with
      | list items source => cases items <;> rfl
      | _ => rfl

end Machine

/-- The machine with fuel in which nested forms are entered by way of `nest`. -/
def runWith (nest : Eval Value → Eval Value) : (fuel : Nat) → Machine
  | 0 => fun _ w => (.outOfFuel, w)
  | fuel + 1 => (runWith nest fuel).turnWith nest

/-- With fuel for one more turn, the machine takes that turn. -/
theorem run_succ (fuel : Nat) : run (fuel + 1) = (run fuel).turnWith Eval.nested := by
  funext request w
  unfold Machine.turnWith
  rw [Machine.stepWith_nested, Eval.bind_run, run]
  dsimp only
  rcases (run fuel).step request w with ⟨answer, w'⟩
  cases answer with
  | ok next => cases next <;> rfl
  | failed f => rfl
  | outOfFuel => rfl

/-- A call takes a step and follows it. -/
theorem run_apply_succ (fuel : Nat) (source : Option Span) (callee : Value) (args : List Value) :
    run (fuel + 1) (.apply source callee args) =
      (run fuel).applyStep source callee args >>= (run fuel).follow := by
  rw [run_succ]
  rfl

/-- A turn through a sequence takes a step and follows it. -/
theorem run_unfold_succ (fuel : Nat) (sequence : Value) (taken : List Value) :
    run (fuel + 1) (.unfold sequence taken) =
      (run fuel).unfoldStep sequence taken >>= (run fuel).follow := by
  rw [run_succ]
  rfl

/-- A form takes a step and is done. -/
theorem run_eval_succ (fuel : Nat) (frame : FrameId) (form : Value) :
    run (fuel + 1) (.eval frame form) = (run fuel).evalStep frame form := by
  have hturn : run (fuel + 1) (.eval frame form) =
      ((run fuel).evalStep frame form >>= fun v => pure (Next.done v)) >>= (run fuel).follow := by
    rw [run_succ]
    unfold Machine.turnWith
    rw [Machine.stepWith_nested]
    rfl
  rw [hturn, bind_assoc]
  exact bind_pure _

/-- A name is looked up, and nothing else happens. -/
theorem run_eval_sym (fuel : Nat) (frame : FrameId) (s : Symbol) (w : World) :
    run (fuel + 1) (.eval frame (.sym s)) w =
      ((w.heap.frames.lookup frame s).elim (.failed (.unboundSymbol s.name)) .ok, w) := by
  rw [run_eval_succ]
  unfold Machine.evalStep
  dsimp only
  rw [Eval.bind_ask]
  cases w.heap.frames.lookup frame s <;> rfl

/-- So it is with a name that is used in place. -/
theorem run_value_sym (fuel : Nat) (frame : FrameId) (s : Symbol) (w : World) :
    (run (fuel + 1)).value frame (.sym s) w =
      ((w.heap.frames.lookup frame s).elim (.failed (.unboundSymbol s.name)) .ok, w) := by
  unfold Machine.value Eval.noRecur Eval.onFailure Machine.eval
  rw [run_eval_sym]
  cases w.heap.frames.lookup frame s <;> rfl

/-- Entering nested forms the usual way gives the usual machine. -/
theorem runWith_nested (fuel : Nat) : runWith Eval.nested fuel = run fuel := by
  induction fuel with
  | zero => rfl
  | succ fuel ih => rw [run_succ, runWith, ih]

/-! ### What a step names -/

namespace Machine

variable (m : Machine)

/-- A recur out of a closure is a call. -/
theorem callClosure_again {source : Option Span} {id : ClosureId} {receiver : Option Value}
    {args : List Value} {request : Request}
    (h : (m.callClosure source id receiver args).Gives (.again request)) : request.IsCall := by
  obtain ⟨w, w', hrun⟩ := h
  unfold callClosure at hrun
  split at hrun
  · cases hrun
  · split at hrun
    · cases hrun
    · split at hrun
      · cases hrun
        exact ⟨_, _, _, rfl⟩
      · cases hrun
    · cases hrun

/-- No evaluation that ends in a value at once names a request. -/
theorem not_again_of_map_done {x : Eval Value} {request : Request}
    (h : (x >>= fun v => pure (Next.done v)).Gives (.again request)) : False := by
  obtain ⟨v, -, hv⟩ := Eval.gives_of_bind h
  cases Eval.eq_of_gives_pure hv

/-- A call goes on with calls only. -/
theorem applyStep_again {source : Option Span} {callee : Value} {args : List Value}
    {request : Request} (h : (m.applyStep source callee args).Gives (.again request)) :
    request.IsCall := by
  have hnamed : ∀ {x : Eval Value} {place : Option Span},
      (x >>= fun target => pure (Next.again (.apply place target args))).Gives (.again request) →
        request.IsCall := by
    intro x place hx
    obtain ⟨target, -, htarget⟩ := Eval.gives_of_bind hx
    cases Eval.eq_of_gives_pure htarget
    exact ⟨_, _, _, rfl⟩
  cases callee with
  | closure id => exact m.callClosure_again h
  | builtin b => exact (not_again_of_map_done h).elim
  | accessor id way subject => exact (not_again_of_map_done h).elim
  | type tag => exact (not_again_of_map_done h).elim
  | interface id => exact hnamed h
  | bound receiver target =>
      cases target with
      | closure id => exact m.callClosure_again h
      | builtin b => exact (not_again_of_map_done h).elim
      | accessor id way subject => exact (not_again_of_map_done h).elim
      | _ =>
          cases Eval.eq_of_gives_pure h
          exact ⟨_, _, _, rfl⟩
  | _ => exact hnamed h

/-- A turn through a sequence goes on with turns through sequences only. -/
theorem unfoldStep_again {sequence : Value} {taken : List Value} {request : Request}
    (h : (m.unfoldStep sequence taken).Gives (.again request)) : request.IsUnfolding := by
  obtain ⟨empty, -, hempty⟩ := Eval.gives_of_bind h
  split at hempty
  · cases Eval.eq_of_gives_pure hempty
  · obtain ⟨item, -, hitem⟩ := Eval.gives_of_bind hempty
    obtain ⟨rest, -, hrest⟩ := Eval.gives_of_bind hitem
    split at hrest
    · cases Eval.eq_of_gives_pure hrest
    · cases Eval.eq_of_gives_pure hrest
      exact ⟨_, _, rfl⟩

/-- What the loop of a closure goes on with: the call that a recur names. -/
def goOn (source : Option Span) : Cause → Eval Next
  | .recur target args => pure (.again (.apply source target args))
  | cause => Eval.fail { cause }

/-- A recur is the only failure that the loop of a closure takes. -/
theorem callClosure_eq_rescue (source : Option Span) (id : ClosureId) (receiver : Option Value)
    (args : List Value) :
    m.callClosure source id receiver args = (do
      match ← Eval.ask (·.heap.closures[id]?) with
      | none => return .done .nil
      | some c =>
        (Eval.inCall ⟨c.displayName, source⟩ (m.runClosure c receiver args) >>=
          fun v => pure (Next.done v)).rescue (fun f => f.cause.isRecur) fun f =>
            goOn source f.cause) := by
  funext w
  rw [Eval.bind_run]
  unfold callClosure
  simp only [Eval.ask]
  cases w.heap.closures[id]? with
  | none => rfl
  | some c =>
      dsimp only
      unfold Eval.rescue
      rw [Eval.bind_run]
      rcases Eval.inCall ⟨c.displayName, source⟩ (m.runClosure c receiver args) w with ⟨answer, w'⟩
      cases answer with
      | ok v => rfl
      | outOfFuel => rfl
      | failed f =>
          obtain ⟨cause, context⟩ := f
          cases cause <;> rfl

/-- The choice of an implementation reads the heap only. -/
theorem implementationFor_eq (id : InterfaceId) (args : List Value) :
    implementationFor id args = (do
      let heap ← Eval.ask (·.heap)
      match heap.interfaces[id]? with
      | none => return .nil
      | some i =>
        if args.length < i.arity then
          Eval.fail (.dispatchArguments i.name.name i.arity i.signature args.length)
        else
          match i.implementation? ((args.take i.arity).map Value.tag) with
          | some imp => return imp
          | none =>
            Eval.fail (.notImplemented
              (heap.describeKey i.name ((args.take i.arity).map Value.tag))
              (" ".intercalate ((args.take i.arity).map (·.print heap))) i.name.name
              (" ".intercalate (((args.take i.arity).map Value.tag).map heap.typeName))
              ((heap.implementedKeys i).map (heap.describeKey i.name)))) := by
  funext w
  rw [Eval.bind_run]
  unfold implementationFor
  simp only [Eval.ask]
  cases w.heap.interfaces[id]? with
  | none => rfl
  | some i =>
      dsimp only
      split
      · rfl
      · cases i.implementation? ((args.take i.arity).map Value.tag) <;> rfl

end Machine

namespace Congruence

variable {C : Congruence} {e : Option FrameId} {t : Bool}

/-- The choice of an implementation. -/
theorem implementationFor (id : InterfaceId) (args : List Value) :
    C.rel e t (Machine.implementationFor id args) (Machine.implementationFor id args) := by
  rw [Machine.implementationFor_eq]
  refine C.seq (C.ask fun _ _ => rfl) fun heap => ?_
  split
  · exact C.pure _
  · split
    · exact C.fail ⟨rfl, rfl⟩
    · split
      · exact C.pure _
      · exact C.fail ⟨rfl, rfl⟩

namespace Machines

variable {m n : Machine} (h : C.Machines m n)
include h

/-- The body of a closure, in a frame of its own. -/
theorem runClosure (c : Closure) (receiver : Option Value) (args : List Value) :
    C.rel e true (m.runClosure c receiver args) (n.runClosure c receiver args) := by
  refine C.extend _ _ fun frame => ?_
  have hrest : C.rel (some frame) true
      (m.destructureSequence .bind frame c.params args >>= fun _ => m.body frame c.body)
      (n.destructureSequence .bind frame c.params args >>= fun _ => n.body frame c.body) :=
    C.seq (h.destructureSequence .bind frame _ args) fun _ => h.body frame _
  cases receiver with
  | none => exact hrest
  | some v => exact C.seq (C.define frame _ v) fun _ => hrest

/-- The application of a closure, which no recur leaves. -/
theorem callClosure (source : Option Span) (id : ClosureId) (receiver : Option Value)
    (args : List Value) :
    C.rel e t (m.callClosure source id receiver args) (n.callClosure source id receiver args) := by
  rw [Machine.callClosure_eq_rescue, Machine.callClosure_eq_rescue]
  refine C.seq (C.ask fun _ _ => rfl) fun found => ?_
  cases found with
  | none => exact C.pure _
  | some c =>
      refine C.recover (s := true) Cause.isRecur (h := Machine.goOn source)
        (l := Machine.goOn source) (C.map _ (C.inCall _ (h.runClosure c receiver args))) ?_ ?_
      · intro cause hrecur
        cases cause with
        | recur target args => exact ⟨rfl, C.pure _⟩
        | _ => cases hrecur
      · exact fun _ _ cause hrecur => hrecur

/-- One step of a call. -/
theorem applyStep (source : Option Span) (callee : Value) (args : List Value) :
    C.rel e t (m.applyStep source callee args) (n.applyStep source callee args) := by
  cases callee with
  | closure id => exact h.callClosure source id none args
  | builtin b => exact C.map _ (C.inCall _ (h.callBuiltin b args))
  | accessor id way subject => exact C.map _ (C.inCall _ (h.callAccessor way subject args))
  | type tag => exact C.map _ (h.construct tag args)
  | interface id => exact C.map _ (C.implementationFor id args)
  | bound receiver target =>
      cases target with
      | closure id => exact h.callClosure source id (some receiver) args
      | builtin b => exact C.map _ (C.inCall _ (h.callBuiltin b _))
      | accessor id way subject => exact C.map _ (C.inCall _ (h.callAccessor way subject _))
      | _ => exact C.pure _
  | _ => exact C.map _ (h.toCallable _)

/-- One turn through a sequence that a program defines. -/
theorem unfoldStep (sequence : Value) (taken : List Value) :
    C.rel e t (m.unfoldStep sequence taken) (n.unfoldStep sequence taken) := by
  refine C.seq (h.dispatchBool .isEmpty _) fun empty => ?_
  split
  · exact C.pure _
  · refine C.seq (h.dispatch .first _) fun item => C.seq (h.dispatch .rest _) fun rest => ?_
    split <;> exact C.pure _

/-- A list form. -/
theorem evalList (frame : FrameId) (head : Value) (rest : List Value) (source : Option Span) :
    C.rel (some frame) true (m.evalList frame head rest source)
      (n.evalList frame head rest source) := by
  unfold Machine.evalList
  split
  · exact h.special frame _ rest
  · refine C.seq (h.value frame head) fun callee => C.seq (C.ask fun _ _ => rfl) fun found => ?_
    cases found with
    | some id =>
        exact C.seq (h.expand id rest source) fun expansion => h.eval frame expansion
    | none =>
        exact C.seq (h.operands frame rest) fun args => h.apply source callee args

/-- A form. -/
theorem evalStep (frame : FrameId) (form : Value) :
    C.rel (some frame) true (m.evalStep frame form) (n.evalStepWith C.nest frame form) := by
  cases form with
  | sym s =>
      refine C.seq (C.ask fun _ _ => rfl) fun found => ?_
      cases found with
      | some v => exact C.pure _
      | none => exact C.fail ⟨rfl, rfl⟩
  | list items source =>
      cases items with
      | nil => exact C.pure _
      | cons head rest => exact C.nested (C.inForm source (h.evalList frame head rest source))
  | _ => exact C.pure _

/-- A turn that evaluates a form. -/
theorem evalTurn (frame : FrameId) (form : Value) :
    C.rel (some frame) true (m.turnWith Eval.nested (.eval frame form))
      (n.turnWith C.nest (.eval frame form)) := by
  unfold Machine.turnWith
  rw [m.stepWith_nested]
  refine C.bind (C.map _ (h.evalStep frame form)) fun next hnext => ?_
  obtain ⟨v, -, hv⟩ := Eval.gives_of_bind hnext
  cases Eval.eq_of_gives_pure hv
  exact C.pure v

/-- A turn that makes a call. -/
theorem applyTurn (source : Option Span) (callee : Value) (args : List Value) :
    C.rel e t (m.turnWith Eval.nested (.apply source callee args))
      (n.turnWith C.nest (.apply source callee args)) := by
  unfold Machine.turnWith
  rw [m.stepWith_nested]
  refine C.bind (h.applyStep source callee args) fun next hnext => ?_
  cases next with
  | done v => exact C.pure v
  | again request =>
      obtain ⟨source, callee, args, rfl⟩ := m.applyStep_again hnext
      exact h.apply source callee args

/-- A turn that goes through a sequence. -/
theorem unfoldTurn (sequence : Value) (taken : List Value) :
    C.rel e t (m.turnWith Eval.nested (.unfold sequence taken))
      (n.turnWith C.nest (.unfold sequence taken)) := by
  unfold Machine.turnWith
  rw [m.stepWith_nested]
  refine C.bind (h.unfoldStep sequence taken) fun next hnext => ?_
  cases next with
  | done v => exact C.pure v
  | again request =>
      obtain ⟨sequence, taken, rfl⟩ := m.unfoldStep_again hnext
      exact h.unfold sequence taken

omit h in
/-- The machine with fuel for one more turn. -/
theorem isRun_turn (hm : ∃ fuel, m = run fuel) : ∃ fuel, m.turnWith Eval.nested = run fuel := by
  obtain ⟨fuel, rfl⟩ := hm
  exact ⟨fuel + 1, (run_succ fuel).symm⟩

/-- A turn on related machines is a pair of related machines, if its answers are those
that the congruence asks for. -/
theorem turn
    (hanswers : ∀ source id operands,
      C.answers id operands (n.turnWith C.nest (.apply source (.closure id) operands)) := by
        intros; trivial) :
    C.Machines (m.turnWith Eval.nested) (n.turnWith C.nest) where
  isRun := isRun_turn h.isRun
  eval := h.evalTurn
  apply := h.applyTurn
  unfold := h.unfoldTurn
  answers := hanswers

end Machines

/-- Machines that are out of fuel. -/
theorem outOfFuel
    (hanswers : ∀ id operands, C.answers id operands (fun w => (.outOfFuel, w)) := by
      intros; trivial) :
    C.Machines (fun _ w => (.outOfFuel, w)) (fun _ w => (.outOfFuel, w)) where
  isRun := ⟨0, rfl⟩
  eval _ _ := C.idle
  apply _ _ _ := C.idle
  unfold _ _ := C.idle
  answers _ := hanswers

/-- The machine with fuel answers every request within the congruence. -/
theorem machines (C : Congruence) (fuel : Nat)
    (hanswers : ∀ id operands y, C.answers id operands y := by intros; trivial) :
    C.Machines (run fuel) (runWith C.nest fuel) := by
  induction fuel with
  | zero => exact C.outOfFuel fun _ _ => hanswers _ _ _
  | succ fuel ih =>
      rw [run_succ]
      exact ih.turn fun _ _ _ => hanswers _ _ _

end Congruence

end Lisp
