import Lisp.Proofs.Alarm
import Lisp.Proofs.Equality.Proper
import Lisp.Proofs.Expansions
import Lisp.Proofs.Fuel

/-!
# What the memory holds

Expansions are remembered in the course of evaluations that nest: a macro may be called
while it is being expanded, on the same operands even, and any of these calls may fail.
Still the memory is sound in every world that a session passes through
(`Session.memory_sound`): for one macro and structurally equal operands it holds one
expansion at most, and each expansion in it was returned in the session by that macro,
for operands that are structurally equal to those it is remembered under.

A **session** is a row of stages.  In each of them a host makes a step, on a machine
that may be stopped at any request, so that a world in the middle of a run is the end of
a stage as well (`Stage.result`).  That an application returned some value *in* a stage
is said with an alarm, which goes off when it does (`Stage.Returns`).

The invariant spans whole evaluations.  It is stated of runs under alarm, and says of
each new expansion that no alarm was due for it (`Eval.Remembers`).
-/

namespace Lisp

/-- The two expansions are remembered for one macro and structurally equal operands. -/
def Expansion.SameCall (e f : Expansion) : Prop :=
  e.closure = f.closure ∧ Value.sameItems e.operands f.operands = true

/-- That is mutual, for operands that can be made. -/
theorem Expansion.SameCall.symm {e f : Expansion} (h : e.SameCall f)
    (hproper : ∀ v ∈ e.operands ++ f.operands, v.Proper) : f.SameCall e := by
  obtain ⟨hclosure, hoperands⟩ := h
  have hitems := Value.same_lawful.1.forall₂_symm
    (fun v hv => hproper v (List.mem_append_left _ hv))
    (fun v hv => hproper v (List.mem_append_right _ hv)) (Value.sameItems_iff.mp hoperands)
  exact ⟨hclosure.symm, Value.sameItems_iff.mpr hitems⟩

/-- Where no two expansions are remembered for one call, the two are one. -/
theorem Expansion.SameCall.eq {e f : Expansion} {known : List Expansion} (h : e.SameCall f)
    (hapart : known.Pairwise fun e f => ¬ e.SameCall f) (he : e ∈ known) (hf : f ∈ known)
    (hproper : ∀ v ∈ e.operands ++ f.operands, v.Proper) : e = f := by
  induction hapart with
  | nil => cases he
  | cons hfirst _ ih =>
      rcases List.mem_cons.mp he with rfl | hrest <;> rcases List.mem_cons.mp hf with rfl | hrest'
      · rfl
      · exact absurd h (hfirst f hrest')
      · exact absurd (h.symm hproper) (hfirst e hrest)
      · exact ih hrest hrest'

/-! ### Stages of a session -/

/-- Stops where it is told to. -/
def Eval.upTo (stop : World → Bool) (x : Eval α) : Eval α := fun w =>
  if stop w then (.outOfFuel, w) else x w

/-- The machine with fuel that stops at the requests that it is told to stop at. -/
def stoppedRun (stop : Request → World → Bool) : (fuel : Nat) → Machine
  | 0 => fun _ w => (.outOfFuel, w)
  | fuel + 1 => fun request =>
    ((stoppedRun stop fuel).turnWith Eval.nested request).upTo (stop request)

/-- A step that a host makes from a world, on a machine with fuel that may be stopped. -/
structure Stage where
  world : World
  step : HostStep
  fuel : Nat
  stop : Request → World → Bool

/-- What the step comes to, and the world that it leaves. -/
def Stage.result (s : Stage) : Answer Unit × World :=
  s.step.on (stoppedRun s.stop s.fuel) s.world

/-- The world is one that a session comes to by these stages, the last one first. -/
inductive Session (start : World) : List Stage → World → Prop
  | start : Session start [] start
  | stage {stages : List Stage} (s : Stage) (h : Session start stages s.world) :
      Session start (s :: stages) s.result.2

/-- A machine that is told to stop nowhere is the machine with fuel. -/
theorem stoppedRun_nowhere (fuel : Nat) : stoppedRun (fun _ _ => false) fuel = run fuel := by
  induction fuel with
  | zero => rfl
  | succ fuel ih =>
      rw [run_succ, stoppedRun, ih]
      rfl

/-- The step of an interpreter from a world, which nothing stops. -/
def HostStep.stage (s : HostStep) (w : World) : Stage :=
  ⟨w, s, Interpreter.fuel, fun _ _ => false⟩

/-- The step is made on the machine of the interpreter. -/
theorem HostStep.result_stage (s : HostStep) (w : World) :
    (s.stage w).result = s.on Interpreter.machine w :=
  congrArg (fun m => s.on m w) (stoppedRun_nowhere Interpreter.fuel)

/-- Every world that an interpreter can be in is one that some session comes to, from a
world in which nothing is remembered. -/
theorem World.Reachable.session {w : World} (h : w.Reachable) :
    ∃ start stages, start.expansions = [] ∧ Session start stages w := by
  induction h with
  | core options => exact ⟨.core options, [], rfl, .start⟩
  | create options files withPrelude commands =>
      cases withPrelude with
      | false => exact ⟨.withFiles options files commands, [], rfl, .start⟩
      | true =>
          let prelude := HostStep.textIn Heap.global Prelude.text Prelude.label
          have hprelude : Interpreter.loadPrelude = prelude.on Interpreter.machine := rfl
          have hloaded : Session (.withFiles options files commands) [prelude.stage _]
              (prelude.stage (.withFiles options files commands)).result.2 := .stage _ .start
          rw [HostStep.result_stage, ← hprelude] at hloaded
          rw [Interpreter.create, if_pos rfl]
          exact ⟨.withFiles options files commands, _, rfl, hloaded⟩
  | @step w s _ ih =>
      obtain ⟨start, stages, hfresh, hsession⟩ := ih
      have hstep : Session start (s.stage w :: stages) (s.stage w).result.2 := .stage _ hsession
      rw [HostStep.result_stage, HostStep.on_machine] at hstep
      exact ⟨start, _, hfresh, hstep⟩

/-! ### What returns in a stage -/

open Classical in
/-- Goes on with an alarm instead of a value that is sought. -/
noncomputable def Eval.watched (x : Eval Value) (sought : Value → Prop) (alarm : Eval Value) :
    Eval Value := do
  let v ← x
  if sought v then alarm else return v

/-- What is sought of the value of a request: those of an application of a closure are. -/
def Request.returning (sought : ClosureId → List Value → Value → Prop) : Request → Value → Prop
  | .apply _ (.closure id) operands, v => sought id operands v
  | _, _ => False

/-- The machine with fuel that may be stopped, with an alarm that goes off whenever the
application of a closure returns a value that is sought. -/
noncomputable def watchedRun (stop : Request → World → Bool)
    (sought : ClosureId → List Value → Value → Prop) (alarm : Eval Value) : (fuel : Nat) → Machine
  | 0 => fun _ w => (.outOfFuel, w)
  | fuel + 1 => fun request =>
    (((watchedRun stop sought alarm fuel).turnWith Eval.nested request).watched
      (request.returning sought) alarm).upTo (stop request)

/-- In the stage, some application of a closure returns a value that is sought: it makes
a difference what an alarm for it does. -/
def Stage.Returns (s : Stage) (sought : ClosureId → List Value → Value → Prop) : Prop :=
  ∃ alarm, s.step.on (watchedRun s.stop sought alarm s.fuel) s.world ≠ s.result

/-- If nothing is sought, no alarm goes off. -/
theorem watchedRun_nothing (stop : Request → World → Bool) (alarm : Eval Value) (fuel : Nat) :
    watchedRun stop (fun _ _ _ => False) alarm fuel = stoppedRun stop fuel := by
  have hnothing : ∀ request v, ¬ Request.returning (fun _ _ _ => False) request v := by
    intro request v
    unfold Request.returning
    split <;> exact id
  induction fuel with
  | zero => rfl
  | succ fuel ih =>
      funext request
      rw [watchedRun, stoppedRun, ih]
      unfold Eval.watched
      simp only [hnothing, if_false]
      rw [bind_pure]

namespace Eval.Extends

variable {x y : Eval Value}

/-- What is stopped may be stopped earlier. -/
theorem upTo {stop : World → Bool} (h : y.Extends x) : (y.upTo stop).Extends x := by
  intro w
  unfold Eval.upTo
  split
  · exact .inl rfl
  · exact h w

/-- The alarm halts the run. -/
theorem watched {watch : Value → Prop} {mark : String} (h : y.Extends x) :
    (y.watched watch (Eval.halt mark)).Extends x := by
  rw [← bind_pure x]
  refine h.bind fun v _ => ?_
  split
  · exact fun _ => .inl rfl
  · exact .refl _

end Eval.Extends

/-! ### What an evaluation does to the memory -/

/-- From the first world to the second one, the memory is kept in order, and each new
expansion in it is for operands of which its result was not sought. -/
structure World.Remembers (sought : ClosureId → List Value → Value → Prop) (w w' : World) :
    Prop where
  cache : w'.options.expansionCache = w.options.expansionCache
  apart : w.expansions.Pairwise (fun e f => ¬ e.SameCall f) →
    w'.expansions.Pairwise fun e f => ¬ e.SameCall f
  off : w.options.expansionCache = false → w'.expansions = w.expansions
  origin : ∀ e ∈ w'.expansions, e ∈ w.expansions ∨
    ∃ id operands, e.IsFor id operands ∧ ¬ sought id operands e.result

namespace World.Remembers

variable {sought : ClosureId → List Value → Value → Prop} {u v w : World}

/-- What leaves the memory and the options alone. -/
theorem of_eq (hexpansions : v.expansions = u.expansions) (hoptions : v.options = u.options) :
    u.Remembers sought v where
  cache := by rw [hoptions]
  apart h := by rwa [hexpansions]
  off _ := hexpansions
  origin e he := .inl (hexpansions ▸ he)

theorem refl (w : World) : w.Remembers sought w :=
  .of_eq rfl rfl

theorem trans (huv : u.Remembers sought v) (hvw : v.Remembers sought w) :
    u.Remembers sought w where
  cache := hvw.cache.trans huv.cache
  apart h := hvw.apart (huv.apart h)
  off h := (hvw.off (huv.cache.trans h)).trans (huv.off h)
  origin e he := by
    rcases hvw.origin e he with hold | hnew
    · exact huv.origin e hold
    · exact .inr hnew

end World.Remembers

/-- No two expansions are remembered for one macro and structurally equal operands. -/
theorem Machine.pairwise_remember {id : ClosureId} {operands : List Value} {result : Value}
    {known : List Expansion} (h : known.Pairwise fun e f => ¬ e.SameCall f) :
    (remember id operands result known).Pairwise fun e f => ¬ e.SameCall f := by
  rcases remember_cases id operands result known with
    ⟨before, e, after, rfl, -, -, hnew⟩ | ⟨hnone, hnew⟩
  · -- The result that was replaced has no part in this.
    rw [hnew]
    rw [List.pairwise_append, List.pairwise_cons] at h ⊢
    obtain ⟨hbefore, ⟨hafter, hrest⟩, hacross⟩ := h
    refine ⟨hbefore, ⟨hafter, hrest⟩, fun f hf g hg => ?_⟩
    rcases List.mem_cons.mp hg with rfl | hg
    · exact hacross f hf e List.mem_cons_self
    · exact hacross f hf g (List.mem_cons_of_mem _ hg)
  · rw [hnew]
    refine List.pairwise_append.mpr ⟨h, List.pairwise_singleton _ _, fun e he f hf => ?_⟩
    obtain rfl := List.mem_singleton.mp hf
    exact hnone e he

/-- The memory takes a value that was not sought. -/
theorem World.Remembers.remember {sought : ClosureId → List Value → Value → Prop} {w w' : World}
    (h : w.Remembers sought w') (hon : w.options.expansionCache = true) {id : ClosureId}
    {operands : List Value} {v : Value} (hv : ¬ sought id operands v) :
    w.Remembers sought
      { w' with expansions := Machine.remember id operands v w'.expansions } where
  cache := h.cache
  apart hw := Machine.pairwise_remember (h.apart hw)
  off hoff := absurd (hon.symm.trans hoff) (by decide)
  origin e he := by
    rcases Machine.mem_remember he with hold | ⟨rfl, hfor⟩
    · exact h.origin e hold
    · exact .inr ⟨id, operands, hfor, hv⟩

/-- Unless the mark says that the evaluation was halted, it does to the memory what it
may. -/
def Eval.Remembers (sought : ClosureId → List Value → Value → Prop) (mark : String)
    (x : Eval α) : Prop :=
  ∀ w, Halted mark (x w) ∨ w.Remembers sought (x w).2

namespace Eval.Remembers

variable {α β : Type} {sought : ClosureId → List Value → Value → Prop} {mark : String}
variable {x : Eval α}

/-- An evaluation that leaves the memory and the options alone. -/
theorem of_eq
    (h : ∀ w, (x w).2.expansions = w.expansions ∧ (x w).2.options = w.options) :
    x.Remembers sought mark :=
  fun w => .inr (.of_eq (h w).1 (h w).2)

/-- One evaluation after another. -/
theorem bind {k : α → Eval β} (hx : x.Remembers sought mark)
    (hk : ∀ a, x.Gives a → (k a).Remembers sought mark) : (x >>= k).Remembers sought mark := by
  intro w
  rcases hx w with hhalted | hw
  · exact .inl (hhalted.bind k)
  · rw [bind_run]
    rcases hrun : x w with ⟨answer, w'⟩
    rw [hrun] at hw
    cases answer with
    | ok a => exact (hk a ⟨w, w', hrun⟩ w').imp_right hw.trans
    | failed f => exact .inr hw
    | outOfFuel => exact .inr hw

/-- Rewording a failure. -/
theorem onFailure (g : World → Failure → Failure) (hx : x.Remembers sought mark) :
    (x.onFailure g).Remembers sought mark := by
  intro w
  rcases hx w with hhalted | hw
  · exact .inl (hhalted.onFailure g)
  · refine .inr ?_
    unfold Eval.onFailure
    rcases hrun : x w with ⟨answer, w'⟩
    rw [hrun] at hw
    cases answer <;> exact hw

/-- A handler goes on where the failure arose. -/
theorem rescue {takes : Failure → Bool} {handler : Failure → Eval α}
    (hx : x.Remembers sought mark)
    (hh : ∀ f, takes f = true → (handler f).Remembers sought mark) :
    (x.rescue takes handler).Remembers sought mark := by
  intro w
  rcases hx w with hhalted | hw
  · exact .inl (hhalted.rescue takes handler)
  · unfold Eval.rescue
    rcases hrun : x w with ⟨answer, w'⟩
    rw [hrun] at hw
    cases answer with
    | ok a => exact .inr hw
    | outOfFuel => exact .inr hw
    | failed f =>
        dsimp only
        by_cases htakes : takes f = true
        · rw [if_pos htakes]
          exact (hh f htakes w').imp_right hw.trans
        · rw [if_neg htakes]
          exact .inr hw

/-- A failure becomes a value without a look at the memory. -/
theorem reify (f : Failure) : (Eval.reify f).Remembers sought mark := by
  unfold Eval.reify
  split
  · exact of_eq fun _ => ⟨rfl, rfl⟩
  · exact of_eq fun _ => ⟨rfl, rfl⟩

/-- A `try`. -/
theorem attempt {x : Eval Value} (frame : FrameId)
    {handler : Option (Value → FrameId → Eval Value)} (hx : x.Remembers sought mark)
    (hh : ∀ h ∈ handler, ∀ caught inner, (h caught inner).Remembers sought mark) :
    (x.attempt frame handler).Remembers sought mark := by
  refine hx.rescue fun f _ => (reify f).bind fun caught _ => ?_
  cases handler with
  | none => exact of_eq fun _ => ⟨rfl, rfl⟩
  | some h => exact (of_eq fun _ => ⟨rfl, rfl⟩).bind fun inner _ => hh h rfl caught inner

/-- A nested form. -/
theorem nested (hx : x.Remembers sought mark) : (Eval.nested x).Remembers sought mark := by
  intro w
  unfold Eval.nested
  split
  · exact .inr (.refl w)
  · rcases hx { w with depth := w.depth + 1 } with hhalted | hw
    · exact .inl hhalted
    · exact .inr ⟨hw.cache, hw.apart, hw.off, hw.origin⟩

/-- A call. -/
theorem inCall (call : Call) (hx : x.Remembers sought mark) :
    (Eval.inCall call x).Remembers sought mark := by
  intro w
  rcases hx.onFailure Eval.attachCalls { w with calls := call :: w.calls } with hhalted | hw
  · exact .inl hhalted
  · exact .inr ⟨hw.cache, hw.apart, hw.off, hw.origin⟩

/-- An evaluation that the memory stands in for, unless its value was sought. -/
theorem memoized {x : Eval Value} {id : ClosureId} {operands : List Value}
    (hx : x.Remembers sought mark) (hnot : ∀ v, x.Gives v → ¬ sought id operands v) :
    (x.memoized id operands).Remembers sought mark := by
  intro w
  rw [memoized_run]
  split
  · next hon =>
      split
      · exact .inr (.refl w)
      · rcases hx w with hhalted | hw
        · exact .inl (hhalted.bind _)
        · unfold Eval.remembering
          rw [bind_run]
          rcases hrun : x w with ⟨answer, w'⟩
          rw [hrun] at hw
          cases answer with
          | ok v => exact .inr (hw.remember hon (hnot v ⟨w, w', hrun⟩))
          | failed f => exact .inr hw
          | outOfFuel => exact .inr hw
  · exact hx w

/-- Stopping does nothing to the memory. -/
theorem upTo (stop : World → Bool) (hx : x.Remembers sought mark) :
    (x.upTo stop).Remembers sought mark := by
  intro w
  unfold Eval.upTo
  split
  · exact .inr (.refl w)
  · exact hx w

/-- The alarm halts the run. -/
theorem watched {x : Eval Value} (watch : Value → Prop) (hx : x.Remembers sought mark) :
    (x.watched watch (Eval.halt mark)).Remembers sought mark := by
  refine hx.bind fun v _ => ?_
  split
  · exact fun w => .inl (Eval.halt_halted mark w)
  · exact of_eq fun _ => ⟨rfl, rfl⟩

end Eval.Remembers

/-! ### Runs under alarm -/

/-- The congruence of evaluations with those that are cut short, by a stop or by the
alarm, and do to the memory what they may.  There an application of a closure never gives
a value that is sought. -/
def Congruence.remembering (sought : ClosureId → List Value → Value → Prop) (mark : String) :
    Congruence where
  nest := Eval.nested
  answers id operands y := ∀ v, y.Gives v → ¬ sought id operands v
  rel _ _ x y := y.Extends x ∧ y.Remembers sought mark
  idle := ⟨.refl _, .of_eq fun _ => ⟨rfl, rfl⟩⟩
  pure _ := ⟨.refl _, .of_eq fun _ => ⟨rfl, rfl⟩⟩
  fail _ := ⟨.refl _, .of_eq fun _ => ⟨rfl, rfl⟩⟩
  recur _ _ := ⟨.refl _, .of_eq fun _ => ⟨rfl, rfl⟩⟩
  raise v := ⟨.refl _, .of_eq fun _ => by cases v <;> exact ⟨rfl, rfl⟩⟩
  ask _ := ⟨.refl _, .of_eq fun _ => ⟨rfl, rfl⟩⟩
  change edit := ⟨.refl _, .of_eq fun w => ⟨edit.expansions_eq w, (edit.balanced w).options⟩⟩
  memoize _ _ _ _ _ hnot hy :=
    ⟨Eval.memoized_related (R := fun x y => y.Extends x) (fun _ => .refl _) (fun _ => .refl _)
      (fun hx hk => hx.bind fun a _ => hk a) hy.1 (hy.1.bind fun _ _ => .refl _),
      hy.2.memoized hnot⟩
  define _ _ _ := ⟨.refl _, .of_eq fun _ => ⟨rfl, rfl⟩⟩
  bind hy hl := by
    have hgives := fun a ha => hl a (hy.1.gives ha)
    exact ⟨hy.1.bind fun a ha => (hgives a ha).1, hy.2.bind fun a ha => (hgives a ha).2⟩
  extend _ _ _ _ hl :=
    ⟨.bind (.refl _) fun id _ => (hl id).1,
      .bind (.of_eq fun _ => ⟨rfl, rfl⟩) fun id _ => (hl id).2⟩
  nested hy := ⟨hy.1.nested, hy.2.nested⟩
  inCall call _ _ hy := ⟨hy.1.inCall call, hy.2.inCall call⟩
  inForm _ _ _ hy := ⟨hy.1.onFailure _, hy.2.onFailure _⟩
  noRecur _ hy := ⟨hy.1.onFailure _, hy.2.onFailure _⟩
  recover _ _ _ hy hl _ :=
    ⟨hy.1.rescue fun f hf => (hl f.cause hf).2.1, hy.2.rescue fun f hf => (hl f.cause hf).2.2⟩
  attempt frame _ _ hy hl := by
    cases hl with
    | none => exact ⟨hy.1.attempt frame .none, hy.2.attempt frame nofun⟩
    | some hrel =>
        refine ⟨hy.1.attempt frame (.some fun caught inner => (hrel caught inner).1),
          hy.2.attempt frame fun h hmem caught inner => ?_⟩
        cases hmem
        exact (hrel caught inner).2

section Runs

variable {sought : ClosureId → List Value → Value → Prop}

/-- Where the alarm halts the run, no application of a closure gives a value that is
sought. -/
theorem Eval.not_gives_watched {x : Eval Value} {watch : Value → Prop} {mark : String}
    {stop : World → Bool} {v : Value}
    (h : ((x.watched watch (Eval.halt mark)).upTo stop).Gives v) : ¬ watch v := by
  obtain ⟨w, w', hrun⟩ := h
  unfold Eval.upTo at hrun
  split at hrun
  · cases hrun
  · obtain ⟨a, u, -, hanswer⟩ := Eval.bind_eq_ok hrun
    split at hanswer
    · cases hanswer
    · next hnot =>
        cases hanswer
        exact hnot

/-- The machine with fuel that may be stopped, under an alarm that halts it. -/
theorem remembering_machines (stop : Request → World → Bool)
    (sought : ClosureId → List Value → Value → Prop) (mark : String) (fuel : Nat) :
    (Congruence.remembering sought mark).Machines (run fuel)
      (watchedRun stop sought (Eval.halt mark) fuel) := by
  have hcut : ∀ {x y : Eval Value} {watch : Value → Prop} {halts : World → Bool},
      y.Extends x ∧ y.Remembers sought mark →
        ((y.watched watch (Eval.halt mark)).upTo halts).Extends x ∧
          ((y.watched watch (Eval.halt mark)).upTo halts).Remembers sought mark :=
    fun h => ⟨h.1.watched.upTo, (h.2.watched _).upTo _⟩
  induction fuel with
  | zero => exact Congruence.outOfFuel fun _ _ v hgives => nomatch hgives
  | succ fuel ih =>
      rw [run_succ]
      exact {
        isRun := Congruence.Machines.isRun_turn ⟨fuel, rfl⟩
        eval := fun frame form => hcut (ih.evalTurn frame form)
        apply := fun {e t} source callee args =>
          hcut (ih.applyTurn (e := e) (t := t) source callee args)
        unfold := fun {e t} sequence taken =>
          hcut (ih.unfoldTurn (e := e) (t := t) sequence taken)
        answers := fun source id operands v hgives => Eval.not_gives_watched hgives }

/-- In a stage, the memory is kept in order, and it takes what was returned only. -/
theorem Stage.remembers (s : Stage) (hnot : ¬ s.Returns sought) :
    s.world.Remembers sought s.result.2 := by
  have hnever : ∀ alarm, s.step.on (watchedRun s.stop sought alarm s.fuel) s.world = s.result :=
    fun alarm => not_not.mp fun hdiffers => hnot ⟨alarm, hdiffers⟩
  obtain ⟨mark, hmark⟩ := exists_not_halted hnever
  have hstep := (remembering_machines s.stop sought mark s.fuel).hostStep (t := true) s.step
  rcases hstep.2 s.world with hhalted | hremembers
  · exact absurd hhalted hmark
  · rwa [hnever] at hremembers

end Runs

/-- The values that a macro returned and that would be remembered as this expansion. -/
def Expansion.IsReturned (e : Expansion) (id : ClosureId) (operands : List Value) (v : Value) :
    Prop :=
  e.IsFor id operands ∧ e.result = v

/-- What is new in the memory after a stage was returned in it. -/
theorem Stage.returns_of_new (s : Stage) {e : Expansion} (he : e ∈ s.result.2.expansions)
    (hnew : e ∉ s.world.expansions) : s.Returns e.IsReturned := by
  by_contra hnot
  rcases (s.remembers hnot).origin e he with hold | ⟨id, operands, hfor, hnever⟩
  · exact hnew hold
  · exact hnever ⟨hfor, rfl⟩

/-- Whatever is returned, a stage keeps the memory in order. -/
theorem Stage.inOrder (s : Stage) : s.world.Remembers (fun _ _ _ => False) s.result.2 := by
  refine s.remembers fun ⟨alarm, hdiffers⟩ => hdiffers ?_
  rw [watchedRun_nothing]
  rfl

/-- An expansion has a value, or it comes to what the application of the macro comes to:
in the memory it leaves nothing of its own. -/
theorem Machine.expand_of_no_value (m : Machine) (id : ClosureId) (operands : List Value)
    (source : Option Span) (w : World) :
    (∃ v, (m.expand id operands source w).1 = .ok v) ∨
      m.expand id operands source w = m (.apply source (.closure id) operands) w := by
  have hexpand : m.expand id operands source =
      (m (.apply source (.closure id) operands)).memoized id operands := rfl
  rw [hexpand, Eval.memoized_run]
  split
  · split
    · next result _ => exact .inl ⟨result, rfl⟩
    · unfold Eval.remembering
      rw [Eval.bind_run]
      rcases m (.apply source (.closure id) operands) w with ⟨answer, w'⟩
      cases answer with
      | ok v => exact .inl ⟨v, rfl⟩
      | failed f => exact .inr rfl
      | outOfFuel => exact .inr rfl
  · exact .inr rfl

/-- **The memory is sound.**  In every world that a session comes to from a world in
which nothing is remembered, the memory holds at most one expansion for one macro and
structurally equal operands; each expansion in it was returned in the session by an
application of its macro to operands that are structurally equal to its own; and it is
empty if it was off.  An expansion that fails leaves nothing in it but what the failing
application of the macro did. -/
theorem Session.memory_sound {start w : World} {stages : List Stage}
    (h : Session start stages w) (hfresh : start.expansions = []) :
    (w.expansions.Pairwise fun e f => ¬ e.SameCall f) ∧
    (∀ e ∈ w.expansions, ∀ f ∈ w.expansions, (∀ v ∈ e.operands ++ f.operands, v.Proper) →
      e.SameCall f → e = f) ∧
    (∀ e ∈ w.expansions, ∃ s ∈ stages, s.Returns e.IsReturned) ∧
    (start.options.expansionCache = false → w.expansions = []) ∧
    ∀ (m : Machine) id operands source u f u',
      m.expand id operands source u = (.failed f, u') →
        m (.apply source (.closure id) operands) u = (.failed f, u') := by
  have hinvariant : w.options.expansionCache = start.options.expansionCache ∧
      (w.expansions.Pairwise fun e f => ¬ e.SameCall f) ∧
      (∀ e ∈ w.expansions, ∃ s ∈ stages, s.Returns e.IsReturned) ∧
      (start.options.expansionCache = false → w.expansions = []) := by
    induction h with
    | start =>
        rw [hfresh]
        exact ⟨rfl, .nil, nofun, fun _ => rfl⟩
    | stage s _ ih =>
        obtain ⟨hcache, hapart, hreturned, hoff⟩ := ih
        have hkept := s.inOrder
        refine ⟨hkept.cache.trans hcache, hkept.apart hapart, fun e he => ?_, fun hstart => ?_⟩
        · by_cases hold : e ∈ s.world.expansions
          · obtain ⟨earlier, hearlier, hreturns⟩ := hreturned e hold
            exact ⟨earlier, List.mem_cons_of_mem _ hearlier, hreturns⟩
          · exact ⟨s, List.mem_cons_self, s.returns_of_new he hold⟩
        · rw [hkept.off (hcache.trans hstart)]
          exact hoff hstart
  obtain ⟨-, hapart, hreturned, hoff⟩ := hinvariant
  refine ⟨hapart, ?_, hreturned, hoff, fun m id operands source u f u' hfailed => ?_⟩
  · exact fun e he f hf hproper hsame => hsame.eq hapart he hf hproper
  · rcases m.expand_of_no_value id operands source u with ⟨v, hvalue⟩ | hsame
    · rw [hfailed] at hvalue
      cases hvalue
    · exact hsame.symm.trans hfailed

/-- A call of the macro that expands to its operand, on an empty list. -/
def identityCall : Stage where
  world := .withIdentity
  step := .formIn Heap.global (.ofList [.closure 0, .ofList []])
  fuel := 5
  stop _ _ := false

/-- The call is remembered, and the macro did return what is remembered of it. -/
theorem Session.memory_sound_identityCall :
    World.withIdentity.expansions = [] ∧
    Session .withIdentity [identityCall] identityCall.result.2 ∧
    identityCall.result.2.expansions = [⟨0, [.ofList []], .ofList []⟩] ∧
    identityCall.Returns (Expansion.IsReturned ⟨0, [.ofList []], .ofList []⟩) := by
  have hsession : Session .withIdentity [identityCall] identityCall.result.2 := .stage _ .start
  have hexpansions : identityCall.result.2.expansions = [⟨0, [.ofList []], .ofList []⟩] := by
    with_unfolding_all rfl
  obtain ⟨-, -, hreturned, -, -⟩ := hsession.memory_sound rfl
  have hmem : ⟨0, [.ofList []], .ofList []⟩ ∈ identityCall.result.2.expansions := by
    rw [hexpansions]
    exact List.mem_singleton_self _
  obtain ⟨s, hs, hreturns⟩ := hreturned _ hmem
  obtain rfl := List.mem_singleton.mp hs
  exact ⟨rfl, hsession, hexpansions, hreturns⟩

end Lisp
