import Lisp.Proofs.Session

/-!
# Calls in progress and the nesting depth

The world records the calls in progress and how deep the evaluation is nested.
However an evaluation ends, it puts both back: a call that was entered is left,
and a level that was gained is lost again.  That is a discipline.

The depth also never exceeds the limit *on the way*.  Only the ends of a run can
be seen in its result, so the statement is made with a guard: `Eval.guarded`
raises an arbitrary alarm if the depth is over the limit when an evaluation
starts or when it ends.  `guardedRun` is the machine with fuel that has such
guards around the answer to every request and inside every nested form, which is
the only place where the depth is raised.  It makes no difference what the alarm
does, since it never goes off.
-/

namespace Lisp

/-- The depth is within the limit. -/
def World.WithinLimit (w : World) : Prop :=
  w.depth ≤ w.options.maxDepth

/-- The second world has the calls in progress, the depth and the options of the
first. -/
structure World.Balanced (w w' : World) : Prop where
  calls : w'.calls = w.calls
  depth : w'.depth = w.depth
  options : w'.options = w.options

/-- The options decide about the limit, and the depth is as it was. -/
theorem World.Balanced.withinLimit {w w' : World} (h : w.Balanced w') (hw : w.WithinLimit) :
    w'.WithinLimit := by
  unfold World.WithinLimit
  rw [h.depth, h.options]
  exact hw

/-- No change of the world outside the frames reaches the calls and the depth. -/
theorem Edit.balanced {g : World → World} (edit : Edit g) (w : World) : w.Balanced (g w) := by
  cases edit <;> exact ⟨rfl, rfl, rfl⟩

/-- The discipline of leaving what was entered. -/
def leaving : Discipline where
  rel _ := World.Balanced
  refl _ := ⟨rfl, rfl, rfl⟩
  trans huv hvw :=
    ⟨hvw.calls.trans huv.calls, hvw.depth.trans huv.depth, hvw.options.trans huv.options⟩
  change w edit := edit.balanced w
  remember _ _ hbalanced := ⟨hbalanced.calls, hbalanced.depth, hbalanced.options⟩
  define _ _ _ _ := ⟨rfl, rfl, rfl⟩
  extend _ _ _ _ hbalanced := ⟨hbalanced.calls, hbalanced.depth, hbalanced.options⟩
  nested w w' hbalanced := by
    refine ⟨hbalanced.calls, ?_, hbalanced.options⟩
    show w'.depth - 1 = w.depth
    rw [hbalanced.depth]
    exact Nat.add_sub_cancel w.depth 1
  inCall w call w' hbalanced := by
    refine ⟨?_, hbalanced.depth, hbalanced.options⟩
    show w'.calls.tail = w.calls
    rw [hbalanced.calls]
    exact List.tail_cons

/-! ### Guards -/

/-- Raises the alarm if the depth is over the limit before or after an
evaluation. -/
def Eval.guarded (x alarm : Eval α) : Eval α := fun w =>
  if w.options.maxDepth < w.depth then alarm w
  else
    match x w with
    | (answer, w) => if w.options.maxDepth < w.depth then alarm w else (answer, w)

/-- The machine with fuel under guard. -/
def guardedRun (alarm : Eval Value) : (fuel : Nat) → Machine
  | 0 => fun _ w => (.outOfFuel, w)
  | fuel + 1 => fun request =>
    ((guardedRun alarm fuel).turnWith (fun x => Eval.nested (x.guarded alarm)) request).guarded alarm

/-- A balanced evaluation and one that does the same within the limit. -/
def Eval.SameWithinLimit (x y : Eval α) : Prop :=
  (∀ w : World, w.Balanced (x w).2) ∧ ∀ w : World, w.WithinLimit → y w = x w

namespace Eval.SameWithinLimit

variable {x y : Eval α}

/-- A guard makes no difference to a balanced evaluation. -/
theorem guarded (alarm : Eval α) (h : x.SameWithinLimit y) :
    x.SameWithinLimit (y.guarded alarm) := by
  obtain ⟨hbalanced, hsame⟩ := h
  refine ⟨hbalanced, ?_⟩
  intro w hw
  have hafter : (x w).2.WithinLimit := (hbalanced w).withinLimit hw
  unfold Eval.guarded
  rw [if_neg (Nat.not_lt.mpr hw), hsame w hw]
  exact if_neg (Nat.not_lt.mpr hafter)

/-- One evaluation after another. -/
theorem bind {k l : α → Eval β} (h : x.SameWithinLimit y)
    (hk : ∀ a, x.Gives a → (k a).SameWithinLimit (l a)) :
    (x >>= k).SameWithinLimit (y >>= l) := by
  refine ⟨leaving.follows_bind (e := none) h.1 fun a ha => (hk a ha).1, ?_⟩
  intro w hw
  have hafter := (h.1 w).withinLimit hw
  rw [Eval.bind_run, Eval.bind_run, h.2 w hw]
  rcases hrun : x w with ⟨answer, w'⟩
  rw [hrun] at hafter
  cases answer with
  | ok a => exact (hk a ⟨w, w', hrun⟩).2 w' hafter
  | failed f => rfl
  | outOfFuel => rfl

/-- Rewording a failure. -/
theorem onFailure (g : World → Failure → Failure) (h : x.SameWithinLimit y) :
    (x.onFailure g).SameWithinLimit (y.onFailure g) := by
  refine ⟨leaving.follows_onFailure (e := none) g h.1, ?_⟩
  intro w hw
  unfold Eval.onFailure
  rw [h.2 w hw]

/-- A handler goes on from a world that is within the limit again. -/
theorem rescue {takes : Failure → Bool} {k l : Failure → Eval α} (h : x.SameWithinLimit y)
    (hk : ∀ f, takes f = true → (k f).SameWithinLimit (l f)) :
    (x.rescue takes k).SameWithinLimit (y.rescue takes l) := by
  refine ⟨leaving.follows_rescue (e := none) h.1 fun f hf => (hk f hf).1, ?_⟩
  intro w hw
  have hafter := (h.1 w).withinLimit hw
  unfold Eval.rescue
  rw [h.2 w hw]
  rcases hrun : x w with ⟨answer, w'⟩
  rw [hrun] at hafter
  cases answer with
  | ok a => rfl
  | outOfFuel => rfl
  | failed f =>
      dsimp only
      by_cases htakes : takes f = true
      · rw [if_pos htakes, if_pos htakes]
        exact (hk f htakes).2 w' hafter
      · rw [if_neg htakes, if_neg htakes]

/-- A `try`, whose handler starts within the limit. -/
theorem attempt {x y : Eval Value} (frame : FrameId)
    {h l : Option (Value → FrameId → Eval Value)} (hxy : x.SameWithinLimit y)
    (hhl : Option.Rel
      (fun h l => ∀ caught inner, (h caught inner).SameWithinLimit (l caught inner)) h l) :
    (x.attempt frame h).SameWithinLimit (y.attempt frame l) := by
  refine hxy.rescue fun f _ => ?_
  have hreify : (Eval.reify f).SameWithinLimit (Eval.reify f) :=
    ⟨leaving.follows_reify (e := none) f, fun _ _ => rfl⟩
  refine hreify.bind fun caught _ => ?_
  cases hhl with
  | none => exact ⟨fun _ => ⟨rfl, rfl, rfl⟩, fun _ _ => rfl⟩
  | some hbody =>
      exact ⟨fun w => leaving.extend (e := none) w frame _ _ ((hbody caught _).1 _),
        fun _ hw => (hbody caught _).2 _ hw⟩

/-- A nested form under guard: it is entered only below the limit. -/
theorem nested (alarm : Eval α) (h : x.SameWithinLimit y) :
    (Eval.nested x).SameWithinLimit (Eval.nested (y.guarded alarm)) := by
  refine ⟨leaving.follows_nested (e := none) h.1, ?_⟩
  intro w _
  unfold Eval.nested
  by_cases hlimit : w.options.maxDepth < w.depth + 1
  · rw [if_pos hlimit, if_pos hlimit]
  · rw [if_neg hlimit, if_neg hlimit, (h.guarded alarm).2 _ (Nat.not_lt.mp hlimit)]

/-- A call. -/
theorem inCall (call : Call) (h : x.SameWithinLimit y) :
    (Eval.inCall call x).SameWithinLimit (Eval.inCall call y) := by
  have hreworded := h.onFailure Eval.attachCalls
  refine ⟨fun w => leaving.inCall (e := none) w call _ (hreworded.1 _), ?_⟩
  intro w hw
  have hcalled : y.onFailure Eval.attachCalls { w with calls := call :: w.calls } =
      x.onFailure Eval.attachCalls { w with calls := call :: w.calls } := hreworded.2 _ hw
  unfold Eval.inCall
  rw [hcalled]

end Eval.SameWithinLimit

/-- The congruence of evaluations for which a guard makes no difference. -/
def guarding (alarm : Eval Value) : Congruence where
  nest y := Eval.nested (y.guarded alarm)
  rel _ _ x y := x.SameWithinLimit y
  idle := ⟨leaving.congruence.idle (e := none) (t := true), fun _ _ => rfl⟩
  pure a := ⟨leaving.congruence.pure (e := none) (t := true) a, fun _ _ => rfl⟩
  fail hfresh := ⟨leaving.congruence.fail (e := none) (t := true) hfresh, fun _ _ => rfl⟩
  recur target args := ⟨leaving.congruence.recur (e := none) target args, fun _ _ => rfl⟩
  raise v := ⟨leaving.congruence.raise (e := none) (t := true) v, fun _ _ => rfl⟩
  ask hblind := ⟨leaving.congruence.ask (e := none) (t := true) hblind, fun _ _ => rfl⟩
  change edit := ⟨leaving.congruence.change (e := none) (t := true) edit, fun _ _ => rfl⟩
  memoize fuel source id operands _ _ hx := by
    refine Eval.memoized_related (R := fun x y => x.SameWithinLimit y) (fun _ => ?_) (fun _ => ?_)
      (fun hx hk => hx.bind fun a _ => hk a) hx ?_
    · exact ⟨fun w => ⟨rfl, rfl, rfl⟩, fun _ _ => rfl⟩
    · exact ⟨fun w => ⟨rfl, rfl, rfl⟩, fun _ _ => rfl⟩
    · exact hx.bind fun v _ => ⟨fun w => ⟨rfl, rfl, rfl⟩, fun _ _ => rfl⟩
  define f s v := ⟨leaving.congruence.define (t := true) f s v, fun _ _ => rfl⟩
  bind := Eval.SameWithinLimit.bind
  extend outer label _ _ hk :=
    ⟨fun w => leaving.extend (e := none) w outer label _ ((hk _).1 _), fun _ hw => (hk _).2 _ hw⟩
  nested := Eval.SameWithinLimit.nested alarm
  inCall call _ _ hx := hx.inCall call
  inForm _ _ _ := Eval.SameWithinLimit.onFailure _
  noRecur _ := Eval.SameWithinLimit.onFailure _
  recover _ _ _ hx hh _ := Eval.SameWithinLimit.rescue hx fun f hf => (hh f.cause hf).2
  attempt frame _ _ hx hh := Eval.SameWithinLimit.attempt frame hx hh

/-- The machine under guard answers as the machine without. -/
theorem guarding_machines (alarm : Eval Value) (fuel : Nat) :
    (guarding alarm).Machines (run fuel) (guardedRun alarm fuel) := by
  induction fuel with
  | zero => exact Congruence.outOfFuel
  | succ fuel ih =>
      have hturn := ih.turn
      rw [run_succ]
      refine { isRun := ⟨fuel + 1, (run_succ fuel).symm⟩, eval := ?_, apply := ?_, unfold := ?_ }
      · intro frame form
        exact Eval.SameWithinLimit.guarded alarm (hturn.eval frame form)
      · intro e t source callee args
        exact Eval.SameWithinLimit.guarded alarm (hturn.apply (e := e) (t := t) source callee args)
      · intro e t sequence taken
        exact Eval.SameWithinLimit.guarded alarm (hturn.unfold (e := e) (t := t) sequence taken)

/-! ### Runs and sessions -/

/-- The world is between two steps of a session: no call is in progress, and no
form is being evaluated. -/
def World.AtRest (w : World) : Prop :=
  w.calls = [] ∧ w.depth = 0

/-- What is balanced with a world at rest is at rest. -/
theorem World.Balanced.atRest {w w' : World} (h : w.Balanced w') (hw : w.AtRest) : w'.AtRest :=
  ⟨h.calls.trans hw.1, h.depth.trans hw.2⟩

/-- Whatever failed before, an interpreter is at rest between two steps. -/
theorem World.Reachable.atRest {w : World} (h : w.Reachable) : w.AtRest := by
  induction h with
  | core options => exact ⟨rfl, rfl⟩
  | create options files withPrelude commands =>
      have hfresh : (World.withFiles options files commands).AtRest := ⟨rfl, rfl⟩
      exact World.Balanced.atRest (leaving.create options files withPrelude commands) hfresh
  | step s _ ih => exact World.Balanced.atRest (leaving.perform _ s) ih

/-- From the world, the evaluation ends with the calls in progress and the depth
that it began with, and no alarm under guard makes a difference to it. -/
structure Eval.KeepsBalance (x : Eval α) (underGuard : Eval α → Eval α) (w : World) : Prop where
  calls : (x w).2.calls = w.calls
  depth : (x w).2.depth = w.depth
  withinLimit : ∀ alarm, underGuard alarm w = x w

/-- What is the same within the limit, under any guard, keeps its balance. -/
theorem Eval.keepsBalance_of_same {x : Eval α} {underGuard : Eval α → Eval α}
    (h : ∀ alarm, x.SameWithinLimit (underGuard alarm)) {w : World} (hw : w.WithinLimit) :
    x.KeepsBalance underGuard w := by
  have hbalanced := (h x).1 w
  exact ⟨hbalanced.calls, hbalanced.depth, fun alarm => (h alarm).2 w hw⟩

/-- However the answer to a request ends, the calls in progress and the depth are
those it began with, and the depth exceeds the limit at no moment; so a session is
at rest between its steps, whatever failed in them. -/
theorem run_keepsBalance (fuel : Nat) (w : World) (hw : w.WithinLimit) :
    (∀ request, (run fuel request).KeepsBalance (guardedRun · fuel request) w) ∧
    (∀ frame form, ((run fuel).interpret frame form).KeepsBalance
      (fun alarm => (guardedRun alarm fuel).interpret frame form) w) ∧
    ∀ v : World, v.Reachable → v.AtRest := by
  have hmachines := fun alarm => guarding_machines alarm fuel
  refine ⟨?_, ?_, fun v hv => hv.atRest⟩
  · intro request
    refine Eval.keepsBalance_of_same (fun alarm => ?_) hw
    cases request with
    | eval frame form => exact (hmachines alarm).eval frame form
    | apply source callee args =>
        exact (hmachines alarm).apply (e := none) (t := true) source callee args
    | unfold sequence taken =>
        exact (hmachines alarm).unfold (e := none) (t := true) sequence taken
  · intro frame form
    refine Eval.keepsBalance_of_same (fun alarm => ?_) hw
    exact (hmachines alarm).interpret (t := true) frame form

/-- A form within a form that runs into a limit of one level. -/
theorem run_keepsBalance_at_limit :
    World.WithinLimit { options := { maxDepth := 1 } } ∧
    (∃ f, (run 3 (.eval Heap.global (.list [.list [.nil] none] none))
      { options := { maxDepth := 1 } }).1 = .failed f ∧ f.cause = .tooDeep 1) ∧
    (run 3 (.eval Heap.global (.list [.list [.nil] none] none))).KeepsBalance
      (guardedRun · 3 (.eval Heap.global (.list [.list [.nil] none] none)))
      { options := { maxDepth := 1 } } ∧
    ((HostStep.formIn Heap.global (.list [.list [.nil] none] none)).perform
      (.core { maxDepth := 1 })).AtRest := by
  have hw : World.WithinLimit { options := { maxDepth := 1 } } := Nat.zero_le 1
  obtain ⟨hrequests, -, hsessions⟩ := run_keepsBalance 3 _ hw
  exact ⟨hw, ⟨_, rfl, rfl⟩, hrequests _, hsessions _ (.step _ (.core _))⟩

end Lisp
