import Lisp.Proofs.Balance

/-!
# Where a failure says that it arose

A failure is given its call stack and its source span while it travels outwards: a
form gives it both, a call gives it the stack, and what it has already stays.  The
calls are kept innermost first, so a stack that begins, from the outside, with the
calls in progress is one that *ends* with them.

* `Eval.ReportsCalls` is the discipline of stacks: a failure that leaves an
  evaluation has no stack yet, or one that ends with the calls that were in progress
  when the evaluation began.  Every way of putting evaluations together respects it
  (`reporting`), because what was entered is left again (`leaving`).
* `Encloses` relates a request to the evaluation inside the form, the builtin, the
  accessor or the procedure that the machine gets to on the way to the answer.  A
  failure of the inner evaluation that has a stack is the failure of the request, but
  for a span that was missing (`Encloses.failed`).
-/

namespace Lisp

/-! ### Stacks end with the calls in progress -/

/-- A stack that is there stays. -/
theorem Eval.attachCalls_of_calls {f : Failure} (w : World) (h : f.context.calls ≠ []) :
    Eval.attachCalls w f = f := by
  have hwants : f.wantsCalls = false := by
    simp [Failure.wantsCalls, h]
  unfold Eval.attachCalls Failure.withCalls
  rw [hwants]
  rfl

/-- The call stack of a failure is still missing, or ends with the calls in progress. -/
def Failure.EndsWith (f : Failure) (calls : List Call) : Prop :=
  f.context.calls = [] ∨ calls <:+ f.context.calls

/-- The evaluation leaves the calls that it enters, and the stacks of its failures end
with the calls that were in progress when it began. -/
def Eval.ReportsCalls (x : Eval α) : Prop :=
  leaving.Follows none x ∧ ∀ w f w', x w = (.failed f, w') → f.EndsWith w.calls

namespace Failure

variable {f : Failure} {calls : List Call}

/-- A stack that is attached is made of the calls in progress. -/
theorem EndsWith.attached (w : World) (h : f.EndsWith w.calls) :
    (Eval.attachCalls w f).EndsWith w.calls := by
  unfold Eval.attachCalls withCalls
  split
  · exact .inr List.suffix_rfl
  · exact h

/-- A source span is no part of a stack. -/
theorem calls_withSource (f : Failure) (source : Option Span) :
    (f.withSource source).context.calls = f.context.calls := by
  unfold withSource
  split <;> rfl

/-- A failure that is no recur has a stack once one has been attached. -/
theorem EndsWith.suffix_attached (w : World) (hrecur : f.cause.isRecur = false)
    (h : f.EndsWith w.calls) : w.calls <:+ (Eval.attachCalls w f).context.calls := by
  by_cases hmissing : f.context.calls = []
  · have hwants : f.wantsCalls = true := by simp [wantsCalls, hrecur, hmissing]
    have hattached : (Eval.attachCalls w f).context.calls = w.calls := by
      unfold Eval.attachCalls withCalls
      rw [if_pos hwants]
    exact hattached ▸ List.suffix_rfl
  · rw [Eval.attachCalls_of_calls w hmissing]
    exact h.resolve_left hmissing

end Failure

namespace Eval.ReportsCalls

variable {x : Eval α}

/-- What never fails has no stack to report. -/
theorem of_total (hx : leaving.Follows none x) (htotal : ∀ w, ∃ a, (x w).1 = .ok a) :
    x.ReportsCalls := by
  refine ⟨hx, fun w f w' hfailed => ?_⟩
  obtain ⟨a, ha⟩ := htotal w
  rw [hfailed] at ha
  cases ha

/-- One evaluation after another, which begins with the same calls in progress. -/
theorem bind {k : α → Eval β} (hx : x.ReportsCalls) (hk : ∀ a, x.Gives a → (k a).ReportsCalls) :
    (x >>= k).ReportsCalls := by
  refine ⟨leaving.follows_bind hx.1 fun a ha => (hk a ha).1, ?_⟩
  intro w f w' hfailed
  rcases Eval.bind_eq_failed hfailed with hfirst | ⟨a, u, hfirst, hsecond⟩
  · exact hx.2 w f w' hfirst
  · have hbalanced := hx.1 w
    rw [hfirst] at hbalanced
    rw [← hbalanced.calls]
    exact (hk a ⟨w, u, hfirst⟩).2 u f w' hsecond

/-- Rewording a failure so that its stack still ends with the calls in progress. -/
theorem onFailure {g : World → Failure → Failure} (hx : x.ReportsCalls)
    (hg : ∀ w f, f.EndsWith w.calls → (g w f).EndsWith w.calls) :
    (x.onFailure g).ReportsCalls := by
  refine ⟨leaving.follows_onFailure g hx.1, ?_⟩
  intro w f w' hfailed
  have hbalanced := hx.1 w
  unfold Eval.onFailure at hfailed
  rcases hrun : x w with ⟨answer, u⟩
  rw [hrun] at hfailed hbalanced
  cases answer with
  | ok a => cases hfailed
  | outOfFuel => cases hfailed
  | failed f₀ =>
      cases hfailed
      have hinside := hx.2 w f₀ _ hrun
      rw [← hbalanced.calls] at hinside ⊢
      exact hg _ _ hinside

/-- A handler begins with the calls that were in progress before the failure. -/
theorem rescue {takes : Failure → Bool} {handler : Failure → Eval α} (hx : x.ReportsCalls)
    (hh : ∀ f, takes f = true → (handler f).ReportsCalls) :
    (x.rescue takes handler).ReportsCalls := by
  refine ⟨leaving.follows_rescue hx.1 fun f hf => (hh f hf).1, ?_⟩
  intro w f w' hfailed
  have hbalanced := hx.1 w
  unfold Eval.rescue at hfailed
  rcases hrun : x w with ⟨answer, u⟩
  rw [hrun] at hfailed hbalanced
  cases answer with
  | ok a => cases hfailed
  | outOfFuel => cases hfailed
  | failed f₀ =>
      dsimp only at hfailed
      by_cases htakes : takes f₀ = true
      · rw [if_pos htakes] at hfailed
        rw [← hbalanced.calls]
        exact (hh f₀ htakes).2 u f w' hfailed
      · rw [if_neg htakes] at hfailed
        cases hfailed
        exact hx.2 w f _ hrun

/-- A failure as a value, which is made without a failure. -/
theorem reify (f : Failure) : (Eval.reify f).ReportsCalls := by
  refine of_total (leaving.follows_reify f) fun w => ?_
  obtain ⟨cause, context⟩ := f
  cases cause <;> exact ⟨_, rfl⟩

/-- What is evaluated in a new frame. -/
theorem extend (outer : FrameId) (label : String) {k : FrameId → Eval α}
    (hk : ∀ frame, (k frame).ReportsCalls) : (Eval.extend outer label >>= k).ReportsCalls := by
  have hextend : (Eval.extend outer label).ReportsCalls :=
    of_total (fun _ => ⟨rfl, rfl, rfl⟩) fun _ => ⟨_, rfl⟩
  exact hextend.bind fun frame _ => hk frame

/-- A `try`. -/
theorem attempt {x : Eval Value} (frame : FrameId)
    {handler : Option (Value → FrameId → Eval Value)} (hx : x.ReportsCalls)
    (hh : ∀ h ∈ handler, ∀ caught inner, (h caught inner).ReportsCalls) :
    (x.attempt frame handler).ReportsCalls := by
  refine hx.rescue fun f _ => (reify f).bind fun caught _ => ?_
  cases handler with
  | none =>
      refine ⟨leaving.congruence.fail (t := true) ⟨rfl, rfl⟩, fun w f w' hfailed => ?_⟩
      cases hfailed
      exact .inl rfl
  | some h => exact extend frame "catch" (hh h rfl caught)

/-- A nested form, which is without a stack when it is too deep. -/
theorem nested {x : Eval Value} (hx : x.ReportsCalls) : (Eval.nested x).ReportsCalls := by
  refine ⟨leaving.follows_nested hx.1, ?_⟩
  intro w f w' hfailed
  unfold Eval.nested at hfailed
  split at hfailed
  · cases hfailed
    exact .inl rfl
  · rcases hrun : x { w with depth := w.depth + 1 } with ⟨answer, u⟩
    rw [hrun] at hfailed
    cases hfailed
    exact hx.2 { w with depth := w.depth + 1 } f u hrun

/-- A call: stacks that end with it and the calls before it end with those before it. -/
theorem inCall (call : Call) (hx : x.ReportsCalls) : (Eval.inCall call x).ReportsCalls := by
  have hreworded := hx.onFailure fun w f => Failure.EndsWith.attached (f := f) w
  refine ⟨fun w => leaving.inCall w call _ (hreworded.1 _), ?_⟩
  intro w f w' hfailed
  unfold Eval.inCall at hfailed
  rcases hrun : x.onFailure Eval.attachCalls { w with calls := call :: w.calls } with ⟨answer, u⟩
  rw [hrun] at hfailed
  cases hfailed
  exact (hreworded.2 _ f u hrun).imp_right (List.suffix_cons call w.calls).trans

/-- A thrown value is given the calls in progress. -/
theorem raise (v : Value) : (Eval.raise (α := α) v).ReportsCalls := by
  refine ⟨leaving.follows_raise v, fun w f w' hfailed => .inr ?_⟩
  cases v <;> cases hfailed <;> exact List.suffix_rfl

end Eval.ReportsCalls

/-- The congruence of evaluations that report the calls in progress. -/
def reporting : Congruence where
  nest := Eval.nested
  rel _ _ x _ := x.ReportsCalls
  idle := ⟨leaving.congruence.idle (t := true), fun _ _ _ hfailed => nomatch hfailed⟩
  pure a := .of_total (leaving.congruence.pure (t := true) a) fun _ => ⟨_, rfl⟩
  fail hfresh := by
    refine ⟨leaving.congruence.fail (t := true) hfresh, fun w f w' hfailed => ?_⟩
    cases hfailed
    exact .inl hfresh.2
  recur target args := by
    refine ⟨leaving.congruence.recur target args, fun w f w' hfailed => ?_⟩
    cases hfailed
    exact .inl rfl
  raise v := .raise v
  ask hblind := .of_total (leaving.congruence.ask (t := true) hblind) fun _ => ⟨_, rfl⟩
  change edit := .of_total (leaving.congruence.change (t := true) edit) fun _ => ⟨_, rfl⟩
  memoize fuel source id operands y _ hx := by
    refine Eval.memoized_related (R := fun x _ => x.ReportsCalls) (y := y) (fun _ => ?_)
      (fun _ => ?_) (fun hx hk => hx.bind fun a _ => hk a) hx ?_
    · exact .of_total (fun _ => ⟨rfl, rfl, rfl⟩) fun _ => ⟨_, rfl⟩
    · exact .of_total (fun _ => ⟨rfl, rfl, rfl⟩) fun _ => ⟨_, rfl⟩
    · exact hx.bind fun v _ => .of_total (fun _ => ⟨rfl, rfl, rfl⟩) fun _ => ⟨_, rfl⟩
  define f s v := .of_total (leaving.congruence.define (t := true) f s v) fun _ => ⟨_, rfl⟩
  bind := Eval.ReportsCalls.bind
  extend outer label _ _ hk := Eval.ReportsCalls.extend outer label hk
  nested := Eval.ReportsCalls.nested
  inCall call _ _ hx := hx.inCall call
  inForm source _ _ hx := hx.onFailure fun w f hf => by
    refine Failure.EndsWith.attached w ?_
    unfold Failure.EndsWith
    rw [f.calls_withSource]
    exact hf
  noRecur hfresh hx := hx.onFailure fun w f hf => by
    split
    · exact .inl hfresh.2
    · exact hf
  recover _ _ _ hx hh _ := hx.rescue fun f hf => (hh f.cause hf).2
  attempt frame _ _ hx hh := hx.attempt frame fun h hmem => by
    cases hh with
    | none => cases hmem
    | some hrel =>
        cases hmem
        exact hrel

/-- A failure that leaves a form that was entered has a stack, which ends with the calls
in progress. -/
theorem Eval.ReportsCalls.form {x : Eval Value} (hx : x.ReportsCalls) (source : Option Span)
    {w w' : World} {f : Failure} (hdepth : w.depth < w.options.maxDepth)
    (hfailed : Eval.nested (Eval.inForm source x) w = (.failed f, w'))
    (hrecur : f.cause.isRecur = false) : w.calls <:+ f.context.calls := by
  unfold Eval.nested at hfailed
  rw [if_neg (Nat.not_lt.mpr hdepth)] at hfailed
  unfold Eval.inForm Eval.onFailure at hfailed
  have hbalanced := hx.1 { w with depth := w.depth + 1 }
  rcases hrun : x { w with depth := w.depth + 1 } with ⟨answer, u⟩
  rw [hrun] at hfailed hbalanced
  cases answer with
  | ok v => cases hfailed
  | outOfFuel => cases hfailed
  | failed f₀ =>
      cases hfailed
      have hcalls : u.calls = w.calls := hbalanced.calls
      have hinside : (f₀.withSource source).EndsWith u.calls := by
        unfold Failure.EndsWith
        rw [f₀.calls_withSource, hcalls]
        exact hx.2 { w with depth := w.depth + 1 } f₀ u hrun
      rw [← hcalls]
      unfold Eval.attachCalls at hrecur ⊢
      rw [Failure.cause_withCalls] at hrecur
      exact hinside.suffix_attached u hrecur

/-! ### Failures pass what encloses them -/

/-- What a failure says of itself and of where it arose is kept. -/
structure Failure.KeptAs (f g : Failure) : Prop where
  cause : g.cause = f.cause
  kind : g.cause.name = f.cause.name
  message : ∀ h : Heap, g.message h = f.message h
  calls : g.context.calls = f.context.calls
  source : ∀ span, f.context.source = some span → g.context.source = some span

/-- A message is about the cause, and not about where the failure arose. -/
theorem Failure.message_eq_of_cause {f g : Failure} (h : g.cause = f.cause) (heap : Heap) :
    g.message heap = f.message heap := by
  obtain ⟨cause, context⟩ := f
  obtain ⟨cause', context'⟩ := g
  cases h
  cases cause with
  | thrown value => cases value <;> rfl
  | _ => rfl

/-- Nothing changes. -/
theorem Failure.KeptAs.refl (f : Failure) : f.KeptAs f :=
  ⟨rfl, rfl, fun _ => rfl, rfl, fun _ h => h⟩

/-- A source span is added only where there is none. -/
theorem Failure.keptAs_withSource (f : Failure) (source : Option Span) :
    f.KeptAs (f.withSource source) := by
  have hcause := f.cause_withSource source
  refine ⟨hcause, congrArg Cause.name hcause, Failure.message_eq_of_cause hcause,
    f.calls_withSource source, fun span hspan => ?_⟩
  unfold Failure.withSource
  split
  · exact hspan
  · show (f.context.source <|> source) = some span
    rw [hspan]
    rfl

/-- The evaluation inside the call of a value, with the name that the call goes by. -/
inductive Machine.CallsInto (m : Machine) (h : Heap) :
    (callee : Value) → (args : List Value) → (name : String) → (inside : Eval Value) → Prop
  | closure {id : ClosureId} {c : Closure} {args : List Value}
      (hfound : h.closures[id]? = some c) :
      m.CallsInto h (.closure id) args c.displayName (m.runClosure c none args)
  | builtin (b : Builtin) (args : List Value) :
      m.CallsInto h (.builtin b) args b.name (m.callBuiltin b args)
  | accessor (id : Nat) (way : Access) (subject : Value) (args : List Value) :
      m.CallsInto h (.accessor id way subject) args way.name (m.callAccessor way subject args)
  | boundClosure {receiver : Value} {id : ClosureId} {c : Closure} {args : List Value}
      (hfound : h.closures[id]? = some c) :
      m.CallsInto h (.bound receiver (.closure id)) args c.displayName
        (m.runClosure c (some receiver) args)
  | boundBuiltin (receiver : Value) (b : Builtin) (args : List Value) :
      m.CallsInto h (.bound receiver (.builtin b)) args b.name (m.callBuiltin b (receiver :: args))
  | boundAccessor (receiver : Value) (id : Nat) (way : Access) (subject : Value)
      (args : List Value) :
      m.CallsInto h (.bound receiver (.accessor id way subject)) args way.name
        (m.callAccessor way subject (receiver :: args))

/-- The answer to the request comes from the evaluation inside a form, or inside a call,
in the world that it starts from: at once, or after steps that name other requests, such
as the dispatch of an interface or a recur. -/
inductive Encloses : (fuel : Nat) → World → Request → Eval Value → World → Prop
  | form {fuel : Nat} {w : World} (frame : FrameId) (head : Value) (rest : List Value)
      (source : Option Span) (hdepth : w.depth < w.options.maxDepth) :
      Encloses fuel w (.eval frame (.list (head :: rest) source))
        ((run fuel).evalList frame head rest source) { w with depth := w.depth + 1 }
  | call {fuel : Nat} {w : World} {callee : Value} {args : List Value} {name : String}
      {inside : Eval Value} (source : Option Span)
      (hinto : (run fuel).CallsInto w.heap callee args name inside) :
      Encloses fuel w (.apply source callee args) inside
        { w with calls := ⟨name, source⟩ :: w.calls }
  | again {fuel : Nat} {w v u : World} {request next : Request} {inside : Eval Value}
      (hstep : (run (fuel + 1)).step request w = (.ok (.again next), v))
      (hnext : Encloses fuel v next inside u) : Encloses (fuel + 1) w request inside u

/-- A failure that has a stack leaves a call as it is. -/
theorem Eval.inCall_of_failed {x : Eval α} {name : String} {source : Option Span} {w w' : World}
    {f : Failure} (hfailed : x { w with calls := ⟨name, source⟩ :: w.calls } = (.failed f, w'))
    (hcalls : f.context.calls ≠ []) :
    Eval.inCall ⟨name, source⟩ x w = (.failed f, { w' with calls := w'.calls.tail }) := by
  unfold Eval.inCall Eval.onFailure
  rw [hfailed]
  dsimp only
  rw [Eval.attachCalls_of_calls w' hcalls]

/-- A failure inside a call that is no recur is the failure of the step. -/
theorem Machine.CallsInto.applyStep {m : Machine} {callee : Value} {args : List Value}
    {name : String} {inside : Eval Value} {source : Option Span} {w w' : World} {f : Failure}
    (h : m.CallsInto w.heap callee args name inside)
    (hfailed : Eval.inCall ⟨name, source⟩ inside w = (.failed f, w'))
    (hrecur : f.cause.isRecur = false) :
    m.applyStep source callee args w = (.failed f, w') := by
  have hdirect : (Eval.inCall ⟨name, source⟩ inside >>= fun v => pure (Next.done v)) w =
      (.failed f, w') := by
    rw [Eval.bind_run, hfailed]
  have hclosure : ∀ {id : ClosureId} {c : Closure} (receiver : Option Value),
      w.heap.closures[id]? = some c →
      Eval.inCall ⟨c.displayName, source⟩ (m.runClosure c receiver args) w = (.failed f, w') →
        m.callClosure source id receiver args w = (.failed f, w') := by
    intro id c receiver hfound hbody
    unfold Machine.callClosure
    simp only [hfound, hbody]
    split
    · next hcause =>
        rw [hcause] at hrecur
        cases hrecur
    · rfl
  cases h with
  | closure hfound => exact hclosure none hfound hfailed
  | boundClosure hfound => exact hclosure _ hfound hfailed
  | builtin b args => exact hdirect
  | accessor id way subject args => exact hdirect
  | boundBuiltin receiver b args => exact hdirect
  | boundAccessor receiver id way subject args => exact hdirect

/-- A failure that has a stack, and is no recur, keeps it on the way out of what encloses
the evaluation. -/
theorem Encloses.failed {fuel : Nat} {w u : World} {request : Request} {x : Eval Value}
    (h : Encloses fuel w request x u) {f : Failure} {w' : World} (hfailed : x u = (.failed f, w'))
    (hrecur : f.cause.isRecur = false) (hcalls : f.context.calls ≠ []) :
    ∃ g w'', run (fuel + 1) request w = (.failed g, w'') ∧ f.KeptAs g ∧
      w''.heap = w'.heap := by
  induction h with
  | @form fuel w frame head rest source hdepth =>
      have hkept : (f.withSource source).context.calls ≠ [] := by
        rw [f.calls_withSource]
        exact hcalls
      refine ⟨f.withSource source, { w' with depth := w'.depth - 1 }, ?_,
        f.keptAs_withSource source, rfl⟩
      rw [run_eval_succ]
      show Eval.nested (Eval.inForm source ((run fuel).evalList frame head rest source)) w = _
      unfold Eval.nested Eval.inForm Eval.onFailure
      rw [if_neg (Nat.not_lt.mpr hdepth), hfailed]
      dsimp only
      rw [Eval.attachCalls_of_calls w' hkept]
  | @call fuel w callee args name inside source hinto =>
      have hstep := hinto.applyStep (Eval.inCall_of_failed hfailed hcalls) hrecur
      refine ⟨f, { w' with calls := w'.calls.tail }, ?_, .refl f, rfl⟩
      rw [run_apply_succ, Eval.bind_run, hstep]
  | @again fuel w v u request next inside hstep hnext ih =>
      obtain ⟨g, w'', hrun, hkept, hheap⟩ := ih hfailed
      refine ⟨g, w'', ?_, hkept, hheap⟩
      rw [run_succ]
      unfold Machine.turnWith
      rw [Machine.stepWith_nested, Eval.bind_of_ok hstep]
      exact hrun

/-! ### The machine -/

/-- Failures keep the innermost stack: the failure of a form that is entered, unless it
is a recur, has a stack that ends with the calls in progress, innermost first; and a
failure that has a stack already leaves the forms, the builtins and the procedures around
it with that stack, with its source span if it has one, and with its kind and message. -/
theorem run_keepsInnermostCalls (fuel : Nat) (w : World) :
    (∀ frame head rest source f w', w.depth < w.options.maxDepth →
      run fuel (.eval frame (.list (head :: rest) source)) w = (.failed f, w') →
        f.cause.isRecur = false → w.calls <:+ f.context.calls) ∧
    ∀ request inside u f w', Encloses fuel w request inside u → inside u = (.failed f, w') →
      f.cause.isRecur = false → f.context.calls ≠ [] →
        ∃ g w'', run (fuel + 1) request w = (.failed g, w'') ∧ f.KeptAs g ∧
          w''.heap = w'.heap := by
  refine ⟨?_, fun _ _ _ _ _ h hfailed hrecur hcalls => h.failed hfailed hrecur hcalls⟩
  intro frame head rest source f w' hdepth hfailed hrecur
  cases fuel with
  | zero => cases hfailed
  | succ fuel =>
      rw [run_eval_succ] at hfailed
      have hinside := (reporting.machines fuel).evalList frame head rest source
      exact Eval.ReportsCalls.form hinside source hdepth hfailed hrecur

/-- A world in which one call is in progress. -/
def Diagnosed.world : World :=
  { calls := [⟨"outer", none⟩] }

/-- A special form without its operand. -/
def Diagnosed.inner : Value :=
  .list [.sym (.intern "quote")] (some ⟨"a", "((quote))", 1, 7⟩)

/-- The failure of a form inside a form has the call in progress and the span of the inner
form, and leaves the outer form with both. -/
theorem run_keepsInnermostCalls_nested :
    ∃ f w' g w'',
      (run 2).evalList Heap.global Diagnosed.inner [] (some ⟨"a", "((quote))", 0, 9⟩)
        { Diagnosed.world with depth := 1 } = (.failed f, w') ∧
      f.cause.isRecur = false ∧ f.context.calls = Diagnosed.world.calls ∧
      f.context.source = some ⟨"a", "((quote))", 1, 7⟩ ∧
      run 3 (.eval Heap.global (.list [Diagnosed.inner] (some ⟨"a", "((quote))", 0, 9⟩)))
        Diagnosed.world = (.failed g, w'') ∧
      g.cause.isRecur = false ∧ f.KeptAs g ∧ Diagnosed.world.calls <:+ g.context.calls := by
  have hdepth : Diagnosed.world.depth < Diagnosed.world.options.maxDepth := by decide
  obtain ⟨f, w', hinside, hrecur, hcalls, hsource⟩ : ∃ f w',
      (run 2).evalList Heap.global Diagnosed.inner [] (some ⟨"a", "((quote))", 0, 9⟩)
        { Diagnosed.world with depth := 1 } = (.failed f, w') ∧ f.cause.isRecur = false ∧
      f.context.calls = Diagnosed.world.calls ∧
      f.context.source = some ⟨"a", "((quote))", 1, 7⟩ := ⟨_, _, rfl, rfl, rfl, rfl⟩
  have hsome : f.context.calls ≠ [] := by
    rw [hcalls]
    exact List.cons_ne_nil _ _
  obtain ⟨g, w'', hrun, hkept, -⟩ := (run_keepsInnermostCalls 2 Diagnosed.world).2 _ _ _ f w'
    (.form Heap.global Diagnosed.inner [] _ hdepth) hinside hrecur hsome
  have hgrecur : g.cause.isRecur = false := by
    rw [hkept.cause]
    exact hrecur
  have hends := (run_keepsInnermostCalls 3 Diagnosed.world).1 _ _ _ _ g w'' hdepth hrun hgrecur
  exact ⟨f, w', g, w'', hinside, hrecur, hcalls, hsource, hrun, hgrecur, hkept, hends⟩

end Lisp
