import Lisp.Proofs.Session

/-!
# Where a recur can go

A recur travels as a failure, through the same answers as all others.  It may
leave a form that stands in tail position, and the innermost application of a
procedure takes it and goes on with the call that it names.  Nothing else ever
sees one: no call ends in a recur, and neither does a form that is used in place
or a form that a host evaluates; so no builtin, no dispatch, no conversion and no
pattern meets one, and a handler lets it pass.

The congruence says nothing about the evaluations that a recur may leave, and
that the others never end in one.  What carries it through the whole evaluator is
that an evaluation in place (`Eval.noRecur`) and the loop of a procedure
(`Machine.callClosure_eq_rescue`) go from the first kind to the second.
-/

namespace Lisp

/-- No run of the evaluation ends in a recur. -/
def Eval.NeverRecurs (x : Eval α) : Prop :=
  ∀ w f, (x w).1 = .failed f → f.cause.isRecur = false

namespace Eval.NeverRecurs

variable {x : Eval α}

/-- One evaluation after another. -/
theorem bind {k : α → Eval β} (hx : x.NeverRecurs) (hk : ∀ a, x.Gives a → (k a).NeverRecurs) :
    (x >>= k).NeverRecurs := by
  intro w f hfailed
  rw [Eval.bind_run] at hfailed
  rcases hrun : x w with ⟨answer, w'⟩
  rw [hrun] at hfailed
  cases answer with
  | ok a => exact hk a ⟨w, w', hrun⟩ w' f hfailed
  | failed g =>
      cases hfailed
      exact hx w f (congrArg Prod.fst hrun)
  | outOfFuel => cases hfailed

/-- Rewording all failures into others than a recur. -/
theorem onFailure {g : World → Failure → Failure}
    (hg : ∀ w f w', (x w).1 = .failed f → (g w' f).cause.isRecur = false) :
    (x.onFailure g).NeverRecurs := by
  intro w f hfailed
  unfold Eval.onFailure at hfailed
  rcases hrun : x w with ⟨answer, w'⟩
  rw [hrun] at hfailed
  cases answer with
  | ok a => cases hfailed
  | outOfFuel => cases hfailed
  | failed g' =>
      cases hfailed
      exact hg w g' w' (congrArg Prod.fst hrun)

/-- A handler that takes every recur. -/
theorem rescue {takes : Failure → Bool} {handler : Failure → Eval α}
    (hx : x.NeverRecurs ∨ ∀ f, f.cause.isRecur = true → takes f = true)
    (hh : ∀ f, takes f = true → (handler f).NeverRecurs) :
    (x.rescue takes handler).NeverRecurs := by
  intro w f hfailed
  unfold Eval.rescue at hfailed
  rcases hrun : x w with ⟨answer, w'⟩
  rw [hrun] at hfailed
  cases answer with
  | ok a => cases hfailed
  | outOfFuel => cases hfailed
  | failed g =>
      dsimp only at hfailed
      by_cases htakes : takes g = true
      · rw [if_pos htakes] at hfailed
        exact hh g htakes w' f hfailed
      · rw [if_neg htakes] at hfailed
        cases hfailed
        rcases hx with hnever | htaken
        · exact hnever w f (congrArg Prod.fst hrun)
        · exact Bool.eq_false_iff.mpr fun hrecur => htakes (htaken f hrecur)

/-- A nested form, which may also be too deep. -/
theorem nested (hx : x.NeverRecurs) : (Eval.nested x).NeverRecurs := by
  intro w f hfailed
  unfold Eval.nested at hfailed
  split at hfailed
  · cases hfailed
    rfl
  · exact hx _ f hfailed

/-- A thrown value is no recur. -/
theorem raise (v : Value) : (Eval.raise (α := α) v).NeverRecurs := by
  intro w f hfailed
  cases v <;> cases hfailed <;> rfl

end Eval.NeverRecurs

/-- The congruence of evaluations that a recur leaves only where the flag allows
it. -/
def containingRecur : Congruence where
  nest := Eval.nested
  rel _ t x _ := t = false → x.NeverRecurs
  idle _ := fun _ _ hfailed => nomatch hfailed
  pure _ _ := fun _ _ hfailed => nomatch hfailed
  fail hfresh _ := by
    intro w f hfailed
    cases hfailed
    exact hfresh.1
  recur _ _ htail := nomatch htail
  raise v _ := Eval.NeverRecurs.raise v
  ask _ _ := fun _ _ hfailed => nomatch hfailed
  change _ _ := fun _ _ hfailed => nomatch hfailed
  memoize _ _ _ _ y _ hx ht :=
    Eval.memoized_related (R := fun x _ => x.NeverRecurs) (y := y)
      (fun _ _ _ hfailed => nomatch hfailed) (fun _ _ _ hfailed => nomatch hfailed)
      (fun hx hk => hx.bind fun a _ => hk a) (hx ht)
      ((hx ht).bind fun _ _ => fun _ _ hfailed => nomatch hfailed)
  define _ _ _ _ := fun _ _ hfailed => nomatch hfailed
  bind hx hk ht := (hx ht).bind fun a ha => hk a ha ht
  extend _ _ _ _ hk ht := fun _ f hfailed => hk _ ht _ f hfailed
  nested hx ht := (hx ht).nested
  inCall call _ _ hx ht := by
    have hreworded := Eval.NeverRecurs.onFailure (g := Eval.attachCalls) fun w f w' hfailed =>
      (congrArg Cause.isRecur (f.cause_withCalls w'.calls)).trans (hx ht w f hfailed)
    exact fun _ f hfailed => hreworded _ f hfailed
  inForm source _ _ hx ht := Eval.NeverRecurs.onFailure fun w f w' hfailed => by
    unfold Eval.attachCalls
    rw [Failure.cause_withCalls, Failure.cause_withSource]
    exact hx ht w f hfailed
  noRecur hfresh _ _ := Eval.NeverRecurs.onFailure fun w f w' _ => by
    cases hrecur : f.cause.isRecur with
    | true => exact hfresh.1
    | false => exact hrecur
  recover {_ _ s _ _ _} takes _ _ hx hh htaken ht := by
    refine Eval.NeverRecurs.rescue ?_ fun f hf => (hh f.cause hf).2 ht
    cases s with
    | false => exact .inl (hx rfl)
    | true => exact .inr fun f hrecur => htaken rfl ht f.cause hrecur
  attempt _ _ _ _ _ ht := nomatch ht

/-! ### The machine -/

/-- A machine in which a recur reaches the innermost application of a procedure
and nothing else. -/
structure Machine.ContainsRecur (m : Machine) : Prop where
  apply : ∀ source callee args, (m (.apply source callee args)).NeverRecurs
  unfold : ∀ sequence taken, (m (.unfold sequence taken)).NeverRecurs
  value : ∀ frame form, (m.value frame form).NeverRecurs
  interpret : ∀ frame form, (m.interpret frame form).NeverRecurs
  builtin : ∀ b args, (m.callBuiltin b args).NeverRecurs
  accessor : ∀ way subject args, (m.callAccessor way subject args).NeverRecurs
  dispatch : ∀ i args, (m.dispatch i args).NeverRecurs
  conversion : ∀ i target v, (m.convert i target v).NeverRecurs
  callable : ∀ v, (m.toCallable v).NeverRecurs
  expansion : ∀ id operands source, (m.expand id operands source).NeverRecurs
  pattern : ∀ mode frame pattern v, (m.destructure mode frame pattern v).NeverRecurs
  parameters : ∀ mode frame patterns vs, (m.destructureSequence mode frame patterns vs).NeverRecurs
  /-- A handler is not entered with a recur: it passes, and the world stays. -/
  handler : ∀ frame ops forms clause w f w',
    Machine.handlerOf? ops = some (forms, clause) → m.body frame forms w = (.failed f, w') →
      f.cause.isRecur = true → m.evalAttempt frame ops w = (.failed f, w')
  /-- The application of a closure goes on with the call that a recur names. -/
  loop : ∀ source id c receiver args w f w' target operands, w.heap.closures[id]? = some c →
    Eval.inCall ⟨c.displayName, source⟩ (m.runClosure c receiver args) w = (.failed f, w') →
      f.cause = .recur target operands →
        m.callClosure source id receiver args w = (.ok (.again (.apply source target operands)), w')

/-- A `try` lets a recur pass. -/
theorem Machine.evalAttempt_of_recur (m : Machine) {frame : FrameId} {ops forms clause : List Value}
    {w w' : World} {f : Failure} (hops : handlerOf? ops = some (forms, clause))
    (hbody : m.body frame forms w = (.failed f, w')) (hrecur : f.cause.isRecur = true) :
    m.evalAttempt frame ops w = (.failed f, w') := by
  rw [m.evalAttempt_eq_rescue frame hops]
  unfold Eval.rescue
  rw [hbody]
  simp only [hrecur, Bool.not_true, Bool.false_eq_true, if_false]

/-- The application of a closure takes a recur out of its body. -/
theorem Machine.callClosure_of_recur (m : Machine) {source : Option Span} {id : ClosureId}
    {c : Closure} {receiver : Option Value} {args operands : List Value} {target : Value}
    {w w' : World} {f : Failure} (hfound : w.heap.closures[id]? = some c)
    (hbody : Eval.inCall ⟨c.displayName, source⟩ (m.runClosure c receiver args) w = (.failed f, w'))
    (hcause : f.cause = .recur target operands) :
    m.callClosure source id receiver args w =
      (.ok (.again (.apply source target operands)), w') := by
  unfold Machine.callClosure
  simp only [hfound, hbody, hcause]

/-- No call, no value and no form that a host evaluates ends in a recur; a handler
lets it pass, and the innermost application of a procedure takes it. -/
theorem run_containsRecur (fuel : Nat) :
    (run fuel).ContainsRecur ∧
    (∀ text, (Interpreter.evalText text).NeverRecurs) ∧
    (∀ text file frame, (Interpreter.evalTextIn text file frame).NeverRecurs) ∧
    ∀ callee args, (Interpreter.apply callee args).NeverRecurs := by
  have h := containingRecur.machines fuel
  have hhost := containingRecur.machines Interpreter.fuel
  have htext := fun text file frame => hhost.evalTextIn (t := false) text file frame rfl
  refine ⟨?_, ?_, htext, fun callee args => hhost.call (e := none) (t := false) callee args rfl⟩
  · exact
      { apply := fun source callee args => h.apply (e := none) source callee args rfl
        unfold := fun sequence taken => h.unfold (e := none) sequence taken rfl
        value := fun frame form => h.value frame form rfl
        interpret := fun frame form => h.interpret frame form rfl
        builtin := fun b args => h.callBuiltin (e := none) b args rfl
        accessor := fun way subject args => h.callAccessor (e := none) way subject args rfl
        dispatch := fun i args => h.dispatch (e := none) i args rfl
        conversion := fun i target v => h.convert (e := none) i target v rfl
        callable := fun v => h.toCallable (e := none) v rfl
        expansion := fun id operands source => h.expand (e := none) id operands source rfl
        pattern := fun mode frame pattern v => h.destructure mode frame pattern v rfl
        parameters := fun mode frame patterns vs =>
          h.destructureSequence mode frame patterns vs rfl
        handler := fun _ _ _ _ _ _ _ hops hbody hrecur =>
          Machine.evalAttempt_of_recur _ hops hbody hrecur
        loop := fun _ _ _ _ _ _ _ _ _ _ hfound hbody hcause =>
          Machine.callClosure_of_recur _ hfound hbody hcause }
  · intro text
    refine Eval.NeverRecurs.bind (fun _ _ hfailed => nomatch hfailed) fun label _ => ?_
    exact htext text label Heap.global

end Lisp
