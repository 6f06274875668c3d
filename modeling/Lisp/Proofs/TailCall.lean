import Lisp.Proofs.Recur
import Lisp.Proofs.Balance
import Lisp.Proofs.TailCall.Marked
import Lisp.Proofs.TailCall.Quiet

/-!
# A recur is a tail call

A call in tail position is the last thing that a procedure does, so it makes no
difference whether the call is made inside the procedure or handed to the
application around it: `recur_comesTo_of_tail_call`.

The two runs go side by side up to the marked call, the first one with the plain
calls, the second with a `recur` around each of them (`run_write_tracked`).  From
there on the second run lags behind: it unwinds with the recur while the first one
makes the call deeper inside (`recurring`).  When the application has taken the
recur, the call is made from a world that differs from the one it was made from in
the calls in progress and a smaller depth only, and no handler is entered in it, so
it comes to the same value and the same world.
-/

namespace Lisp

/-- A run behind a recur: the call that the recur names has the value of the other
run, wherever it is made further out. -/
def recurring : Lag Value where
  behind a w f v := ∃ target args, f.cause = .recur target args ∧
    ∀ source v', v.Shallower v' →
      ∃ fuel v₁, run fuel (.apply source target args) v' = (.ok a, v₁) ∧ w.Alike v₁
  minds := Cause.isRecur
  tame {c} h := by
    cases c with
    | recur target args => rfl
    | _ => cases h
  unwind := by
    rintro a w w' f g v v' ⟨target, args, hcause, hcall⟩ hleft hright hsame
    refine ⟨target, args, hsame.trans hcause, fun source u hu => ?_⟩
    obtain ⟨fuel, v₁, hrun, halike⟩ := hcall source u (hright.trans hu)
    exact ⟨fuel, v₁, hrun, hleft.symm.trans halike⟩

/-- A call that is left to the application around it. -/
theorem tracked_recur {fuel : Nat} {source : Option Span} {callee : Value} {args : List Value}
    {w v : World} (hworlds : w.Shallower v)
    (hquiet : (run fuel (.apply source callee args) w).2.handled = w.handled) :
    Tracked recurring (run fuel (.apply source callee args) w)
      (Eval.fail { cause := .recur callee args } v) := by
  have hplace := fun place => run_apply_tracks fuel source place callee args
  have hnever := ((run_containsRecur fuel).1.apply source callee args) w
  rcases hrun : run fuel (.apply source callee args) w with ⟨answer, w₁⟩
  rw [hrun] at hquiet hnever
  cases answer with
  | outOfFuel => exact .outOfFuel
  | failed f => exact .wild (hnever f rfl)
  | ok a =>
      refine .later ⟨callee, args, rfl, fun place v' hv' => ?_⟩
      have hend := (hplace place).tracks w v' (hworlds.trans hv') (by rw [hrun]; exact hquiet)
      rw [hrun] at hend
      obtain ⟨v₁, hother, hlater⟩ := hend.of_ok
      exact ⟨fuel, v₁, hother, hlater.same⟩

/-- A form that is entered, from a world one level deeper. -/
theorem tracked_entered {x y : Eval Value} {source place : Option Span} {w v : World}
    (hworlds : w.Shallower v)
    (hquiet : (Eval.nested (Eval.inForm source x) w).2.handled = w.handled)
    (h : World.Shallower { w with depth := w.depth + 1 } { v with depth := v.depth + 1 } →
      (x { w with depth := w.depth + 1 }).2.handled = w.handled →
        Tracked recurring (x { w with depth := w.depth + 1 })
          (y { v with depth := v.depth + 1 })) :
    Tracked recurring (Eval.nested (Eval.inForm source x) w)
      (Eval.nested (Eval.inForm place y) v) := by
  refine Tracked.nested hworlds fun hdeep => ?_
  unfold Eval.nested at hquiet
  rw [if_neg hdeep] at hquiet
  have hinside : (x { w with depth := w.depth + 1 }).2.handled = w.handled := by
    rw [← Eval.handled_onFailure x fun w f => Eval.attachCalls w (f.withSource source)]
    exact hquiet
  exact (h (hworlds.withDepth (Nat.succ_le_succ hworlds.depth)) hinside).inForm source place

/-- A marked call: its head and its operands have the same values in both runs. -/
theorem tracked_call {n limit : Nat} (hle : n ≤ limit) {frame : FrameId} {head : Value}
    {operands : List Value} {source place : Option Span}
    (isCall : Value.headForm? [head] = none) {w v : World} (hworlds : w.Shallower v)
    (hquiet : ((run n).evalStep frame (.list (head :: operands) source) w).2.handled = w.handled)
    (hheads : ∀ callee w',
      (run limit).Reaches frame (.call head operands source place isCall) w callee w' →
        Machine.expander? callee w' = (.ok none, w')) :
    Tracked recurring ((run n).evalStep frame (.list (head :: operands) source) w)
      ((run n).evalStep frame
        (SpecialForm.recurring.write [.list (head :: operands) source] place) v) := by
  have hmachine := run_tracks n
  have hvalue := hmachine.value (t := true) frame head
  have hoperands := hmachine.operands (t := true) frame operands
  rw [Machine.evalStep_recur]
  rw [Machine.evalStep_call _ _ _ _ isCall] at hquiet ⊢
  refine tracked_entered hworlds hquiet fun hentered hinside => ?_
  have hcall := fun callee => hmachine.callWith frame operands source callee
  refine Eval.Tracks.tracked_bind hvalue (fun callee _ => (hcall callee).grows) hentered hinside ?_
  intro callee w₁ v₁ hrun hlater hrest
  have hplain : Machine.expander? callee w₁ = (.ok none, w₁) :=
    hheads callee w₁ (.call (((run_extends hle).value (t := true) frame head).of_ok hrun))
  unfold Machine.callWith at hrest ⊢
  rw [Eval.bind_run, hplain] at hrest ⊢
  refine Eval.Tracks.tracked_bind hoperands ?_ hlater hrest ?_
  · exact fun args _ => (hmachine.apply (e := none) (t := true) source callee args).grows
  · intro args w₂ v₂ _ hlast hquiet
    exact tracked_recur hlast hquiet

/-- The two ways to write a form run side by side: to the same end, or to a recur that
is a call of the other run. -/
theorem run_write_tracked {n limit : Nat} (hle : n ≤ limit) (frame : FrameId) (form : TailForm)
    {w v : World} (hworlds : w.Shallower v)
    (hquiet : (run n (.eval frame (form.write false)) w).2.handled = w.handled)
    (hheads : ∀ callee w', (run limit).Reaches frame form w callee w' →
      Machine.expander? callee w' = (.ok none, w')) :
    Tracked recurring (run n (.eval frame (form.write false)) w)
      (run n (.eval frame (form.write true)) v) := by
  induction n generalizing frame form w v with
  | zero => exact .outOfFuel
  | succ n ih =>
      have hless : n ≤ limit := Nat.le_of_succ_le hle
      have hmachine := run_tracks n
      have hopen : form.isOpen = true →
          Tracked recurring (run (n + 1) (.eval frame (form.write false)) w)
            (run (n + 1) (.eval frame (form.write true)) v) := by
        intro hform
        rw [run_eval_succ, Machine.evalStep_write _ _ _ hform] at hquiet ⊢
        rw [run_eval_succ, Machine.evalStep_write _ _ _ hform]
        refine tracked_entered hworlds hquiet fun hentered hinside => ?_
        have hstep := hmachine.tailStep (t := true) frame form
        refine Eval.Tracks.tracked_bind hstep ?_ hentered hinside ?_
        · intro tail _
          cases tail with
          | none => exact (Eval.Tracks.pure Value.nil).grows
          | some tail => exact (hmachine.eval tail.1 (tail.2.write false)).grows
        · intro tail w₁ v₁ hrun hlater hrest
          cases tail with
          | none => exact .ok _ hlater
          | some tail =>
              refine ih hless tail.1 tail.2 hlater hrest fun callee w' hreaches => ?_
              have hfirst := ((run_extends hless).tailStep (t := true) frame form).of_ok hrun
              exact hheads callee w' (.inside hfirst hreaches)
      cases form with
      | other form =>
          have hsame := ((run_tracks (n + 1)).eval frame form).tracks w v hworlds hquiet
          exact hsame.of_never
      | call head operands source place isCall =>
          rw [run_eval_succ] at hquiet ⊢
          rw [run_eval_succ]
          exact tracked_call hless isCall hworlds hquiet hheads
      | _ => exact hopen rfl

/-! ### Applications -/

/-- A procedure as it is called on a receiver, if there is one. -/
def Value.withReceiver : (receiver : Option Value) → (procedure : Value) → Value
  | none, procedure => procedure
  | some receiver, procedure => .bound receiver procedure

/-- The application of a closure to its end. -/
theorem run_apply_closure (n : Nat) (source : Option Span) (receiver : Option Value)
    (id : ClosureId) (args : List Value) {w : World} {c : Closure}
    (hfound : w.heap.closures[id]? = some c) :
    run (n + 1) (.apply source (.withReceiver receiver (.closure id)) args) w =
      (Eval.inCall ⟨c.displayName, source⟩ ((run n).runClosure c receiver args)).rescue
        (fun f => f.cause.isRecur) (fun f => (run n).resume source f.cause) w := by
  have hstep : (run n).applyStep source (.withReceiver receiver (.closure id)) args =
      (run n).callClosure source id receiver args := by
    cases receiver <;> rfl
  rw [run_apply_succ, hstep, Machine.callClosure_follow, Eval.bind_run]
  simp only [Eval.ask, hfound]

/-- Worlds that two runs from one world end in are the same if they are alike. -/
theorem World.Alike.eq_of_balanced {u w v : World} (h : w.Alike v) (hw : u.Balanced w)
    (hv : u.Balanced v) : v = w := by
  have hcalls : v.calls = w.calls := hv.calls.trans hw.calls.symm
  have hdepth : v.depth = w.depth := hv.depth.trans hw.depth.symm
  rw [h, hcalls, hdepth]

/-- No marked call of a closure that the application from the world gets to is a macro
call. -/
def Machine.TailCallsProcedures (m : Machine) (call : Call) (c : Closure)
    (receiver : Option Value) (args forms : List Value) (last : TailForm) (w : World) : Prop :=
  ∀ frame w₁ callee w₂,
    m.enter c receiver args forms { w with calls := call :: w.calls } = (.ok frame, w₁) →
      m.Reaches frame last w₁ callee w₂ → Machine.expander? callee w₂ = (.ok none, w₂)

/-- The bodies of two closures that differ in their marked calls only. -/
theorem tracked_closure {n limit : Nat} (hle : n ≤ limit) {c : Closure} (name : Option Symbol)
    {receiver : Option Value} {args forms : List Value} {last : TailForm} {call : Call}
    (call' : Call) {w : World}
    (hquiet : (Eval.inCall call ((run n).runClosure
      { c with body := forms ++ [last.write false] } receiver args) w).2.handled = w.handled)
    (hheads : (run limit).TailCallsProcedures call c receiver args forms last w) :
    Tracked recurring
      (Eval.inCall call ((run n).runClosure
        { c with body := forms ++ [last.write false] } receiver args) w)
      (Eval.inCall call' ((run n).runClosure
        { c with body := forms ++ [last.write true], name } receiver args) w) := by
  have hmachine := run_tracks n
  have henter := hmachine.enter (e := none) (t := true) c receiver args forms
  rw [Machine.runClosure_append _ _ _ _ forms (last.write false) rfl] at hquiet ⊢
  rw [Machine.runClosure_append _ _ _ _ forms (last.write true) rfl]
  have hentered : World.Shallower { w with calls := call :: w.calls }
      { w with calls := call' :: w.calls } := (World.Shallower.refl w).withCalls _ _
  have hinside := (Eval.handled_onFailure _ Eval.attachCalls _).symm.trans hquiet
  refine Tracked.inCall call call' (henter.tracked_bind ?_ hentered hinside ?_)
  · exact fun frame _ => (hmachine.eval frame (last.write false)).grows
  · intro frame w₁ v₁ hframe hlater hrest
    refine run_write_tracked hle frame last hlater hrest fun callee w₂ hreaches => ?_
    have hfirst : (run limit).enter c receiver args forms { w with calls := call :: w.calls } =
        (.ok frame, w₁) :=
      ((run_extends hle).enter (e := none) (t := true) c receiver args forms).of_ok hframe
    exact hheads frame w₁ callee w₂ hfirst hreaches

/-- The application of a closure whose body ends in a recur comes to what the call
that the recur names comes to. -/
theorem comesTo_of_recur {source : Option Span} {receiver : Option Value} {id : ClosureId}
    {args operands : List Value} {target : Value} {c : Closure} {w w₁ w' : World} {f : Failure}
    {v : Value} {n fuel : Nat} (hfound : w.heap.closures[id]? = some c)
    (hbody : Eval.inCall ⟨c.displayName, source⟩ ((run n).runClosure c receiver args) w =
      (.failed f, w₁))
    (hcause : f.cause = .recur target operands)
    (hcall : run fuel (.apply source target operands) w₁ = (.ok v, w')) :
    ComesTo (fun m => m (.apply source (.withReceiver receiver (.closure id)) args)) w
      (.ok v) w' := by
  -- Both parts are the same with fuel for the longer one.
  have hleft : n ≤ max n fuel := Nat.le_max_left n fuel
  have hright : fuel ≤ max n fuel := Nat.le_max_right n fuel
  have hclosure := (run_extends hleft).runClosure (e := none) c receiver args
  have hbody' := (hclosure.inCall ⟨c.displayName, source⟩).of_failed hbody
  have hcall' := ((run_extends hright).apply (e := none) (t := true) source target operands).of_ok
    hcall
  refine ⟨nofun, max n fuel + 1, ?_⟩
  show run (max n fuel + 1) _ w = _
  rw [run_apply_closure _ _ _ _ _ hfound]
  unfold Eval.rescue
  simp only [hbody', hcause, Cause.isRecur, if_true]
  exact hcall'

/-- A call leaves what it has entered. -/
theorem balanced_of_call {fuel : Nat} {source : Option Span} {callee : Value} {args : List Value}
    {w w' : World} {answer : Answer Value}
    (h : run fuel (.apply source callee args) w = (answer, w')) : w.Balanced w' := by
  have hmachine := leaving.congruence.machines fuel
  have hend : w.Balanced (run fuel (.apply source callee args) w).2 :=
    hmachine.apply (e := none) (t := true) source callee args w
  rw [h] at hend
  exact hend

/-- Alike ends of two calls from one world are the same. -/
theorem ComesTo.of_alike {callee : Value} {args : List Value} {source : Option Span}
    {w w₁ w' : World} {v : Value}
    (h : ComesTo (fun m => m (.apply source callee args)) w (.ok v) w₁) (halike : w'.Alike w₁)
    (hbalanced : w.Balanced w') :
    ComesTo (fun m => m (.apply source callee args)) w (.ok v) w' := by
  obtain ⟨hanswer, fuel, hrun⟩ := h
  have hworld : w₁ = w' := halike.eq_of_balanced hbalanced (balanced_of_call hrun)
  exact ⟨hanswer, fuel, hworld ▸ hrun⟩

section Closures

variable {source : Option Span} {receiver : Option Value} {id : ClosureId} {args : List Value}
  {c : Closure} {w w₁ w' : World} {v : Value} {n : Nat}

/-- Where the body with the plain calls has a value, so has the application with the
recurs: at once, or after the call that was left to it. -/
theorem comesTo_of_tracked_value (hfound : w.heap.closures[id]? = some c)
    (htracked : Tracked recurring (.ok v, w')
      (Eval.inCall ⟨c.displayName, source⟩ ((run n).runClosure c receiver args) w))
    (hbalanced : w.Balanced w') :
    ComesTo (fun m => m (.apply source (.withReceiver receiver (.closure id)) args)) w
      (.ok v) w' := by
  rcases hbody : Eval.inCall ⟨c.displayName, source⟩ ((run n).runClosure c receiver args) w with
    ⟨answer, v₁⟩
  rw [hbody] at htracked
  cases htracked with
  | ok _ hworlds =>
      refine ComesTo.of_alike ⟨nofun, n + 1, ?_⟩ hworlds.same hbalanced
      show run (n + 1) _ w = _
      rw [run_apply_closure _ _ _ _ _ hfound]
      unfold Eval.rescue
      rw [hbody]
  | later hbehind =>
      obtain ⟨target, operands, hcause, hlater⟩ := hbehind
      obtain ⟨fuel, v₂, hend, halike⟩ := hlater source v₁ (.refl v₁)
      exact (comesTo_of_recur hfound hbody hcause hend).of_alike halike hbalanced

/-- Where the body with the plain calls ends in a recur, out of a form without marks,
so does the one with the recurs. -/
theorem comesTo_of_tracked_recur {f : Failure} {target : Value} {operands : List Value}
    (hfound : w.heap.closures[id]? = some c)
    (htracked : Tracked recurring (.failed f, w₁)
      (Eval.inCall ⟨c.displayName, source⟩ ((run n).runClosure c receiver args) w))
    (hcause : f.cause = .recur target operands)
    (hnext : run n (.apply source target operands) w₁ = (.ok v, w'))
    (hquiet : w'.handled = w₁.handled) (hbalanced : w.Balanced w') :
    ComesTo (fun m => m (.apply source (.withReceiver receiver (.closure id)) args)) w
      (.ok v) w' := by
  have hminds : recurring.minds f.cause = true := by
    rw [hcause]
    rfl
  obtain ⟨g, v₁, hbody, hsame, hworlds⟩ := htracked.of_minded hminds
  have hcall := (run_tracks n).apply (e := none) (t := true) source target operands
  have hend := hcall.tracks w₁ v₁ hworlds
  rw [hnext] at hend
  obtain ⟨v₂, hother, hlater⟩ := (hend hquiet).of_ok
  exact (comesTo_of_recur hfound hbody (hsame.trans hcause) hother).of_alike hlater.same hbalanced

end Closures

/-- A recur around the calls in tail position makes no difference.  Let two closures
differ in nothing but that: if the one with the plain calls returns a value, none of
these calls is a macro call and no handler is entered, then the one with the recurs
returns the same value and leaves the same world. -/
theorem recur_comesTo_of_tail_call (c : Closure) (name : Option Symbol) (forms : List Value)
    (last : TailForm) (receiver : Option Value) (args : List Value) (source : Option Span)
    (i j : ClosureId) (fuel : Nat) (v : Value) (w w' : World)
    (hplain : w.heap.closures[i]? = some { c with body := forms ++ [last.write false] })
    (hrecur : w.heap.closures[j]? = some { c with body := forms ++ [last.write true], name })
    (hrun : run fuel (.apply source (.withReceiver receiver (.closure i)) args) w = (.ok v, w'))
    (hquiet : w'.handled = w.handled)
    (hheads : (run fuel).TailCallsProcedures ⟨c.displayName, source⟩ c receiver args forms last w) :
    ComesTo (fun m => m (.apply source (.withReceiver receiver (.closure j)) args)) w (.ok v) w' := by
  have hbalanced := balanced_of_call hrun
  cases fuel with
  | zero => cases hrun
  | succ n =>
      have hbody := (run_tracks n).runClosure (e := none)
        { c with body := forms ++ [last.write false] } receiver args
      have hbefore := (hbody.inCall ⟨c.displayName, source⟩ ⟨c.displayName, source⟩).grows w
      have htracked := fun call' hquiet =>
        tracked_closure (Nat.le_succ n) name call' hquiet hheads
      rw [run_apply_closure _ _ _ _ _ hplain] at hrun
      unfold Eval.rescue at hrun
      rcases hleft : Eval.inCall ⟨c.displayName, source⟩ ((run n).runClosure
        { c with body := forms ++ [last.write false] } receiver args) w with ⟨answer, w₁⟩
      rw [hleft] at htracked hbefore
      rw [show Closure.displayName { c with body := forms ++ [last.write false] } = c.displayName
        from rfl, hleft] at hrun
      cases answer with
      | outOfFuel => cases hrun
      | ok a =>
          cases hrun
          exact comesTo_of_tracked_value hrecur (htracked _ hquiet) hbalanced
      | failed f =>
          obtain ⟨cause, context⟩ := f
          cases cause with
          | recur target operands =>
              have hnext : run n (.apply source target operands) w₁ = (.ok v, w') := hrun
              have hafter :=
                ((run_tracks n).apply (e := none) (t := true) source target operands).grows w₁
              rw [hnext, hquiet] at hafter
              have hmiddle : w₁.handled = w.handled := Nat.le_antisymm hafter hbefore
              exact comesTo_of_tracked_recur hrecur (htracked _ hmiddle) rfl hnext
                (hquiet.trans hmiddle.symm) hbalanced
          | _ => cases hrun

/-- The body `"first" (if false "never" (List true))`, its call marked. -/
def markedBranch : TailForm :=
  .branch (.bool false) [.other (.str "never"), .call (.type .list) [.bool true] none none rfl] none

/-- A procedure without parameters, with a body that ends in the marked branch. -/
def branching (recurs : Bool) : Closure where
  params := []
  body := [.str "first"] ++ [markedBranch.write recurs]
  frame := Heap.global
  expands := false

/-- A world with both ways to write the procedure. -/
def branchingWorld : World :=
  { heap := { closures := #[branching false, branching true] } }

/-- The value of the marked call, through a plain call and through a recur. -/
theorem recur_comesTo_of_branch :
    ∃ w', run 6 (.apply none (.closure 0) []) branchingWorld = (.ok (.ofList [.bool true]), w') ∧
      w'.handled = branchingWorld.handled ∧
      ComesTo (fun m => m (.apply none (.closure 1) [])) branchingWorld
        (.ok (.ofList [.bool true])) w' := by
  have hvalue : (run 6 (.apply none (.closure 0) []) branchingWorld).1 =
      .ok (.ofList [.bool true]) := rfl
  have hquiet : (run 6 (.apply none (.closure 0) []) branchingWorld).2.handled =
      branchingWorld.handled := rfl
  have hheads : (run 6).TailCallsProcedures ⟨"anonymous", none⟩ (branching false) none []
      [.str "first"] markedBranch branchingWorld := by
    intro frame w₁ callee w₂ _ hreaches
    cases hreaches with
    | inside hstep hrest =>
        cases hstep
        cases hrest with
        | call hhead =>
            cases hhead
            rfl
        | inside hstep _ => cases hstep
  refine ⟨_, Prod.ext hvalue rfl, hquiet, ?_⟩
  exact recur_comesTo_of_tail_call (branching false) none [.str "first"] markedBranch none [] none
    0 1 6 _ branchingWorld _ rfl rfl (Prod.ext hvalue rfl) hquiet hheads

end Lisp
