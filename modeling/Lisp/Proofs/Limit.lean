import Lisp.Proofs.Alarm
import Lisp.Proofs.Session

/-!
# Raising the limit

The nesting limit has a say in a run only where it is reached.  So a run in which no
form is ever too deep is the same under every greater limit: it has the same answer,
be it a value or a failure with its whole context, and it ends in the same world, the
limit apart (`run_unchanged_by_limit`).

A form that is too deep fails, and a handler may take that failure.  That it never
happens is said with an alarm: `alarmedRun` is the machine with fuel that raises an
alarm instead of this failure, and a run is `NeverTooDeep` if no alarm makes a
difference to it.

The proof compares a run under the greater limit with the run under alarm
(`Congruence.raising`): either the alarm went off and halted the run, or both do the
same.
-/

namespace Lisp

/-- The same world under another limit. -/
def World.withLimit (w : World) (limit : Nat) : World :=
  { w with options := { w.options with maxDepth := limit } }

/-- Runs one level deeper, with an alarm where the limit does not allow it. -/
def Eval.nestedOr (alarm x : Eval α) : Eval α := fun w =>
  if w.options.maxDepth < w.depth + 1 then alarm w
  else
    match x { w with depth := w.depth + 1 } with
    | (answer, w) => (answer, { w with depth := w.depth - 1 })

/-- The machine with fuel that raises an alarm where a form is too deep. -/
def alarmedRun (alarm : Eval Value) : (fuel : Nat) → Machine :=
  runWith (Eval.nestedOr alarm)

/-- In the run from the world, no form is ever too deep. -/
def NeverTooDeep (x : Machine → Eval α) (fuel : Nat) (w : World) : Prop :=
  ∀ alarm, x (alarmedRun alarm fuel) w = x (run fuel) w

/-! ### Runs under alarm -/

/-- Unless the mark says that the second evaluation was halted, the first one does the
same under every greater limit. -/
def Eval.SameAbove (mark : String) (x y : Eval α) : Prop :=
  ∀ w limit, w.options.maxDepth ≤ limit →
    Halted mark (y w) ∨
      ((y w).2.options = w.options ∧
        x (w.withLimit limit) = ((y w).1, (y w).2.withLimit limit))

namespace Eval.SameAbove

variable {α β : Type} {mark : String} {x y : Eval α}

/-- An evaluation that reads no limit and leaves the options alone. -/
theorem of_blind
    (h : ∀ w limit, (x w).2.options = w.options ∧
      x (w.withLimit limit) = ((x w).1, (x w).2.withLimit limit)) :
    x.SameAbove mark x :=
  fun w limit _ => .inr (h w limit)

/-- A question that is not about the limit. -/
theorem ask {view : World → α} (hblind : ∀ w standing, view (w.elsewhere standing) = view w) :
    (Eval.ask view).SameAbove mark (Eval.ask view) :=
  of_blind fun w limit => by
    have hview := hblind w ⟨w.calls, w.depth, limit⟩
    exact ⟨rfl, congrArg (fun a => (Answer.ok a, w.withLimit limit)) hview⟩

/-- One evaluation after another. -/
theorem bind {k l : α → Eval β} (hxy : x.SameAbove mark y)
    (hkl : ∀ a, x.Gives a → (k a).SameAbove mark (l a)) :
    (x >>= k).SameAbove mark (y >>= l) := by
  intro w limit hlimit
  rcases hxy w limit hlimit with hhalted | ⟨hoptions, hx⟩
  · exact .inl (hhalted.bind l)
  · rw [bind_run, bind_run, hx]
    rcases hy : y w with ⟨answer, w'⟩
    rw [hy] at hx hoptions
    cases answer with
    | ok a =>
        have hw' : w'.options.maxDepth ≤ limit := by rwa [hoptions]
        rcases hkl a ⟨_, _, hx⟩ w' limit hw' with hhalted | ⟨hafter, hk⟩
        · exact .inl hhalted
        · exact .inr ⟨hafter.trans hoptions, hk⟩
    | failed f => exact .inr ⟨hoptions, rfl⟩
    | outOfFuel => exact .inr ⟨hoptions, rfl⟩

/-- Rewording a failure without a look at the limit. -/
theorem onFailure {g : World → Failure → Failure}
    (hg : ∀ w limit f, g (w.withLimit limit) f = g w f)
    (hxy : x.SameAbove mark y) : (x.onFailure g).SameAbove mark (y.onFailure g) := by
  intro w limit hlimit
  rcases hxy w limit hlimit with hhalted | ⟨hoptions, hx⟩
  · exact .inl (hhalted.onFailure g)
  · unfold Eval.onFailure
    rw [hx]
    rcases hy : y w with ⟨answer, w'⟩
    rw [hy] at hoptions
    cases answer with
    | ok a => exact .inr ⟨hoptions, rfl⟩
    | outOfFuel => exact .inr ⟨hoptions, rfl⟩
    | failed f =>
        refine .inr ⟨hoptions, ?_⟩
        dsimp only
        rw [hg]

/-- A handler goes on with the failure that both have. -/
theorem rescue {takes : Failure → Bool} {h l : Failure → Eval α} (hxy : x.SameAbove mark y)
    (hhl : ∀ f, takes f = true → (h f).SameAbove mark (l f)) :
    (x.rescue takes h).SameAbove mark (y.rescue takes l) := by
  intro w limit hlimit
  rcases hxy w limit hlimit with hhalted | ⟨hoptions, hx⟩
  · exact .inl (hhalted.rescue takes l)
  · unfold Eval.rescue
    rw [hx]
    rcases hy : y w with ⟨answer, w'⟩
    rw [hy] at hoptions
    cases answer with
    | ok a => exact .inr ⟨hoptions, rfl⟩
    | outOfFuel => exact .inr ⟨hoptions, rfl⟩
    | failed f =>
        dsimp only
        by_cases htakes : takes f = true
        · rw [if_pos htakes, if_pos htakes]
          have hw' : w'.options.maxDepth ≤ limit := by rwa [hoptions]
          rcases hhl f htakes w' limit hw' with hhalted | ⟨hafter, hh⟩
          · exact .inl hhalted
          · exact .inr ⟨hafter.trans hoptions, hh⟩
        · rw [if_neg htakes, if_neg htakes]
          exact .inr ⟨hoptions, rfl⟩

/-- A failure becomes the same value. -/
theorem reify (f : Failure) : (Eval.reify f).SameAbove mark (Eval.reify f) := by
  unfold Eval.reify
  split
  · exact of_blind fun _ _ => ⟨rfl, rfl⟩
  · exact of_blind fun _ _ => ⟨rfl, rfl⟩

/-- A `try`, whose handler works in the same new frame. -/
theorem attempt {x y : Eval Value} (frame : FrameId)
    {h l : Option (Value → FrameId → Eval Value)} (hxy : x.SameAbove mark y)
    (hhl : Option.Rel
      (fun h l => ∀ caught inner, (h caught inner).SameAbove mark (l caught inner)) h l) :
    (x.attempt frame h).SameAbove mark (y.attempt frame l) := by
  refine hxy.rescue fun f _ => (reify f).bind fun caught _ => ?_
  cases hhl with
  | none => exact of_blind fun _ _ => ⟨rfl, rfl⟩
  | some hbody =>
      exact (of_blind fun _ _ => ⟨rfl, rfl⟩).bind fun inner _ => hbody caught inner

/-- A nested form: where the smaller limit allows it, the greater one does. -/
theorem nested {x y : Eval Value} (hxy : x.SameAbove mark y) :
    (Eval.nested x).SameAbove mark (Eval.nestedOr (Eval.halt mark) y) := by
  intro w limit hlimit
  unfold Eval.nestedOr
  by_cases hdeep : w.options.maxDepth < w.depth + 1
  · rw [if_pos hdeep]
    exact .inl (Eval.halt_halted mark w)
  · rw [if_neg hdeep]
    have hroom : ¬ (w.withLimit limit).options.maxDepth < (w.withLimit limit).depth + 1 :=
      Nat.not_lt.mpr (Nat.le_trans (Nat.not_lt.mp hdeep) hlimit)
    rcases hxy { w with depth := w.depth + 1 } limit hlimit with hhalted | ⟨hoptions, hx⟩
    · exact .inl hhalted
    · refine .inr ⟨hoptions, ?_⟩
      unfold Eval.nested
      rw [if_neg hroom]
      exact congrArg (fun r : Answer Value × World => (r.1, { r.2 with depth := r.2.depth - 1 })) hx

/-- A call. -/
theorem inCall (call : Call) (hxy : x.SameAbove mark y) :
    (Eval.inCall call x).SameAbove mark (Eval.inCall call y) := by
  intro w limit hlimit
  have hreworded := hxy.onFailure (g := Eval.attachCalls) fun _ _ _ => rfl
  rcases hreworded { w with calls := call :: w.calls } limit hlimit with hhalted | ⟨hoptions, hx⟩
  · exact .inl hhalted
  · exact .inr ⟨hoptions,
      congrArg (fun r : Answer α × World => (r.1, { r.2 with calls := r.2.calls.tail })) hx⟩

end Eval.SameAbove

/-- The congruence of a run under a greater limit with the run under an alarm that
halts it. -/
def Congruence.raising (mark : String) : Congruence where
  nest := Eval.nestedOr (Eval.halt mark)
  rel _ _ x y := x.SameAbove mark y
  idle := .of_blind fun _ _ => ⟨rfl, rfl⟩
  pure _ := .of_blind fun _ _ => ⟨rfl, rfl⟩
  fail _ := .of_blind fun _ _ => ⟨rfl, rfl⟩
  recur _ _ := .of_blind fun _ _ => ⟨rfl, rfl⟩
  raise v := .of_blind fun _ _ => by cases v <;> exact ⟨rfl, rfl⟩
  ask := .ask
  change edit := .of_blind fun _ _ => by cases edit <;> exact ⟨rfl, rfl⟩
  memoize _ _ _ _ _ _ hx :=
    Eval.memoized_related (R := Eval.SameAbove mark) (fun _ => .of_blind fun _ _ => ⟨rfl, rfl⟩)
      .ask (fun hx hk => hx.bind fun a _ => hk a) hx
      (hx.bind fun _ _ => .of_blind fun _ _ => ⟨rfl, rfl⟩)
  define _ _ _ := .of_blind fun _ _ => ⟨rfl, rfl⟩
  bind := .bind
  extend _ _ _ _ hk := .bind (.of_blind fun _ _ => ⟨rfl, rfl⟩) fun id _ => hk id
  nested := .nested
  inCall call _ _ hx := hx.inCall call
  inForm _ _ _ hx := hx.onFailure fun _ _ _ => rfl
  noRecur _ hx := hx.onFailure fun _ _ _ => rfl
  recover _ _ _ hx hh _ := hx.rescue fun f hf => (hh f.cause hf).2
  attempt frame _ _ hx hh := hx.attempt frame hh

/-! ### Runs and programs -/

/-- Evaluates a program in the global frame, after the prelude if asked for. -/
def Machine.launch (m : Machine) (withPrelude : Bool) (text : String) : Eval Value := do
  if withPrelude then
    let _ ← m.evalTextIn Prelude.text Prelude.label Heap.global
  m.evalTextIn text (← Eval.ask (·.options.sourceLabel)) Heap.global

/-- Under the other limit, the evaluation has the same answer and ends in the same
world, the limit apart. -/
def Eval.SameUnder (limit : Nat) (x : Eval α) (w : World) : Prop :=
  x (w.withLimit limit) = ((x w).1, (x w).2.withLimit limit)

/-- What is the same above the limit unless it is halted, is the same if no form is
ever too deep. -/
theorem NeverTooDeep.sameUnder {x : Machine → Eval α} {fuel limit : Nat} {w : World}
    (hnever : NeverTooDeep x fuel w) (hlimit : w.options.maxDepth ≤ limit)
    (hsame : ∀ mark, (x (run fuel)).SameAbove mark (x (alarmedRun (Eval.halt mark) fuel))) :
    (x (run fuel)).SameUnder limit w := by
  obtain ⟨mark, hmark⟩ := exists_not_halted hnever
  rcases hsame mark w limit hlimit with hhalted | ⟨-, hrun⟩
  · exact absurd hhalted hmark
  · rwa [hnever] at hrun

/-- A program. -/
theorem Congruence.Machines.launch {C : Congruence} {t : Bool} {m n : Machine}
    (h : C.Machines m n) (withPrelude : Bool) (text : String) :
    C.rel (some Heap.global) t (m.launch withPrelude text) (n.launch withPrelude text) := by
  have hprogram : C.rel (some Heap.global) t
      (Eval.ask (·.options.sourceLabel) >>= fun label => m.evalTextIn text label Heap.global)
      (Eval.ask (·.options.sourceLabel) >>= fun label => n.evalTextIn text label Heap.global) :=
    C.seq (C.ask fun _ _ => rfl) fun label => h.evalTextIn text label Heap.global
  cases withPrelude with
  | false => exact hprogram
  | true => exact C.seq (h.evalTextIn _ _ _) fun _ => hprogram

/-- A run in which no form is ever too deep is the same under every greater limit: the
answer to a request, the value of a text in a frame, and the value of a program, after
the prelude or without it. -/
theorem run_unchanged_by_limit (fuel limit : Nat) (w : World)
    (hlimit : w.options.maxDepth ≤ limit) :
    (∀ request, NeverTooDeep (· request) fuel w → (run fuel request).SameUnder limit w) ∧
    (∀ text file frame, NeverTooDeep (·.evalTextIn text file frame) fuel w →
      ((run fuel).evalTextIn text file frame).SameUnder limit w) ∧
    ∀ withPrelude text, NeverTooDeep (·.launch withPrelude text) fuel w →
      ((run fuel).launch withPrelude text).SameUnder limit w := by
  have hmachines := fun mark => (Congruence.raising mark).machines fuel
  refine ⟨fun request hnever => ?_, fun text file frame hnever => ?_,
    fun withPrelude text hnever => ?_⟩
  · refine hnever.sameUnder hlimit fun mark => ?_
    cases request with
    | eval frame form => exact (hmachines mark).eval frame form
    | apply source callee args =>
        exact (hmachines mark).apply (e := none) (t := true) source callee args
    | unfold sequence taken =>
        exact (hmachines mark).unfold (e := none) (t := true) sequence taken
  · refine hnever.sameUnder hlimit fun mark => ?_
    exact (hmachines mark).evalTextIn (t := true) text file frame
  · refine hnever.sameUnder hlimit fun mark => ?_
    exact (hmachines mark).launch (t := true) withPrelude text

/-- A program that reaches its limit of two levels and stays within it. -/
theorem run_unchanged_by_limit_at_limit :
    (World.withFiles { maxDepth := 2 } {}).options.maxDepth ≤ 7 ∧
    NeverTooDeep (·.launch false "(if true 'a ())") 3 (.withFiles { maxDepth := 2 } {}) ∧
    (∃ f, ((run 3).launch false "(if true 'a ())" (.withFiles { maxDepth := 1 } {})).1 =
      .failed f) ∧
    ((run 3).launch false "(if true 'a ())" (.withFiles { maxDepth := 2 } {})).1 =
      .ok (.sym (.intern "a")) ∧
    ((run 3).launch false "(if true 'a ())").SameUnder 7 (.withFiles { maxDepth := 2 } {}) := by
  have hlimit : (World.withFiles { maxDepth := 2 } {}).options.maxDepth ≤ 7 := by decide
  have hnever : NeverTooDeep (·.launch false "(if true 'a ())") 3
      (.withFiles { maxDepth := 2 } {}) := by
    intro alarm
    have halarmed : (alarmedRun alarm 3).launch false "(if true 'a ())"
        (.withFiles { maxDepth := 2 } {}) =
          (.ok (.sym (.intern "a")), .withFiles { maxDepth := 2 } {}) := rfl
    have hrun : (run 3).launch false "(if true 'a ())" (.withFiles { maxDepth := 2 } {}) =
        (.ok (.sym (.intern "a")), .withFiles { maxDepth := 2 } {}) := rfl
    exact halarmed.trans hrun.symm
  obtain ⟨-, -, hprogram⟩ := run_unchanged_by_limit 3 7 _ hlimit
  exact ⟨hlimit, hnever, ⟨_, rfl⟩, rfl, hprogram false "(if true 'a ())" hnever⟩

end Lisp
