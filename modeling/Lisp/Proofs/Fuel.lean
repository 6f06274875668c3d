import Lisp.Proofs.Congruence.Run

/-!
# More fuel

An evaluation that has an answer keeps it when it is given more fuel: the relation
"answers alike, unless the left-hand side runs out of fuel" is a congruence, so the
walk through the evaluator applies to it, and what remains is that a machine without
fuel answers nothing (`run_extends`).

So there is a sense in saying what an evaluation comes to without naming its fuel
(`ComesTo`).
-/

namespace Lisp

namespace Eval

variable {α β : Type}

/-- The second evaluation answers as the first one does, wherever that does not run
out of fuel. -/
def Extends (x y : Eval α) : Prop :=
  ∀ w, (x w).1 = .outOfFuel ∨ y w = x w

theorem Extends.refl (x : Eval α) : x.Extends x :=
  fun _ => .inr rfl

theorem Extends.trans {x y z : Eval α} (hxy : x.Extends y) (hyz : y.Extends z) : x.Extends z := by
  intro w
  rcases hxy w with hout | hy
  · exact .inl hout
  · rcases hyz w with hout | hz
    · exact .inl (hy ▸ hout)
    · exact .inr (hz.trans hy)

/-- A value stays. -/
theorem Extends.of_ok {x y : Eval α} (hxy : x.Extends y) {w w' : World} {a : α}
    (hx : x w = (.ok a, w')) : y w = (.ok a, w') := by
  rcases hxy w with hout | hy
  · rw [hx] at hout
    cases hout
  · exact hy.trans hx

/-- What the first evaluation can give, the second one can. -/
theorem Extends.gives {x y : Eval α} (hxy : x.Extends y) {a : α} (h : x.Gives a) : y.Gives a := by
  obtain ⟨w, w', hx⟩ := h
  exact ⟨w, w', hxy.of_ok hx⟩

/-- A failure stays. -/
theorem Extends.of_failed {x y : Eval α} (hxy : x.Extends y) {w w' : World} {f : Failure}
    (hx : x w = (.failed f, w')) : y w = (.failed f, w') := by
  rcases hxy w with hout | hy
  · rw [hx] at hout
    cases hout
  · exact hy.trans hx

theorem Extends.bind {x y : Eval α} {k l : α → Eval β} (hxy : x.Extends y)
    (hkl : ∀ a, x.Gives a → (k a).Extends (l a)) : (x >>= k).Extends (y >>= l) := by
  intro w
  rw [bind_run, bind_run]
  rcases hxy w with hout | hy
  · rcases hx : x w with ⟨answer, w'⟩
    rw [hx] at hout
    cases hout
    exact .inl rfl
  · rw [hy]
    rcases hx : x w with ⟨answer, w'⟩
    cases answer with
    | ok a => exact hkl a ⟨w, w', hx⟩ w'
    | failed f => exact .inr rfl
    | outOfFuel => exact .inl rfl

theorem Extends.onFailure {x y : Eval α} (g : World → Failure → Failure) (hxy : x.Extends y) :
    (x.onFailure g).Extends (y.onFailure g) := by
  intro w
  unfold Eval.onFailure
  rcases hxy w with hout | hy
  · rcases hx : x w with ⟨answer, w'⟩
    rw [hx] at hout
    cases hout
    exact .inl rfl
  · rw [hy]
    exact .inr rfl

theorem Extends.rescue {x y : Eval α} {takes : Failure → Bool} {h l : Failure → Eval α}
    (hxy : x.Extends y) (hhl : ∀ f, takes f = true → (h f).Extends (l f)) :
    (x.rescue takes h).Extends (y.rescue takes l) := by
  intro w
  unfold Eval.rescue
  rcases hxy w with hout | hy
  · rcases hx : x w with ⟨answer, w'⟩
    rw [hx] at hout
    cases hout
    exact .inl rfl
  · rw [hy]
    rcases x w with ⟨answer, w'⟩
    cases answer with
    | ok a => exact .inr rfl
    | outOfFuel => exact .inl rfl
    | failed f =>
        dsimp only
        split
        · next htakes => exact hhl f htakes w'
        · exact .inr rfl

theorem Extends.attempt {x y : Eval Value} (frame : FrameId)
    {h l : Option (Value → FrameId → Eval Value)} (hxy : x.Extends y)
    (hhl : Option.Rel (fun h l => ∀ caught inner, (h caught inner).Extends (l caught inner)) h l) :
    (x.attempt frame h).Extends (y.attempt frame l) := by
  refine hxy.rescue fun f _ => (Extends.refl _).bind fun caught _ => ?_
  cases hhl with
  | none => exact .refl _
  | some hbody => exact (Extends.refl _).bind fun inner _ => hbody caught inner

theorem Extends.nested {x y : Eval α} (hxy : x.Extends y) :
    (Eval.nested x).Extends (Eval.nested y) := by
  intro w
  unfold Eval.nested
  split
  · exact .inr rfl
  · rcases hxy { w with depth := w.depth + 1 } with hout | hy
    · exact .inl hout
    · rw [hy]
      exact .inr rfl

theorem Extends.inCall (call : Call) {x y : Eval α} (hxy : x.Extends y) :
    (Eval.inCall call x).Extends (Eval.inCall call y) := by
  intro w
  unfold Eval.inCall
  rcases hxy.onFailure attachCalls { w with calls := call :: w.calls } with hout | hy
  · exact .inl hout
  · rw [hy]
    exact .inr rfl

end Eval

/-- Answering alike, fuel permitting, is respected by every way of putting
evaluations together. -/
def Congruence.fuel : Congruence where
  nest := Eval.nested
  rel _ _ x y := x.Extends y
  idle := .refl _
  pure _ := .refl _
  fail _ := .refl _
  recur _ _ := .refl _
  raise _ := .refl _
  ask _ := .refl _
  change _ := .refl _
  memoize _ _ _ _ _ _ hx :=
    Eval.memoized_related (R := Eval.Extends) (fun _ => .refl _) (fun _ => .refl _)
      (fun hx hk => hx.bind fun a _ => hk a) hx (hx.bind fun _ _ => .refl _)
  define _ _ _ := .refl _
  bind := .bind
  extend _ _ _ _ hk := .bind (.refl _) fun id _ => hk id
  nested := .nested
  inCall := .inCall
  inForm _ _ _ hx := hx.onFailure _
  noRecur _ hx := hx.onFailure _
  recover _ _ _ hx hh _ := hx.rescue fun f hf => (hh f.cause hf).2
  attempt frame _ _ hx hh := hx.attempt frame hh

/-- A machine with one turn more answers alike. -/
theorem run_extends_succ (fuel : Nat) : Congruence.fuel.Machines (run fuel) (run (fuel + 1)) := by
  induction fuel with
  | zero =>
      exact {
        isRun := ⟨0, rfl⟩
        eval := fun _ _ _ => .inl rfl
        apply := fun _ _ _ _ => .inl rfl
        unfold := fun _ _ _ => .inl rfl }
  | succ fuel ih =>
      rw [run_succ fuel, run_succ (fuel + 1)]
      exact ih.turn

/-- A machine with more fuel answers alike. -/
theorem run_extends {k n : Nat} (h : k ≤ n) : Congruence.fuel.Machines (run k) (run n) := by
  induction h with
  | refl =>
      exact {
        isRun := ⟨k, rfl⟩
        eval := fun _ _ => .refl _
        apply := fun _ _ _ => .refl _
        unfold := fun _ _ => .refl _ }
  | step _ ih =>
      have hsucc := run_extends_succ
      exact {
        isRun := ⟨k, rfl⟩
        eval := fun frame form => (ih.eval frame form).trans ((hsucc _).eval frame form)
        apply := fun source callee args =>
          .trans (ih.apply (e := none) (t := true) source callee args)
            ((hsucc _).apply (e := none) (t := true) source callee args)
        unfold := fun sequence taken =>
          .trans (ih.unfold (e := none) (t := true) sequence taken)
            ((hsucc _).unfold (e := none) (t := true) sequence taken) }

/-- With enough fuel, the evaluation comes to this answer and this world. -/
def ComesTo {α : Type} (x : Machine → Eval α) (w : World) (answer : Answer α) (w' : World) : Prop :=
  answer ≠ .outOfFuel ∧ ∃ fuel, x (run fuel) w = (answer, w')

namespace ComesTo

variable {α : Type} {x y : Machine → Eval α} {w w' : World} {answer : Answer α}

/-- An evaluation whose every run is that of another, fuel permitting, comes to
nothing that the other does not come to. -/
theorem mono (h : ∀ k, ∃ n, (x (run k) w).1 = .outOfFuel ∨ y (run n) w = x (run k) w)
    (hx : ComesTo x w answer w') : ComesTo y w answer w' := by
  obtain ⟨hanswer, k, hk⟩ := hx
  obtain ⟨n, hout | hrun⟩ := h k
  · rw [hk] at hout
    exact absurd hout hanswer
  · exact ⟨hanswer, n, hrun.trans hk⟩

end ComesTo

end Lisp
