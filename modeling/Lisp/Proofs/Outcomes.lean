import Lisp.Proofs.Fuel

/-!
# What evaluations amount to, part by part

With enough fuel an evaluation comes to an answer, or it comes to none whatever fuel it
is given.  Either way it **amounts to** something (`exists_amountsTo`), where running out
of fuel stands for never coming to an answer.  What an evaluation amounts to is decided
by what its parts amount to.

* Two evaluations in sequence amount to what the first one breaks off with, or to what
  the second one amounts to where the first one ends (`AmountsTo.cases_bind`).
* A form amounts to what is inside it, but for the context of a failure, unless it is
  nested too deep (`AmountsTo.cases_form`).

An evaluation **settles** on a value if it comes to that value wherever the nesting limit
lets it: with enough fuel there is the value, or the failure of a form that was nested
too deep.  So nothing has to be known about how deep the evaluation is nested already,
and `Settles` passes from parts to the whole without a word about depth.
-/

namespace Lisp

variable {α β : Type}

/-! ### Answers on their way out -/

/-- The answer is the failure of a form that was nested too deep. -/
def Answer.IsTooDeep : Answer α → Prop
  | .failed f => ∃ limit, f.cause = .tooDeep limit
  | _ => False

/-- Neither answer is a value, and for the same reason. -/
inductive Answer.Breaks : Answer α → Answer β → Prop
  | failed {f g : Failure} (hcause : g.cause = f.cause) : Breaks (.failed f) (.failed g)
  | outOfFuel : Breaks .outOfFuel .outOfFuel

/-- The second answer is the first one, but for the context of a failure. -/
inductive Answer.Arrives : Answer α → Answer α → Prop
  | ok (a : α) : Arrives (.ok a) (.ok a)
  | broken {a b : Answer α} (h : a.Breaks b) : Arrives a b

namespace Answer

/-- What breaks an evaluation off breaks off what is around it. -/
theorem Breaks.arrives {a : Answer α} {b c : Answer β} (hab : a.Breaks b) (hbc : b.Arrives c) :
    a.Breaks c := by
  cases hbc with
  | ok v => nomatch hab
  | broken hbc =>
      cases hab with
      | outOfFuel => cases hbc; exact .outOfFuel
      | failed hcause =>
          cases hbc with
          | failed hcause' => exact .failed (hcause'.trans hcause)

theorem Arrives.refl (a : Answer α) : a.Arrives a := by
  cases a with
  | ok v => exact .ok v
  | failed f => exact .broken (.failed rfl)
  | outOfFuel => exact .broken .outOfFuel

theorem Arrives.trans {a b c : Answer α} (hab : a.Arrives b) (hbc : b.Arrives c) :
    a.Arrives c := by
  cases hab with
  | ok v => exact hbc
  | broken hab => exact .broken (hab.arrives hbc)

/-- What has broken off can be passed on as an answer of any type. -/
theorem Breaks.through {γ : Type} {a : Answer α} {c : Answer β} (h : a.Breaks c) :
    ∃ b : Answer γ, a.Breaks b ∧ b.Breaks c := by
  cases h with
  | outOfFuel => exact ⟨.outOfFuel, .outOfFuel, .outOfFuel⟩
  | failed hcause => exact ⟨.failed _, .failed rfl, .failed hcause⟩

/-- The failure of a form that was nested too deep stays what it is. -/
theorem Breaks.isTooDeep {a : Answer α} {b : Answer β} (h : a.Breaks b) (ha : a.IsTooDeep) :
    b.IsTooDeep := by
  cases h with
  | outOfFuel => exact ha
  | failed hcause =>
      obtain ⟨limit, hlimit⟩ := ha
      exact ⟨limit, hcause.trans hlimit⟩

theorem Arrives.isTooDeep {a b : Answer α} (h : a.Arrives b) (ha : a.IsTooDeep) :
    b.IsTooDeep := by
  cases h with
  | ok v => exact ha
  | broken h => exact h.isTooDeep ha

end Answer

/-- The world at another nesting depth. -/
def World.atDepth (w : World) (depth : Nat) : World :=
  { w with depth }

/-- A form is nested too deep, or what is inside it decides what it comes to. -/
theorem Eval.form_arrives (source : Option Span) (x : Eval Value) (w : World) :
    (Eval.nested (Eval.inForm source x) w).1.IsTooDeep ∨
      (x (w.atDepth (w.depth + 1))).1.Arrives (Eval.nested (Eval.inForm source x) w).1 ∧
        (Eval.nested (Eval.inForm source x) w).2 =
          (x (w.atDepth (w.depth + 1))).2.atDepth ((x (w.atDepth (w.depth + 1))).2.depth - 1) := by
  unfold Eval.nested
  by_cases hdeep : w.options.maxDepth < w.depth + 1
  · rw [if_pos hdeep]
    exact .inl ⟨w.options.maxDepth, rfl⟩
  · rw [if_neg hdeep]
    unfold Eval.inForm Eval.onFailure World.atDepth
    right
    rcases hrun : x { w with depth := w.depth + 1 } with ⟨answer, u⟩
    cases answer with
    | ok v => exact ⟨.ok v, rfl⟩
    | outOfFuel => exact ⟨.broken .outOfFuel, rfl⟩
    | failed f =>
        refine ⟨.broken (.failed ?_), rfl⟩
        unfold Eval.attachCalls
        rw [Failure.cause_withCalls, Failure.cause_withSource]

/-! ### More fuel -/

/-- The evaluation keeps its answer when the machine has more fuel. -/
def Steady (x : Machine → Eval α) : Prop :=
  ∀ k n, k ≤ n → (x (run k)).Extends (x (run n))

namespace Steady

theorem eval (frame : FrameId) (form : Value) : Steady fun m => m.eval frame form :=
  fun _ _ hkn => (run_extends hkn).eval frame form

theorem value (frame : FrameId) (form : Value) : Steady fun m => m.value frame form :=
  fun _ _ hkn => (run_extends hkn).value (t := true) frame form

theorem toBool (v : Value) : Steady fun m => m.toBool v :=
  fun _ _ hkn => (run_extends hkn).toBool (e := none) (t := true) v

theorem apply (source : Option Span) (callee : Value) (args : List Value) :
    Steady fun m => m (.apply source callee args) :=
  fun _ _ hkn => (run_extends hkn).apply (e := none) (t := true) source callee args

theorem operands (frame : FrameId) (forms : List Value) : Steady fun m => m.operands frame forms :=
  fun _ _ hkn => (run_extends hkn).operands (t := true) frame forms

theorem expand (id : ClosureId) (operands : List Value) (source : Option Span) :
    Steady fun m => m.expand id operands source :=
  fun _ _ hkn => (run_extends hkn).expand (e := none) (t := true) id operands source

/-- What asks nothing of the machine. -/
theorem const (x : Eval α) : Steady fun _ => x :=
  fun _ _ _ => .refl x

theorem bind {x : Machine → Eval α} {k : Machine → α → Eval β} (hx : Steady x)
    (hk : ∀ a, Steady fun m => k m a) : Steady fun m => x m >>= k m :=
  fun i n hin => (hx i n hin).bind fun a _ => hk a i n hin

end Steady

/-- What the evaluation comes to with enough fuel, where running out of fuel is what it
amounts to if no fuel is enough. -/
inductive AmountsTo (x : Machine → Eval α) (w : World) : Answer α → World → Prop
  | ends {a : Answer α} {w' : World} (h : ComesTo x w a w') : AmountsTo x w a w'
  | never (h : ∀ n, (x (run n) w).1 = .outOfFuel) (w' : World) : AmountsTo x w .outOfFuel w'

/-- With enough fuel, the evaluation comes to this value, or a form is nested too deep. -/
def Settles (x : Machine → Eval α) (w : World) (a : α) (w' : World) : Prop :=
  ∃ k, ∀ n, k ≤ n → x (run n) w = (.ok a, w') ∨ (x (run n) w).1.IsTooDeep

section

variable {x : Machine → Eval α} {k : Machine → α → Eval β} {w w' u : World}

/-- Every evaluation amounts to something. -/
theorem exists_amountsTo (x : Machine → Eval α) (w : World) : ∃ a w', AmountsTo x w a w' := by
  by_cases h : ∀ n, (x (run n) w).1 = .outOfFuel
  · exact ⟨_, w, .never h w⟩
  · obtain ⟨n, hn⟩ := not_forall.mp h
    exact ⟨_, _, .ends ⟨hn, n, rfl⟩⟩

/-- An evaluation that keeps its answer has it from some fuel on. -/
theorem ComesTo.eventually (hx : Steady x) {a : Answer α} (h : ComesTo x w a w') :
    ∃ k, ∀ n, k ≤ n → x (run n) w = (a, w') := by
  obtain ⟨hne, k, hk⟩ := h
  refine ⟨k, fun n hkn => ?_⟩
  rcases hx k n hkn w with hout | hsame
  · rw [hk] at hout
    exact absurd hout hne
  · exact hsame.trans hk

/-- Where no fuel is enough for the whole, none is enough for the rest after a value. -/
theorem ComesTo.never_rest (hx : Steady x) (hk : ∀ a, Steady fun m => k m a) {a : α}
    (hfirst : ComesTo x w (.ok a) u) (h : ∀ n, ((x (run n) >>= k (run n)) w).1 = .outOfFuel)
    (n : Nat) : (k (run n) a u).1 = .outOfFuel := by
  obtain ⟨i, hi⟩ := hfirst.eventually hx
  have hlater := h (max i n)
  rw [Eval.bind_of_ok (hi _ (Nat.le_max_left i n))] at hlater
  rcases hk a n _ (Nat.le_max_right i n) u with hout | hsame
  · exact hout
  · exact (congrArg Prod.fst hsame).symm.trans hlater

namespace AmountsTo

/-- The same evaluation in other words. -/
theorem congr {y : Machine → Eval α} {a : Answer α} (h : AmountsTo x w a w')
    (heq : ∀ m, x m = y m) : AmountsTo y w a w' :=
  (funext heq : x = y) ▸ h

/-- What two evaluations in sequence amount to. -/
theorem cases_bind (hx : Steady x) (hk : ∀ a, Steady fun m => k m a) {b : Answer β}
    (h : AmountsTo (fun m => x m >>= k m) w b w') :
    (∃ a, AmountsTo x w a w' ∧ a.Breaks b) ∨
      ∃ a u, ComesTo x w (.ok a) u ∧ AmountsTo (fun m => k m a) u b w' := by
  cases h with
  | ends h =>
      obtain ⟨hne, n, hrun⟩ := h
      dsimp only at hrun
      rw [Eval.bind_run] at hrun
      rcases hrunx : x (run n) w with ⟨answer, u⟩
      rw [hrunx] at hrun
      cases answer with
      | ok a => exact .inr ⟨a, u, ⟨by simp, n, hrunx⟩, .ends ⟨hne, n, hrun⟩⟩
      | failed f =>
          cases hrun
          exact .inl ⟨.failed f, .ends ⟨by simp, n, hrunx⟩, .failed rfl⟩
      | outOfFuel =>
          cases hrun
          exact absurd rfl hne
  | never h =>
      obtain ⟨a, u, ha⟩ := exists_amountsTo x w
      cases ha with
      | never hx => exact .inl ⟨.outOfFuel, .never hx w', .outOfFuel⟩
      | ends ha =>
          cases a with
          | ok a => exact .inr ⟨a, u, ha, .never (ha.never_rest hx hk h) w'⟩
          | outOfFuel => exact absurd rfl ha.1
          | failed f =>
              obtain ⟨-, n, hn⟩ := ha
              have hout := h n
              rw [Eval.bind_run, hn] at hout
              cases hout

/-- What a form amounts to. -/
theorem cases_form {x : Machine → Eval Value} {source : Option Span} {a : Answer Value}
    (h : AmountsTo (fun m => Eval.nested (Eval.inForm source (x m))) w a w') :
    a.IsTooDeep ∨ ∃ b u depth,
      AmountsTo x (w.atDepth (w.depth + 1)) b u ∧ b.Arrives a ∧ w' = u.atDepth depth := by
  cases h with
  | ends h =>
      obtain ⟨hne, n, hrun⟩ := h
      have hform := Eval.form_arrives source (x (run n)) w
      dsimp only at hrun
      rw [hrun] at hform
      rcases hform with hdeep | ⟨harrives, hworld⟩
      · exact .inl hdeep
      · refine .inr ⟨_, _, _, .ends ⟨fun hout => ?_, n, rfl⟩, harrives, hworld⟩
        rw [hout] at harrives
        cases harrives with
        | broken hbreaks =>
            cases hbreaks
            exact hne rfl
  | never h =>
      refine .inr ⟨.outOfFuel, w', w'.depth, .never (fun n => ?_) w', .broken .outOfFuel, rfl⟩
      have hform := Eval.form_arrives source (x (run n)) w
      rw [h n] at hform
      rcases hform with hdeep | ⟨harrives, -⟩
      · exact hdeep.elim
      · generalize (x (run n) (w.atDepth (w.depth + 1))).1 = answer at harrives
        cases harrives with
        | broken hbreaks =>
            cases hbreaks
            rfl

/-- A form amounts to what its step amounts to. -/
theorem cases_eval {frame : FrameId} {form : Value} {a : Answer Value}
    (h : AmountsTo (fun m => m.eval frame form) w a w') :
    AmountsTo (fun m => m.evalStep frame form) w a w' := by
  have hstep : ∀ n, (run (n + 1)).eval frame form = (run n).evalStep frame form :=
    fun n => run_eval_succ n frame form
  cases h with
  | never h =>
      refine .never (fun n => ?_) w'
      rw [← hstep n]
      exact h (n + 1)
  | ends h =>
      obtain ⟨hne, n, hrun⟩ := h
      cases n with
      | zero =>
          cases hrun
          exact absurd rfl hne
      | succ n => exact .ends ⟨hne, n, (congrFun (hstep n) w).symm.trans hrun⟩

/-- What settles on a value amounts to nothing else. -/
theorem cases_settles (hx : Steady x) {a : α} (h : Settles x w a u) {b : Answer α}
    (hb : AmountsTo x w b w') : b.IsTooDeep ∨ b = .ok a ∧ w' = u := by
  obtain ⟨i, hi⟩ := h
  cases hb with
  | never hnever =>
      rcases hi i (Nat.le_refl i) with hvalue | hdeep
      · have hout := hnever i
        rw [hvalue] at hout
        cases hout
      · rw [hnever i] at hdeep
        exact hdeep.elim
  | ends hb =>
      obtain ⟨j, hj⟩ := hb.eventually hx
      have hrun := hj _ (Nat.le_max_right i j)
      rcases hi _ (Nat.le_max_left i j) with hvalue | hdeep
      · cases hrun.symm.trans hvalue
        exact .inr ⟨rfl, rfl⟩
      · rw [hrun] at hdeep
        exact .inl hdeep

/-- What two evaluations in sequence amount to, the first of which settles on a value. -/
theorem cases_settles_bind (hx : Steady x) (hk : ∀ a, Steady fun m => k m a) {a : α}
    (h : Settles x w a u) {b : Answer β} (hb : AmountsTo (fun m => x m >>= k m) w b w') :
    b.IsTooDeep ∨ AmountsTo (fun m => k m a) u b w' := by
  rcases hb.cases_bind hx hk with ⟨a', ha', hbreaks⟩ | ⟨a', u', hvalue, hrest⟩
  · rcases ha'.cases_settles hx h with hdeep | ⟨rfl, -⟩
    · exact .inl (hbreaks.isTooDeep hdeep)
    · cases hbreaks
  · rcases cases_settles hx h (.ends hvalue) with hdeep | ⟨hok, rfl⟩
    · exact hdeep.elim
    · cases hok
      exact .inr hrest

end AmountsTo

end

/-! ### Evaluations that settle on a value -/

namespace Settles

variable {x : Machine → Eval α} {k : Machine → α → Eval β} {w w' u : World} {a : α} {b : β}

/-- What the machine has no part in. -/
theorem of_run (h : ∀ m, x m w = (.ok a, w')) : Settles x w a w' :=
  ⟨0, fun n _ => .inl (h (run n))⟩

/-- An evaluation that is another one where it starts. -/
theorem congr {y : Machine → Eval α} (h : Settles y w a w') (heq : ∀ m, x m w = y m w) :
    Settles x w a w' := by
  obtain ⟨i, hi⟩ := h
  exact ⟨i, fun n hin => heq (run n) ▸ hi n hin⟩

theorem bind (hx : Settles x w a u) (hk : Settles (fun m => k m a) u b w') :
    Settles (fun m => x m >>= k m) w b w' := by
  obtain ⟨i, hi⟩ := hx
  obtain ⟨j, hj⟩ := hk
  refine ⟨max i j, fun n hn => ?_⟩
  rcases hi n (Nat.le_trans (Nat.le_max_left i j) hn) with hvalue | hdeep
  · dsimp only
    rw [Eval.bind_of_ok hvalue]
    exact hj n (Nat.le_trans (Nat.le_max_right i j) hn)
  · right
    dsimp only
    rw [Eval.bind_run]
    rcases hrun : x (run n) w with ⟨answer, v⟩
    rw [hrun] at hdeep
    cases answer with
    | failed f => exact hdeep
    | _ => exact hdeep.elim

/-- Rewording a failure without changing its cause, unless it is a recur. -/
theorem onFailure {g : World → Failure → Failure}
    (hg : ∀ w f, f.cause.isRecur = false → (g w f).cause = f.cause) (hx : Settles x w a w') :
    Settles (fun m => (x m).onFailure g) w a w' := by
  obtain ⟨i, hi⟩ := hx
  refine ⟨i, fun n hn => ?_⟩
  dsimp only
  unfold Eval.onFailure
  rcases hi n hn with hvalue | hdeep
  · rw [hvalue]
    exact .inl rfl
  · right
    rcases hrun : x (run n) w with ⟨answer, v⟩
    rw [hrun] at hdeep
    cases answer with
    | failed f =>
        obtain ⟨limit, hlimit⟩ := hdeep
        have hrecur : f.cause.isRecur = false := by rw [hlimit]; rfl
        exact ⟨limit, (hg v f hrecur).trans hlimit⟩
    | _ => exact hdeep.elim

theorem inCall (call : Call) (hx : Settles x { w with calls := call :: w.calls } a w') :
    Settles (fun m => Eval.inCall call (x m)) w a { w' with calls := w'.calls.tail } := by
  obtain ⟨i, hi⟩ := hx.onFailure (g := Eval.attachCalls) fun w f _ => f.cause_withCalls w.calls
  refine ⟨i, fun n hn => ?_⟩
  have hrun := hi n hn
  dsimp only at hrun ⊢
  unfold Eval.inCall
  rcases hrun with hvalue | hdeep
  · rw [hvalue]
    exact .inl rfl
  · exact .inr hdeep

theorem form {x : Machine → Eval Value} {v : Value} (source : Option Span)
    (hx : Settles x (w.atDepth (w.depth + 1)) v w') :
    Settles (fun m => Eval.nested (Eval.inForm source (x m))) w v
      (w'.atDepth (w'.depth - 1)) := by
  obtain ⟨i, hi⟩ := hx
  refine ⟨i, fun n hn => ?_⟩
  rcases Eval.form_arrives source (x (run n)) w with hdeep | ⟨harrives, hworld⟩
  · exact .inr hdeep
  · rcases hi n hn with hvalue | hdeep
    · rw [hvalue] at harrives hworld
      left
      refine Prod.ext ?_ hworld
      generalize (Eval.nested (Eval.inForm source (x (run n))) w).1 = answer at harrives
      cases harrives with
      | ok v => rfl
      | broken hbreaks => nomatch hbreaks
    · exact .inr (harrives.isTooDeep hdeep)

/-- A form takes a step. -/
theorem eval {frame : FrameId} {form v : Value}
    (h : Settles (fun m => m.evalStep frame form) w v w') :
    Settles (fun m => m.eval frame form) w v w' := by
  obtain ⟨i, hi⟩ := h
  refine ⟨i + 1, fun n hn => ?_⟩
  obtain ⟨n, rfl⟩ : ∃ l, n = l + 1 := ⟨n - 1, by omega⟩
  have hstep : (run (n + 1)).eval frame form = (run n).evalStep frame form :=
    run_eval_succ n frame form
  dsimp only
  rw [hstep]
  exact hi n (by omega)

/-- A call takes a step and follows it. -/
theorem apply {source : Option Span} {callee v : Value} {args : List Value}
    (h : Settles (fun m => m.applyStep source callee args >>= m.follow) w v w') :
    Settles (fun m => m (.apply source callee args)) w v w' := by
  obtain ⟨i, hi⟩ := h
  refine ⟨i + 1, fun n hn => ?_⟩
  obtain ⟨n, rfl⟩ : ∃ l, n = l + 1 := ⟨n - 1, by omega⟩
  dsimp only
  rw [run_apply_succ]
  exact hi n (by omega)

/-- A form that is used in place. -/
theorem value {frame : FrameId} {form v : Value} (h : Settles (fun m => m.eval frame form) w v w') :
    Settles (fun m => m.value frame form) w v w' :=
  h.onFailure fun _ f hrecur => by rw [if_neg (ne_true_of_eq_false hrecur)]

end Settles

end Lisp
