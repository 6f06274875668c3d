import Lisp.Proofs.Consultation.Halting
import Lisp.Proofs.Fuel
import Mathlib.Logic.Relation

/-!
# Chains of implementations and conversions

A call of an interface is a call of the implementation it selects, a type that
converts its argument calls an implementation of the conversion, and a value that
is no procedure is converted to one before it is called.  No form is evaluated on
the way from such a call to the next one, and only forms are counted against the
nesting limit.

* `Situation.Consults` is the way from a call to the next one as the tables of the
  heap give it; `Situation.Leads` adds the call of the procedure that a value in call
  position was converted to.
* A link costs one turn (`Situation.Leads.halts`), so the fuel of a call that has an
  answer bounds every chain from it (`Situation.Answers.ends`).
* `Situation.chains_decide`: a call has an answer exactly if every chain from it ends,
  and so do the calls of closures, builtins and the like that chains end with.  A chain
  that comes back to itself has no answer at all, whatever the nesting limit is: neither
  a value nor a failure.
-/

namespace Lisp

/-! ### Situations -/

/-- A call about to be made, and the world it is made in. -/
structure Situation where
  world : World
  source : Option Span
  callee : Value
  args : List Value

namespace Situation

/-- What the call comes to, with so much fuel. -/
def outcome (s : Situation) (fuel : Nat) : Answer Value × World :=
  run fuel (.apply s.source s.callee s.args) s.world

/-- The call has an answer, a value or a failure, with enough fuel. -/
def Answers (s : Situation) : Prop :=
  ∃ fuel, (s.outcome fuel).1 ≠ .outOfFuel

/-- The same call for an evaluation that stands elsewhere. -/
def elsewhere (s : Situation) (standing : Standing) : Situation :=
  { s with world := s.world.elsewhere standing }

/-- One call consults the next by the tables of the heap. -/
inductive Consults : Situation → Situation → Prop
  | implementation {w source id args imp} (hselected : w.heap.selected? id args = some imp) :
      Consults ⟨w, source, .interface id, args⟩ ⟨w, none, imp, args⟩
  | target {w source receiver target args} (htarget : target.takesReceiver = false) :
      Consults ⟨w, source, .bound receiver target, args⟩ ⟨w, source, target, args⟩
  | conversion {w source tag args i v imp} (hdirect : tag.isDirect args)
      (hconversion : tag.conversion? args = some (i, v)) (hv : i.isAtHand v = false)
      (himp : w.heap.converter? i v = some imp) :
      Consults ⟨w, source, .type tag, args⟩ ⟨w, none, imp, [v]⟩
  | procedure {w source v args imp} (hv : v.isCallable = false)
      (himp : w.heap.coreImplementation? .toProc [v.tag] = some imp) :
      Consults ⟨w, source, v, args⟩ ⟨w, none, imp, [v]⟩

/-- One call leads to the next: it consults it, or it is the call of the procedure that
a value in call position was converted to. -/
inductive Leads : Situation → Situation → Prop
  | consult {s t} (hconsults : Consults s t) : Leads s t
  | converted {w w' source v args imp p fuel} (hv : v.isCallable = false)
      (himp : w.heap.coreImplementation? .toProc [v.tag] = some imp)
      (hrun : outcome ⟨w, none, imp, [v]⟩ fuel = (.ok p, w')) (hp : p.isCallable = true) :
      Leads ⟨w, source, v, args⟩ ⟨w', source, p, args⟩

/-- The call does nothing itself but pass on to the calls it leads to. -/
def passes (s : Situation) : Bool :=
  match s.callee with
  | .closure _ | .builtin _ | .accessor .. => false
  | .bound _ target => !target.takesReceiver
  | .type tag => tag.isDirect s.args
  | _ => true

/-! ### One link -/

section

variable {w : World} {source : Option Span} {args : List Value}

/-- More fuel keeps an answer. -/
theorem outcome_of_le {s : Situation} {k n : Nat} (h : k ≤ n)
    (hk : (s.outcome k).1 ≠ .outOfFuel) : s.outcome n = s.outcome k := by
  have hmore := (run_extends h).apply (e := none) (t := true) s.source s.callee s.args s.world
  exact hmore.resolve_left hk

/-- The call of an interface. -/
theorem outcome_interface (w : World) (source : Option Span) (id : InterfaceId)
    (args : List Value) (fuel : Nat) : ∃ f, outcome ⟨w, source, .interface id, args⟩ (fuel + 1) =
      match w.heap.selected? id args with
      | some imp => outcome ⟨w, none, imp, args⟩ fuel
      | none => (.failed f, w) := by
  obtain ⟨f, hrun⟩ := Machine.implementationFor_run id args w
  refine ⟨f, ?_⟩
  show run (fuel + 1) (.apply source (.interface id) args) w = _
  have hstep : (run fuel).applyStep source (.interface id) args =
      (Machine.implementationFor id args >>= fun imp =>
        pure (Next.again (.apply none imp args))) := rfl
  rw [run_apply_succ, hstep, bind_assoc, Eval.bind_run, hrun]
  cases w.heap.selected? id args <;> rfl

/-- The call of a bound method that takes no receiver. -/
theorem outcome_bound {receiver target : Value} (htarget : target.takesReceiver = false)
    (fuel : Nat) : outcome ⟨w, source, .bound receiver target, args⟩ (fuel + 1) =
      outcome ⟨w, source, target, args⟩ fuel := by
  show run (fuel + 1) (.apply source (.bound receiver target) args) w = _
  rw [run_apply_succ]
  cases target <;> first | rfl | cases htarget

/-- The call of a type. -/
theorem outcome_type (tag : TypeTag) (fuel : Nat) :
    outcome ⟨w, source, .type tag, args⟩ (fuel + 1) = (run fuel).construct tag args w := by
  show run (fuel + 1) (.apply source (.type tag) args) w = _
  have hstep : (run fuel).applyStep source (.type tag) args =
      ((run fuel).construct tag args >>= fun v => pure (Next.done v)) := rfl
  rw [run_apply_succ, hstep, bind_assoc]
  exact congrFun (bind_pure ((run fuel).construct tag args)) w

/-- The call of a value that is no procedure. -/
theorem outcome_data {v : Value} (hv : v.isCallable = false) (fuel : Nat) :
    outcome ⟨w, source, v, args⟩ (fuel + 1) =
      ((run fuel).toCallable v >>= fun p => run fuel (.apply source p args)) w := by
  show run (fuel + 1) (.apply source v args) w = _
  have hstep : (run fuel).applyStep source v args =
      ((run fuel).toCallable v >>= fun p => pure (Next.again (.apply source p args))) := by
    cases v <;> first | rfl | cases hv
  rw [run_apply_succ, hstep, bind_assoc]
  rfl

/-- The call of a value that is no procedure, once the conversion has its value. -/
theorem outcome_of_converted {v imp p : Value} {w' : World} {fuel : Nat}
    (hv : v.isCallable = false)
    (himp : w.heap.coreImplementation? .toProc [v.tag] = some imp)
    (hrun : outcome ⟨w, none, imp, [v]⟩ fuel = (.ok p, w')) (hp : p.isCallable = true) :
    outcome ⟨w, source, v, args⟩ (fuel + 1) = outcome ⟨w', source, p, args⟩ fuel := by
  have hcall : (run fuel).call imp [v] w = (.ok p, w') := hrun
  rw [outcome_data hv, Eval.bind_run, (run fuel).toCallable_of_registered hv himp, Eval.bind_run,
    hcall]
  simp only [hp, if_true]
  rfl

end

/-- Along a link, an answer of the first call is one of the second, a turn earlier. -/
theorem Consults.halts {s t : Situation} (h : s.Consults t) {fuel : Nat}
    (hs : (s.outcome (fuel + 1)).1 ≠ .outOfFuel) : (t.outcome fuel).1 ≠ .outOfFuel := by
  cases h with
  | @implementation w source id args imp hselected =>
      obtain ⟨f, houtcome⟩ := outcome_interface w source id args fuel
      rw [houtcome, hselected] at hs
      exact hs
  | target htarget =>
      rw [outcome_bound htarget] at hs
      exact hs
  | @conversion w source tag args i v imp hdirect hconversion hv himp =>
      rw [outcome_type] at hs
      exact ((run fuel).construct_halts_iff hdirect).mp hs i v hconversion hv imp himp
  | procedure hv himp =>
      rw [outcome_data hv, Eval.bind_run, (run fuel).toCallable_of_registered hv himp,
        ← Eval.bind_run] at hs
      exact (Eval.halts_bind_iff.mp (Eval.halts_bind_iff.mp hs).1).1

theorem Leads.halts {s t : Situation} (h : s.Leads t) {fuel : Nat}
    (hs : (s.outcome (fuel + 1)).1 ≠ .outOfFuel) : (t.outcome fuel).1 ≠ .outOfFuel := by
  cases h with
  | consult hconsults => exact hconsults.halts hs
  | @converted w w' source v args imp p k hv himp hrun hp =>
      -- The conversion has an answer with this fuel too, and it is the same one.
      have hconsults : Consults ⟨w, source, v, args⟩ ⟨w, none, imp, [v]⟩ := .procedure hv himp
      have hconversion := hconsults.halts hs
      have hk : (outcome ⟨w, none, imp, [v]⟩ k).1 ≠ .outOfFuel := by
        rw [hrun]
        exact nofun
      have hsame : outcome ⟨w, none, imp, [v]⟩ fuel = (.ok p, w') := by
        rcases Nat.le_total k fuel with hle | hle
        · rw [outcome_of_le hle hk, hrun]
        · rw [← outcome_of_le hle hconversion, hrun]
      rw [outcome_of_converted hv himp hsame hp] at hs
      exact hs

/-! ### Calls that only pass on -/

section

variable {w : World} {source : Option Span} {args : List Value}

theorem answers_interface {id : InterfaceId}
    (hnext : ∀ t, Consults ⟨w, source, .interface id, args⟩ t → t.Answers) :
    Answers ⟨w, source, .interface id, args⟩ := by
  cases hselected : w.heap.selected? id args with
  | none =>
      obtain ⟨f, houtcome⟩ := outcome_interface w source id args 0
      refine ⟨1, ?_⟩
      rw [houtcome, hselected]
      exact nofun
  | some imp =>
      obtain ⟨fuel, h⟩ := hnext _ (.implementation hselected)
      obtain ⟨f, houtcome⟩ := outcome_interface w source id args fuel
      refine ⟨fuel + 1, ?_⟩
      rw [houtcome, hselected]
      exact h

theorem answers_bound {receiver target : Value} (htarget : target.takesReceiver = false)
    (hnext : ∀ t, Consults ⟨w, source, .bound receiver target, args⟩ t → t.Answers) :
    Answers ⟨w, source, .bound receiver target, args⟩ := by
  obtain ⟨fuel, h⟩ := hnext _ (.target htarget)
  refine ⟨fuel + 1, ?_⟩
  rw [outcome_bound htarget]
  exact h

theorem answers_type {tag : TypeTag} (hdirect : tag.isDirect args)
    (hnext : ∀ t, Consults ⟨w, source, .type tag, args⟩ t → t.Answers) :
    Answers ⟨w, source, .type tag, args⟩ := by
  -- It is enough that the one conversion has an answer with some fuel.
  suffices h : ∃ fuel, ∀ i v, tag.conversion? args = some (i, v) →
      (run fuel).ConversionHalts i v w by
    obtain ⟨fuel, h⟩ := h
    refine ⟨fuel + 1, ?_⟩
    rw [outcome_type]
    exact ((run fuel).construct_halts_iff hdirect).mpr h
  cases hconversion : tag.conversion? args with
  | none => exact ⟨0, nofun⟩
  | some converted =>
      obtain ⟨i, v⟩ := converted
      by_cases himp : i.isAtHand v = false ∧ (w.heap.converter? i v).isSome
      · obtain ⟨hv, hsome⟩ := himp
        obtain ⟨imp, himp⟩ := Option.isSome_iff_exists.mp hsome
        obtain ⟨fuel, h⟩ := hnext _ (.conversion hdirect hconversion hv himp)
        refine ⟨fuel, ?_⟩
        rintro j u ⟨rfl, rfl⟩ - other hother
        rw [himp] at hother
        cases hother
        exact h
      · refine ⟨0, ?_⟩
        rintro j u ⟨rfl, rfl⟩ hv imp hsome
        exact absurd ⟨hv, by simp [hsome]⟩ himp

theorem answers_data {v : Value} (hv : v.isCallable = false)
    (hnext : ∀ t, Leads ⟨w, source, v, args⟩ t → t.Answers) :
    Answers ⟨w, source, v, args⟩ := by
  cases himp : w.heap.coreImplementation? .toProc [v.tag] with
  | none =>
      obtain ⟨f, hrun⟩ := (run 0).toCallable_of_unregistered himp
      refine ⟨1, ?_⟩
      rw [outcome_data hv, Eval.bind_run, hrun]
      exact nofun
  | some imp =>
      obtain ⟨k, hk⟩ := hnext _ (.consult (.procedure hv himp))
      by_cases hconverted : ∃ p w', outcome ⟨w, none, imp, [v]⟩ k = (.ok p, w') ∧
          p.isCallable = true
      · obtain ⟨p, w', hrun, hp⟩ := hconverted
        obtain ⟨n, hn⟩ := hnext _ (.converted hv himp hrun hp)
        have hmax : outcome ⟨w, none, imp, [v]⟩ (max k n) = (.ok p, w') := by
          rw [outcome_of_le (Nat.le_max_left k n) hk, hrun]
        refine ⟨max k n + 1, ?_⟩
        rw [outcome_of_converted hv himp hmax hp, outcome_of_le (Nat.le_max_right k n) hn]
        exact hn
      · -- The call ends with a failure: that of the conversion, or the complaint about it.
        refine ⟨k + 1, ?_⟩
        rw [outcome_data hv]
        refine Eval.halts_bind_iff.mpr ⟨?_, fun p w' hrun => ?_⟩
        · unfold Eval.Halts
          rw [(run k).toCallable_of_registered hv himp]
          refine Eval.halts_bind_iff.mpr ⟨hk, fun converted w' _ => ?_⟩
          split
          · exact Eval.Prompt.pure _ w'
          · exact Machine.wrongConversion_prompt _ _ _ w'
        · rw [(run k).toCallable_of_registered hv himp] at hrun
          obtain ⟨converted, u, hcall, hchecked⟩ := Eval.bind_eq_ok hrun
          by_cases hp : converted.isCallable = true
          · exact absurd ⟨converted, u, hcall, hp⟩ hconverted
          · rw [if_neg hp] at hchecked
            obtain ⟨shown, u', -, hfailed⟩ := Eval.bind_eq_ok hchecked
            cases hfailed

end

/-- A call that only passes on has an answer if the calls it leads to have one. -/
theorem answers_of_passes {s : Situation} (hpasses : s.passes = true)
    (hnext : ∀ t, s.Leads t → t.Answers) : s.Answers := by
  obtain ⟨w, source, callee, args⟩ := s
  have hconsults : ∀ t, Consults ⟨w, source, callee, args⟩ t → t.Answers :=
    fun t h => hnext t (.consult h)
  cases callee with
  | closure id => cases hpasses
  | builtin b => cases hpasses
  | accessor serial way subject => cases hpasses
  | interface id => exact answers_interface hconsults
  | type tag => exact answers_type hpasses hconsults
  | bound receiver target => exact answers_bound (by simpa [passes] using hpasses) hconsults
  | _ => exact answers_data rfl hnext

/-! ### Chains -/

/-- Every chain of calls from here on comes to an end. -/
def Ends (s : Situation) : Prop :=
  Acc (fun t s => s.Leads t) s

/-- Along a chain, an answer of the first call is one of the last. -/
theorem Answers.of_chain {s t : Situation} (h : Relation.ReflTransGen Leads s t)
    (hs : s.Answers) : t.Answers := by
  induction h with
  | refl => exact hs
  | tail _ hlink ih =>
      obtain ⟨fuel, hfuel⟩ := ih
      have hmore := outcome_of_le (Nat.le_succ fuel) hfuel
      exact ⟨fuel, hlink.halts (by rwa [hmore])⟩

/-- The fuel bounds the chains. -/
theorem Answers.ends {s : Situation} (h : s.Answers) : s.Ends := by
  obtain ⟨fuel, hfuel⟩ := h
  induction fuel generalizing s with
  | zero => exact absurd rfl hfuel
  | succ fuel ih => exact ⟨_, fun t hlink => ih (hlink.halts hfuel)⟩

/-- Where the chains from a call end, and the calls that do not only pass on have
answers, the call has one. -/
theorem Ends.answers {s : Situation} (h : s.Ends)
    (hlast : ∀ t, Relation.ReflTransGen Leads s t → t.passes = false → t.Answers) :
    s.Answers := by
  induction h with
  | intro s _ ih =>
      cases hpasses : s.passes with
      | false => exact hlast s .refl hpasses
      | true =>
          refine answers_of_passes hpasses fun t hlink => ih t hlink ?_
          intro u hchain
          exact hlast u (.head hlink hchain)

/-- A chain that comes back to its first call does not end. -/
theorem Ends.not_cycle {s : Situation} (h : s.Ends) : ¬ Relation.TransGen Leads s s := by
  induction h with
  | intro s _ ih =>
      intro hcycle
      obtain ⟨t, hlink, hback⟩ := Relation.TransGen.head'_iff.mp hcycle
      exact ih t hlink (.tail' hback hlink)

/-- The tables do not depend on where an evaluation stands. -/
theorem Consults.elsewhere {s t : Situation} (standing : Standing) (h : s.Consults t) :
    (s.elsewhere standing).Consults (t.elsewhere standing) := by
  cases h with
  | implementation hselected => exact .implementation hselected
  | target htarget => exact .target htarget
  | conversion hdirect hconversion hv himp => exact .conversion hdirect hconversion hv himp
  | procedure hv himp => exact .procedure hv himp

/-- A call has an answer exactly if every chain from it ends, and so do the calls of
closures, builtins and the like that chains end with.  A call from which the tables
lead into a cycle has none, wherever the evaluation stands and whatever its nesting
limit is. -/
theorem chains_decide (s : Situation) :
    (s.Answers ↔
      s.Ends ∧ ∀ t, Relation.ReflTransGen Leads s t → t.passes = false → t.Answers) ∧
    ∀ t, Relation.ReflTransGen Consults s t → Relation.TransGen Consults t t →
      ∀ standing fuel, ((s.elsewhere standing).outcome fuel).1 = .outOfFuel := by
  constructor
  · constructor
    · intro h
      exact ⟨h.ends, fun t hchain _ => h.of_chain hchain⟩
    · rintro ⟨hends, hlast⟩
      exact hends.answers hlast
  · intro t hchain hcycle standing fuel
    have hleads : ∀ s t : Situation, s.Consults t →
        (s.elsewhere standing).Leads (t.elsewhere standing) :=
      fun _ _ h => .consult (h.elsewhere standing)
    refine Classical.byContradiction fun hanswer => ?_
    have hlast : (t.elsewhere standing).Answers :=
      Answers.of_chain (hchain.lift (·.elsewhere standing) hleads) ⟨fuel, hanswer⟩
    exact hlast.ends.not_cycle (hcycle.lift (·.elsewhere standing) hleads)

/-- A type `P` that is converted to a truth value by the type of truth values, and to a
number by the type of types. -/
def heapOfConversions : Heap where
  interfaces := #[
    { name := .intern "to-Bool", params := [.intern "x"], impls := [([.record 0], .type .bool)] },
    { name := .intern "to-Num", params := [.intern "x"], impls := [([.record 0], .type .type)] }]
  recordTypes := #[{ name := .intern "P", fields := [] }]

/-- A conversion of the value of type `P`. -/
def conversionOf (tag : TypeTag) : Situation :=
  ⟨{ heap := heapOfConversions }, none, .type tag, [.record 0 []]⟩

/-- The conversion to a truth value comes back to itself and has no answer; the
conversion to a number ends, with a complaint about its result. -/
theorem chains_decide_conversions :
    (∀ standing fuel, (((conversionOf .bool).elsewhere standing).outcome fuel).1 = .outOfFuel) ∧
      (conversionOf .num).Answers := by
  constructor
  · have hcycle : (conversionOf .bool).Consults (conversionOf .bool) :=
      .conversion (i := .toBool) rfl rfl rfl rfl
    exact (chains_decide _).2 _ .refl (.single hcycle)
  · have hnumber : ∀ t, (conversionOf .num).Leads t → t = conversionOf .type := by
      intro t hlink
      rcases hlink with hconsults | ⟨hv, -, -, -⟩
      · rcases hconsults with - | - | ⟨-, ⟨⟩, -, ⟨⟩⟩ | ⟨hv, -⟩
        · rfl
        · cases hv
      · cases hv
    have htype : ∀ t, ¬ (conversionOf .type).Leads t := by
      intro t hlink
      rcases hlink with hconsults | ⟨hv, -, -, -⟩
      · rcases hconsults with - | - | ⟨-, ⟨⟩, -, -⟩ | ⟨hv, -⟩
        cases hv
      · cases hv
    have hends : (conversionOf .num).Ends := by
      refine ⟨_, fun t hlink => ?_⟩
      rw [hnumber t hlink]
      exact ⟨_, fun u hlink => absurd hlink (htype u)⟩
    refine (chains_decide _).1.mpr ⟨hends, fun t hchain hpasses => ?_⟩
    -- Both calls of this chain only pass on.
    rcases Relation.ReflTransGen.cases_head hchain with rfl | ⟨u, hlink, hrest⟩
    · cases hpasses
    · rw [hnumber u hlink] at hrest
      rcases Relation.ReflTransGen.cases_head hrest with rfl | ⟨u', hlink', -⟩
      · cases hpasses
      · exact absurd hlink' (htype u')

end Situation

end Lisp
