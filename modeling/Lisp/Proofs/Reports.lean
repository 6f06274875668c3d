import Lisp.Interpreter
import Lisp.Proofs.Congruence.Run

/-!
# What becomes of failures in a test

While a pattern is tested against a value, code of the program may run: the heads of
typed patterns and the keys of patterns for members are evaluated, declared equalities and
conversions to truth are called, and the elements of a value may be those that its type's
interfaces produce.  All of it goes through requests to the machine, so what is to be said
of failing code is said of failing requests.

A test makes a request if its outcome hangs on the answer (`Machine.Asks`).  If the
request fails, the test is over, and leaves the world that the failing code left: the
failure is what the test comes to, a recur being reported as a misuse
(`Machine.destructure_of_failed`).  There is one exception.  A type mismatch that ends
the production of elements is taken for the complaint that the value has no elements, and
the answer is no (`Request.verdict`), although the mismatch may be that of any code
behind `empty?`, `first` and `rest` (`run_unfold_failed_iff`).

Two machines that differ in one answer only are run side by side.  As long as that answer
is not asked for they do the same (`Eval.SameUnless`), and a test that has heard a failure
is as good as decided (`Eval.DecidedBy`).
-/

namespace Lisp

/-- The machines answer all requests alike, except the one if it is made in the world. -/
def Machine.AgreesBut (m n : Machine) (r : Request) (u : World) : Prop :=
  ∀ r' u', (r', u') ≠ (r, u) → n r' u' = m r' u'

/-- The evaluation makes the request in the world, on its way from `w`: its outcome hangs on
the answer. -/
def Machine.Asks (m : Machine) {α : Type} (x : Machine → Eval α) (w : World) (r : Request)
    (u : World) : Prop :=
  ∃ n, m.AgreesBut n r u ∧ x n w ≠ x m w

/-- What a test comes to when a request of it fails. -/
def Request.verdict (r : Request) (f : Failure) : Answer Bool :=
  match r with
  | .eval .. => .failed (if f.cause.isRecur then .recurOutsideTail else f)
  | .apply .. => .failed f
  | .unfold .. => if Mode.test.excuses f.cause then .ok false else .failed f

/-! ### Two machines side by side -/

namespace Eval

/-- The evaluations do the same, unless the first one fails in one of the ways. -/
def SameUnless (fails : Failure → World → Prop) (x y : Eval α) : Prop :=
  ∀ w, y w = x w ∨ ∃ f w', x w = (.failed f, w') ∧ fails f w'

/-- The tests do the same, unless the first one has the outcome. -/
def DecidedBy (outcome : Answer Bool × World) (x y : Eval Bool) : Prop :=
  ∀ w, y w = x w ∨ x w = outcome

namespace SameUnless

variable {fails : Failure → World → Prop}

theorem refl (x : Eval α) : SameUnless fails x x :=
  fun _ => .inl rfl

/-- One evaluation after another. -/
theorem bind {x y : Eval α} {k l : α → Eval β} (hx : SameUnless fails x y)
    (hk : ∀ a, SameUnless fails (k a) (l a)) : SameUnless fails (x >>= k) (y >>= l) := by
  intro w
  rcases hx w with hsame | ⟨f, w', hfailed, hf⟩
  · rw [bind_run, bind_run, hsame]
    rcases x w with ⟨answer, u⟩
    cases answer with
    | ok a => exact hk a u
    | failed f => exact .inl rfl
    | outOfFuel => exact .inl rfl
  · refine .inr ⟨f, w', ?_, hf⟩
    rw [bind_run, hfailed]

/-- What only asks and requests differs only where a request of it does. -/
theorem straight {m n : Machine} {R : Request → Prop}
    (hR : ∀ r, R r → SameUnless fails (m r) (n r)) {x : Machine → Eval α}
    (hx : Machine.Straight R x) : SameUnless fails (x m) (x n) := by
  induction hx with
  | pure a => exact .refl _
  | fail _ => exact .refl _
  | ask _ => exact .refl _
  | request r hr => exact hR r hr
  | bind _ _ ihx ihk => exact .bind ihx ihk

end SameUnless

namespace DecidedBy

variable {outcome : Answer Bool × World}

theorem refl (x : Eval Bool) : DecidedBy outcome x x :=
  fun _ => .inl rfl

/-- A failure decides what follows. -/
theorem seq {x y : Eval α} {k l : α → Eval Bool}
    (hx : SameUnless (fun f w' => (.failed f, w') = outcome) x y)
    (hk : ∀ a, DecidedBy outcome (k a) (l a)) : DecidedBy outcome (x >>= k) (y >>= l) := by
  intro w
  rcases hx w with hsame | ⟨f, w', hfailed, hf⟩
  · rw [bind_run, bind_run, hsame]
    rcases x w with ⟨answer, u⟩
    cases answer with
    | ok a => exact hk a u
    | failed f => exact .inl rfl
    | outOfFuel => exact .inl rfl
  · refine .inr ?_
    rw [bind_run, hfailed]
    exact hf

/-- A test that is decided otherwise than by a yes decides what follows. -/
theorem both (hyes : outcome.1 ≠ .ok true) {x y k l : Eval Bool}
    (hx : DecidedBy outcome x y) (hk : DecidedBy outcome k l) :
    DecidedBy outcome (do if ← x then k else return false)
      (do if ← y then l else return false) := by
  intro w
  rcases hx w with hsame | hdecided
  · rw [bind_run, bind_run, hsame]
    rcases x w with ⟨answer, u⟩
    cases answer with
    | failed f => exact .inl rfl
    | outOfFuel => exact .inl rfl
    | ok fits =>
        cases fits with
        | true => exact hk u
        | false => exact .inl rfl
  · refine .inr ?_
    rw [bind_run, hdecided]
    obtain ⟨answer, u⟩ := outcome
    cases answer with
    | failed f => rfl
    | outOfFuel => rfl
    | ok fits =>
        cases fits with
        | true => exact absurd rfl hyes
        | false => rfl

end DecidedBy

end Eval

/-- No failure makes a value fit. -/
theorem Request.verdict_ne_yes (r : Request) (f : Failure) : r.verdict f ≠ .ok true := by
  cases r with
  | eval frame form => exact fun heq => nomatch heq
  | apply source callee args => exact fun heq => nomatch heq
  | unfold sequence taken =>
      unfold verdict
      dsimp only
      split <;> exact fun heq => nomatch heq

namespace Machine

open Eval (SameUnless DecidedBy)

/-- A test without elements: there may be none to be had, for all it knows. -/
theorem withElements_of_failed (m : Machine) {value : Value} {next : List Value → Eval Bool}
    {w u : World} {f : Failure} (h : m.iterate value w = (.failed f, u)) :
    m.withElements .test value next w =
      (if Mode.test.excuses f.cause then .ok false else .failed f, u) := by
  have helements : m.elements .test value w =
      if Mode.test.excuses f.cause then (.ok none, u) else (.failed f, u) := by
    rw [m.elements_eq_rescue]
    unfold Eval.rescue
    rw [Eval.bind_run, h]
    rfl
  unfold withElements
  rw [Eval.bind_run, helements]
  by_cases hexcused : Mode.test.excuses f.cause = true
  · simp only [hexcused, if_true]
    rfl
  · simp only [hexcused]
    rfl

section

variable {m n : Machine} {r : Request} {u u' : World} {f : Failure} (frame : FrameId)
variable (hagree : m.AgreesBut n r u) (hfailed : m r u = (.failed f, u'))
include hagree hfailed

/-! ### The parts of the binder -/

/-- A request differs only if it is the one that fails. -/
theorem request_sameUnless (r' : Request) :
    SameUnless (fun g w' => r' = r ∧ g = f ∧ w' = u') (m r') (n r') := by
  intro w
  by_cases hone : (r', w) = (r, u)
  · obtain ⟨rfl, rfl⟩ := Prod.mk.injEq .. ▸ hone
    exact .inr ⟨f, u', hfailed, rfl, rfl, rfl⟩
  · exact .inl (hagree r' w hone)

/-- What only asks and calls reports the failure. -/
theorem calls_sameUnless {x : Machine → Eval α} (hx : Straight Request.IsCall x) :
    SameUnless (fun g w' => (.failed g, w') = (r.verdict f, u')) (x m) (x n) := by
  refine .straight (fun r' hcall w => ?_) hx
  rcases request_sameUnless hagree hfailed r' w with hsame | ⟨g, w', hrun, rfl, rfl, rfl⟩
  · exact .inl hsame
  · obtain ⟨source, callee, args, rfl⟩ := hcall
    exact .inr ⟨_, _, hrun, rfl⟩

/-- A form that is used in place reports the failure, and a recur as a misuse. -/
theorem value_sameUnless (form : Value) :
    SameUnless (fun g w' => (.failed g, w') = (r.verdict f, u'))
      (m.value frame form) (n.value frame form) := by
  intro w
  unfold value Eval.noRecur Eval.onFailure eval
  rcases request_sameUnless hagree hfailed (.eval frame form) w with
    hsame | ⟨g, w', hrun, rfl, rfl, rfl⟩
  · exact .inl (by rw [hsame])
  · rw [hrun]
    exact .inr ⟨_, _, rfl, rfl⟩

/-- A production of elements that fails with a mismatch decides the test, and any other
failure of it is reported. -/
theorem withElements_decidedBy (value : Value) {next next' : List Value → Eval Bool}
    (hnext : ∀ values, DecidedBy (r.verdict f, u') (next values) (next' values)) :
    DecidedBy (r.verdict f, u') (m.withElements .test value next)
      (n.withElements .test value next') := by
  have hiterate : SameUnless (fun g w' => r.IsUnfolding ∧ g = f ∧ w' = u')
      (m.iterate value) (n.iterate value) := by
    refine .straight (fun r' hunfold w => ?_) (.iterate value)
    rcases request_sameUnless hagree hfailed r' w with hsame | ⟨g, w', hrun, rfl, rfl, rfl⟩
    · exact .inl hsame
    · exact .inr ⟨_, _, hrun, hunfold, rfl, rfl⟩
  intro w
  unfold withElements
  rw [Eval.bind_run, Eval.bind_run]
  rcases hiterate w with hsame | ⟨g, w', hrun, ⟨sequence, taken, rfl⟩, rfl, rfl⟩
  · have helements : n.elements .test value w = m.elements .test value w := by
      unfold elements
      rw [hsame]
    rw [helements]
    rcases m.elements .test value w with ⟨answer, w₁⟩
    cases answer with
    | failed g => exact .inl rfl
    | outOfFuel => exact .inl rfl
    | ok values =>
        cases values with
        | none => exact .inl rfl
        | some values => exact hnext values w₁
  · refine .inr ?_
    rw [← Eval.bind_run, ← withElements, m.withElements_of_failed hrun]
    rfl

/-- A literal pattern. -/
theorem takeLiteral_decidedBy (literal value : Value) (wording : String → String → Failure) :
    DecidedBy (r.verdict f, u') (m.takeLiteral .test literal value wording)
      (n.takeLiteral .test literal value wording) :=
  .seq (calls_sameUnless hagree hfailed (.equal literal value)) fun _ => .refl _

/-- A typed pattern. -/
theorem withType_decidedBy (head value : Value) {next next' : Eval Bool}
    (hnext : DecidedBy (r.verdict f, u') next next') :
    DecidedBy (r.verdict f, u') (m.withType .test frame head value next)
      (n.withType .test frame head value next') := by
  refine .seq ?_ fun tag => ?_
  · exact .bind (value_sameUnless frame hagree hfailed head) fun _ => .refl _
  · split
    · exact hnext
    · exact .refl _

/-- To be decided by the failure passes from the parts of a pattern to the pattern. -/
theorem compatible_decidedBy :
    Compatible (DecidedBy (r.verdict f, u')) m n .test .test frame where
  name _ _ := .refl _
  fail _ := .refl _
  finished _ := .refl _
  missing _ := .refl _
  both := .both (r.verdict_ne_yes f)
  literal _ := takeLiteral_decidedBy hagree hfailed _ _ _
  elements value _ _ := withElements_decidedBy hagree hfailed value
  type head value _ _ := withType_decidedBy frame hagree hfailed head value
  membered hxy := by
    split
    · exact hxy
    · exact .refl _
  member hnext := .seq (value_sameUnless frame hagree hfailed _) fun key =>
    .seq (calls_sameUnless hagree hfailed (.get _ key)) hnext

end

/-- A request that fails decides the test that makes it. -/
theorem destructure_of_failed (m : Machine) {frame : FrameId} {pattern v : Value} {w : World}
    {r : Request} {u u' : World} {f : Failure}
    (hasks : m.Asks (fun m => m.destructure .test frame pattern v) w r u)
    (hfailed : m r u = (.failed f, u')) :
    m.destructure .test frame pattern v w = (r.verdict f, u') := by
  obtain ⟨n, hagree, hne⟩ := hasks
  have hdecided := (compatible_decidedBy frame hagree hfailed).destructuring.1 pattern v
  exact (hdecided w).resolve_left hne

end Machine

/-! ### The code behind a sequence -/

/-- With the fuel, the production of elements breaks off with a failure: that of `empty?`,
or of the truth of what it answers, that of `first` or that of `rest`, for the sequence
itself or for what its `rest` is. -/
inductive Breaks : Nat → Value → World → Failure → World → Prop
  | empty {fuel : Nat} {s : Value} {w w' : World} {f : Failure}
      (hempty : (run fuel).dispatchBool .isEmpty [s] w = (.failed f, w')) :
      Breaks (fuel + 1) s w f w'
  | first {fuel : Nat} {s : Value} {w w₁ w' : World} {f : Failure}
      (hempty : (run fuel).dispatchBool .isEmpty [s] w = (.ok false, w₁))
      (hfirst : (run fuel).dispatch .first [s] w₁ = (.failed f, w')) : Breaks (fuel + 1) s w f w'
  | rest {fuel : Nat} {s item : Value} {w w₁ w₂ w' : World} {f : Failure}
      (hempty : (run fuel).dispatchBool .isEmpty [s] w = (.ok false, w₁))
      (hfirst : (run fuel).dispatch .first [s] w₁ = (.ok item, w₂))
      (hrest : (run fuel).dispatch .rest [s] w₂ = (.failed f, w')) : Breaks (fuel + 1) s w f w'
  | later {fuel : Nat} {s item next : Value} {w w₁ w₂ w₃ w' : World} {f : Failure}
      (hempty : (run fuel).dispatchBool .isEmpty [s] w = (.ok false, w₁))
      (hfirst : (run fuel).dispatch .first [s] w₁ = (.ok item, w₂))
      (hrest : (run fuel).dispatch .rest [s] w₂ = (.ok next, w₃)) (hnext : next ≠ .nil)
      (hlater : Breaks fuel next w₃ f w') : Breaks (fuel + 1) s w f w'

/-- A production of elements fails as the code that it runs does. -/
theorem run_unfold_failed_iff {fuel : Nat} {s : Value} {taken : List Value} {w w' : World}
    {f : Failure} : run fuel (.unfold s taken) w = (.failed f, w') ↔ Breaks fuel s w f w' := by
  induction fuel generalizing s taken w with
  | zero => exact ⟨nofun, nofun⟩
  | succ fuel ih =>
      rw [run_unfold_succ]
      unfold Machine.unfoldStep
      constructor
      · intro hrun
        rw [bind_assoc] at hrun
        rcases Eval.bind_eq_failed hrun with hempty | ⟨isEmpty, w₁, hempty, hrun⟩
        · exact .empty hempty
        cases isEmpty with
        | true => cases hrun
        | false =>
            simp only [Bool.false_eq_true, if_false, bind_assoc] at hrun
            rcases Eval.bind_eq_failed hrun with hfirst | ⟨item, w₂, hfirst, hrun⟩
            · exact .first hempty hfirst
            rcases Eval.bind_eq_failed hrun with hrest | ⟨next, w₃, hrest, hrun⟩
            · exact .rest hempty hfirst hrest
            by_cases hnext : next = .nil
            · subst hnext
              cases hrun
            · have hlater : run fuel (.unfold next (item :: taken)) w₃ = (.failed f, w') := by
                rw [← hrun]
                cases next <;> first | exact absurd rfl hnext | rfl
              exact .later hempty hfirst hrest hnext (ih.mp hlater)
      · intro hbreaks
        rw [bind_assoc]
        cases hbreaks with
        | empty hempty => rw [Eval.bind_run, hempty]
        | first hempty hfirst =>
            rw [Eval.bind_of_ok hempty]
            simp only [Bool.false_eq_true, if_false, bind_assoc]
            rw [Eval.bind_run, hfirst]
        | rest hempty hfirst hrest =>
            rw [Eval.bind_of_ok hempty]
            simp only [Bool.false_eq_true, if_false, bind_assoc]
            rw [Eval.bind_of_ok hfirst, Eval.bind_run, hrest]
        | @later _ _ item next _ _ _ _ _ _ hempty hfirst hrest hnext hlater =>
            rw [Eval.bind_of_ok hempty]
            simp only [Bool.false_eq_true, if_false, bind_assoc]
            have hrun : run fuel (.unfold next (item :: taken)) _ = _ := ih.mpr hlater
            rw [Eval.bind_of_ok hfirst, Eval.bind_of_ok hrest, ← hrun]
            cases next <;> first | exact absurd rfl hnext | rfl

/-! ### Asking for elements -/

namespace Machine

/-- The elements of a record whose type implements all that it takes to produce them. -/
theorem iterate_unfold (m : Machine) {ty : RecordTypeId} {fields : List Value} {w : World}
    (himplemented : ([CoreInterface.isEmpty, .first, .rest].all fun i =>
      (w.heap.coreImplementation? i [.record ty]).isSome) = true) :
    m.iterate (.record ty fields) w = (do
      match ← m (.unfold (.record ty fields) []) with
      | .list items _ => return items
      | _ => return []) w := by
  have hall := List.all_eq_true.mp himplemented
  unfold iterate
  dsimp only
  rw [Eval.bind_ask]
  obtain ⟨imp, himp⟩ := Option.isSome_iff_exists.mp (hall .isEmpty (by simp))
  rw [himp]
  dsimp only
  unfold iterateByInterface
  have hasked : ([CoreInterface.isEmpty, .first, .rest].all fun i =>
      (w.heap.interfaces[i.id]?.bind (·.implementation? [(Value.record ty fields).tag])).isSome) =
        true := by
    refine List.all_eq_true.mpr fun i hi => ?_
    obtain ⟨imp, himp⟩ := Option.isSome_iff_exists.mp (hall i hi)
    unfold Heap.coreImplementation? at himp
    obtain ⟨interface, hinterface, hregistered⟩ := Option.bind_eq_some_iff.mp himp
    rw [hinterface]
    show (interface.registered? [.record ty] <|> interface.fallback).isSome
    rw [hregistered]
    rfl
  rw [Eval.bind_ask, hasked]
  rfl

/-- A machine may leave a request without an answer. -/
theorem exists_silent (m : Machine) (r : Request) (u : World) :
    ∃ n, m.AgreesBut n r u ∧ n r u = (.outOfFuel, u) := by
  classical
  exact ⟨fun r' w => if (r', w) = (r, u) then (.outOfFuel, w) else m r' w,
    fun _ _ hne => if_neg hne, if_pos rfl⟩

/-- A row of patterns asks for the elements of such a record. -/
theorem asks_unfold (m : Machine) {frame : FrameId} {patterns fields : List Value}
    {source : Option Span} {ty : RecordTypeId} {w u' : World} {f : Failure}
    (himplemented : ([CoreInterface.isEmpty, .first, .rest].all fun i =>
      (w.heap.coreImplementation? i [.record ty]).isSome) = true)
    (hfailed : m (.unfold (.record ty fields) []) w = (.failed f, u')) :
    m.Asks (fun m => m.destructure .test frame (.list (.sym (.intern "List") :: patterns) source)
      (.record ty fields)) w (.unfold (.record ty fields) []) w := by
  have hrow : ∀ k : Machine, k.destructure .test frame
      (.list (.sym (.intern "List") :: patterns) source) (.record ty fields) w =
        k.withElements .test (.record ty fields) (k.destructureSequence .test frame patterns) w :=
    fun k => by
      rw [destructure]
      rfl
  obtain ⟨silent, hagree, hself⟩ := m.exists_silent (.unfold (.record ty fields) []) w
  have hsilent : silent.elements .test (.record ty fields) w = (.outOfFuel, w) := by
    unfold elements
    rw [iterate_unfold _ himplemented, Eval.bind_run, hself]
  have hbroken : m.iterate (.record ty fields) w = (.failed f, u') := by
    rw [iterate_unfold _ himplemented, Eval.bind_run, hfailed]
  refine ⟨silent, hagree, fun heq => ?_⟩
  dsimp only at heq
  rw [hrow, hrow, m.withElements_of_failed hbroken] at heq
  unfold withElements at heq
  rw [Eval.bind_run, hsilent] at heq
  have hanswer := congrArg Prod.fst heq
  dsimp only at hanswer
  split at hanswer <;> cases hanswer

end Machine

/-! ### Tests of an interpreter -/

/-- Code that fails while a pattern is tested decides the test, and nothing happens after
it.  The failure of a head, of a key, of a declared equality or of a conversion to truth is
what the test comes to.  So is that of an `empty?`, a `first` or a `rest`, unless it is a
type mismatch, to which the answer is no. -/
theorem run_test_of_failed {fuel : Nat} {frame : FrameId} {pattern v : Value} {w : World}
    {r : Request} {u u' : World} {f : Failure}
    (hasks : (run fuel).Asks (fun m => m.destructure .test frame pattern v) w r u)
    (hfailed : run fuel r u = (.failed f, u')) :
    (run fuel).destructure .test frame pattern v w = (r.verdict f, u') ∧
      ∀ sequence taken, r = .unfold sequence taken → Breaks fuel sequence u f u' := by
  refine ⟨(run fuel).destructure_of_failed hasks hfailed, ?_⟩
  rintro sequence taken rfl
  exact run_unfold_failed_iff.mp hfailed

/-- The failure of an answer, if it is one. -/
def Answer.failure? {α : Type} : Answer α → Option Failure
  | .failed f => some f
  | _ => none

/-- An outcome that fails, in full. -/
theorem Answer.exists_failed {α : Type} {outcome : Answer α × World} {f : Failure}
    (h : outcome.1.failure? = some f) : ∃ u, outcome = (.failed f, u) := by
  obtain ⟨answer, u⟩ := outcome
  cases answer with
  | failed g =>
      cases h
      exact ⟨u, rfl⟩
  | ok a => cases h
  | outOfFuel => cases h

namespace Broken

/-- A procedure of one parameter. -/
def proc (body : Value) : Closure where
  params := [.symbol "t"]
  body := [body]
  frame := Heap.global
  expands := false

/-- Two types, and an interpreter in which neither can say whether a sequence is empty: one
throws, and the other adds nil to a number. -/
def heap : Heap :=
  { Heap.core with
    closures := #[proc (.ofList [.symbol "throw", .keyword "broken"]),
      proc (.ofList [.symbol "+", .num 1, .nil])]
    recordTypes := #[{ name := .intern "T", fields := [] }, { name := .intern "U", fields := [] }] }

/-- The interfaces of sequences, implemented for both types by these procedures. -/
def world : World where
  heap := [CoreInterface.isEmpty, .first, .rest].foldl
    (fun h i => (h.register i.id [.record 0] (.closure 0)).register i.id [.record 1] (.closure 1))
    heap

/-- What the production of the elements of a record without fields fails with. -/
def failure? (fuel : Nat) (ty : RecordTypeId) : Option Failure :=
  (run fuel (.unfold (.record ty []) []) world).1.failure?

end Broken

/-- The theorem at these two types: the thrown value is reported, and the type mismatch is
taken for a no. -/
theorem run_test_of_failed_broken :
    let w := Broken.world
    let pattern : Value := .list [.sym (.intern "List")] none
    (∃ f u', f.cause.name = "thrown" ∧ Breaks 10 (.record 0 []) w f u' ∧
      (run 10).destructure .test Heap.global pattern (.record 0 []) w = (.failed f, u')) ∧
    ∃ f u', f.cause.name = "type-mismatch" ∧ Breaks 10 (.record 1 []) w f u' ∧
      (run 10).destructure .test Heap.global pattern (.record 1 []) w = (.ok false, u') := by
  intro w pattern
  have hbroken : ∀ ty cause excused,
      (Broken.failure? 10 ty).map (fun f => (f.cause.name, Mode.test.excuses f.cause)) =
        some (cause, excused) →
      ([CoreInterface.isEmpty, .first, .rest].all fun i =>
        (w.heap.coreImplementation? i [.record ty]).isSome) = true →
      ∃ f u', f.cause.name = cause ∧ Breaks 10 (.record ty []) w f u' ∧
        (run 10).destructure .test Heap.global pattern (.record ty []) w =
          (if excused then .ok false else .failed f, u') := by
    intro ty cause excused hcause himplemented
    obtain ⟨f, hfailure, hname⟩ := Option.map_eq_some_iff.mp hcause
    cases hname
    obtain ⟨u', hfailed⟩ := Answer.exists_failed hfailure
    have hasks : (run 10).Asks (fun m => m.destructure .test Heap.global pattern (.record ty [])) w
        (.unfold (.record ty []) []) w := (run 10).asks_unfold himplemented hfailed
    obtain ⟨hrun, hbreaks⟩ := run_test_of_failed hasks hfailed
    exact ⟨f, u', rfl, hbreaks _ _ rfl, hrun⟩
  exact ⟨hbroken 0 "thrown" false (by decide +kernel) (by decide +kernel),
    hbroken 1 "type-mismatch" true (by decide +kernel) (by decide +kernel)⟩

end Lisp
