import Lisp.Proofs.Fuel
import Lisp.Proofs.Scope.Programs

/-!
# Overrides

A program gives a record type an equality or a hash of its own by implementing an
interface for it.  The implementation is then kept twice: in the table of the
interface, which dispatch looks into, and with the record type, where comparisons
inside lists, maps and patterns find it.

`World.Coherent` says what follows for a world in which the two agree, and every
world that programs reach is one.

* Two declarations never give the same type (`Machine.evalRecordType_ne`).
* Two records of one type are compared alike by dispatch and by the comparison
  (`comesTo_dispatch_iff_of_override`, `comesTo_dispatch_iff_of_default`), except that
  dispatch makes one call more when it falls back on the default.  That call can be
  seen, by an equality that looks for it on the stack of an error.
* An implementation that is rejected leaves no trace (`Machine.Rejects.fails`).
-/

namespace Lisp

/-! ### Declarations of record types -/

/-- The symbols of a list are read off it. -/
theorem Machine.symbolsOf_ok {form : SpecialForm} {items : List Value} {names : List Symbol}
    {w w' : World} (h : symbolsOf form items w = (.ok names, w')) : w' = w := by
  fun_induction Machine.symbolsOf form items generalizing names with
  | case1 =>
      cases h
      rfl
  | case2 s rest ih =>
      obtain ⟨others, u, hothers, hnames⟩ := Eval.bind_eq_ok h
      cases hnames
      exact ih hothers
  | case3 other rest hsym => cases h

theorem Machine.symbolList_ok {form : SpecialForm} {v : Value} {names : List Symbol}
    {w w' : World} (h : symbolList form v w = (.ok names, w')) : w' = w := by
  unfold symbolList at h
  split at h
  · exact symbolsOf_ok h
  · cases h

theorem Machine.expectOperands_ok {form : SpecialForm} {arity : Arity} {ops : List Value}
    {w w' : World} {u : Unit} (h : expectOperands form arity ops w = (.ok u, w')) : w' = w := by
  unfold expectOperands at h
  split at h
  · cases h
    rfl
  · cases h

/-- A declaration gives its type the number of the cell that it adds. -/
theorem Machine.evalRecordType_ok {frame : FrameId} {ops : List Value} {w w' : World} {v : Value}
    (h : evalRecordType frame ops w = (.ok v, w')) :
    v = .type (.record w.heap.types) ∧ w'.heap.types = w.heap.types + 1 := by
  obtain ⟨_, w₁, hops, hrest⟩ := Eval.bind_eq_ok h
  obtain ⟨names, w₂, hnames, hdeclared⟩ := Eval.bind_eq_ok hrest
  obtain rfl : w₂ = w := (symbolList_ok hnames).trans (expectOperands_ok hops)
  cases names with
  | nil => cases hdeclared
  | cons name fields =>
      cases hdeclared
      exact ⟨rfl, Array.size_push _⟩

/-! ### Rejected implementations -/

/-- The operands of a `def-impl` evaluate from one world to another, and what they
come to is no implementation: there are not three of them, the first is no
interface, the second is no list of types, or there are not as many types as the
interface dispatches on. -/
inductive Machine.Rejects (m : Machine) (frame : FrameId) : List Value → World → World → Prop
  | operands {ops : List Value} {w : World} (hops : ops.length ≠ 3) : Rejects m frame ops w w
  | interface {target types form v : Value} {w w' : World}
      (htarget : m.value frame target w = (.ok v, w')) (hv : ∀ id, v ≠ .interface id) :
      Rejects m frame [target, types, form] w w'
  | typeList {target types form : Value} {id : InterfaceId} {w w' : World}
      (htarget : m.value frame target w = (.ok (.interface id), w'))
      (htypes : ∀ items source, types ≠ .list items source) :
      Rejects m frame [target, types, form] w w'
  | type {target form other v : Value} {before after : List Value} {source : Option Span}
      {id : InterfaceId} {key : List TypeTag} {w w₁ w₂ w' : World}
      (htarget : m.value frame target w = (.ok (.interface id), w₁))
      (hbefore : m.typesOf frame before w₁ = (.ok key, w₂))
      (hother : m.value frame other w₂ = (.ok v, w')) (hv : ∀ tag, v ≠ .type tag) :
      Rejects m frame [target, .list (before ++ other :: after) source, form] w w'
  | arity {target form imp : Value} {types : List Value} {source : Option Span}
      {id : InterfaceId} {i : Interface} {key : List TypeTag} {w w₁ w₂ w' : World}
      (htarget : m.value frame target w = (.ok (.interface id), w₁))
      (htypes : m.typesOf frame types w₁ = (.ok key, w₂))
      (hform : m.value frame form w₂ = (.ok imp, w'))
      (hi : w'.heap.interfaces[id]? = some i) (hkey : key.length ≠ i.arity) :
      Rejects m frame [target, .list types source, form] w w'

/-- The types before one that is none are evaluated, and so is that one. -/
theorem Machine.typesOf_append_not_type {m : Machine} {frame : FrameId} {before after : List Value}
    {other v : Value} {key : List TypeTag} {w w₁ w' : World}
    (hbefore : m.typesOf frame before w = (.ok key, w₁))
    (hother : m.value frame other w₁ = (.ok v, w')) (hv : ∀ tag, v ≠ .type tag) :
    ∃ f, m.typesOf frame (before ++ other :: after) w = (.failed f, w') := by
  induction before generalizing key w with
  | nil =>
      cases hbefore
      rw [List.nil_append, typesOf, Eval.bind_of_ok hother]
      split
      · exact absurd rfl (hv _)
      · exact ⟨_, rfl⟩
  | cons form rest ih =>
      rw [typesOf] at hbefore
      obtain ⟨type, u, hform, hrest⟩ := Eval.bind_eq_ok hbefore
      rw [List.cons_append, typesOf, Eval.bind_of_ok hform]
      split at hrest
      · obtain ⟨tags, u', htags, hkey⟩ := Eval.bind_eq_ok hrest
        cases hkey
        obtain ⟨f, hf⟩ := ih htags
        refine ⟨f, ?_⟩
        rw [Eval.bind_run, hf]
      · cases hrest

/-- With three operands, the form evaluates them in order. -/
theorem Machine.evalImplementation_three (m : Machine) (frame : FrameId)
    (target types form : Value) :
    m.evalImplementation frame [target, types, form] = (do
      match ← m.value frame target with
      | .interface id =>
        match types with
        | .list forms _ =>
          let key ← m.typesOf frame forms
          let imp ← m.value frame form
          m.implement id key imp
          return imp
        | other => Eval.failShowing other (.expectsGot "def-impl expects a list of types")
      | other => Eval.failShowing other (.expectsGot "def-impl expects an interface")) :=
  rfl

/-- Types that do not conform to an interface are not registered. -/
theorem Machine.implement_nonconforming (m : Machine) {id : InterfaceId} {i : Interface}
    {key : List TypeTag} (imp : Value) {w : World} (hi : w.heap.interfaces[id]? = some i)
    (hkey : key.length ≠ i.arity) : ∃ f, m.implement id key imp w = (.failed f, w) := by
  have hinterface : Eval.interface? id w = (.ok (some i), w) := by
    show (Answer.ok w.heap.interfaces[id]?, w) = _
    rw [hi]
  refine ⟨.nonconformingKey (w.heap.describeKey i.name key) i.signature, ?_⟩
  unfold implement
  rw [Eval.bind_of_ok hinterface]
  simp only [if_neg hkey]
  rfl

/-- A rejected implementation leaves the world as the evaluation of its operands
left it. -/
theorem Machine.Rejects.fails {m : Machine} {frame : FrameId} {ops : List Value} {w w' : World}
    (h : m.Rejects frame ops w w') :
    ∃ f, m.evalImplementation frame ops w = (.failed f, w') := by
  cases h with
  | operands hops =>
      have hcount : (Arity.exactly 3).accepts ops.length = false := by
        refine Bool.eq_false_iff.mpr fun haccepts => hops ?_
        obtain ⟨hmin, hmax⟩ := Bool.and_eq_true_iff.mp haccepts
        exact Nat.le_antisymm (of_decide_eq_true hmax) (of_decide_eq_true hmin)
      refine ⟨.operandCount SpecialForm.implementation.name (.exactly 3) ops.length, ?_⟩
      unfold evalImplementation expectOperands
      rw [hcount]
      rfl
  | interface htarget hv =>
      rw [evalImplementation_three, Eval.bind_of_ok htarget]
      split
      · exact absurd rfl (hv _)
      · exact ⟨_, rfl⟩
  | typeList htarget htypes =>
      rw [evalImplementation_three, Eval.bind_of_ok htarget]
      dsimp only
      split
      · exact absurd rfl (htypes _ _)
      · exact ⟨_, rfl⟩
  | type htarget hbefore hother hv =>
      obtain ⟨f, hf⟩ := typesOf_append_not_type hbefore hother hv
      refine ⟨f, ?_⟩
      rw [evalImplementation_three, Eval.bind_of_ok htarget]
      dsimp only
      rw [Eval.bind_run, hf]
  | arity htarget htypes hform hi hkey =>
      obtain ⟨f, hf⟩ := m.implement_nonconforming _ hi hkey
      refine ⟨f, ?_⟩
      rw [evalImplementation_three, Eval.bind_of_ok htarget]
      dsimp only
      rw [Eval.bind_of_ok htypes, Eval.bind_of_ok hform, Eval.bind_run, hf]

/-! ### Dispatch of the equality -/

/-- The implementation that the equality selects for two records of one type: the
one recorded with the type, else the default. -/
def Heap.equalityOf (h : Heap) (ty : RecordTypeId) : Value :=
  (h.equality? ty).getD (.builtin (.core .equals))

section

variable {w : World} (hw : w.Conforms) (ty : RecordTypeId) (xs ys : List Value)
include hw

theorem implementationFor_equals :
    Machine.implementationFor CoreInterface.equals.id [.record ty xs, .record ty ys] w =
      (.ok (w.heap.equalityOf ty), w) := by
  obtain ⟨i, hi, harity, hfallback, -⟩ := hw.heap.equating
  have hregistered : i.registered? [.record ty, .record ty] = w.heap.equality? ty := by
    rw [hw.heap.equality ty, Heap.coreImplementation?, hi]
    rfl
  have himplementation : i.implementation? [.record ty, .record ty] =
      some (w.heap.equalityOf ty) := by
    unfold Interface.implementation? Heap.equalityOf
    rw [hregistered, hfallback]
    cases w.heap.equality? ty <;> rfl
  unfold Machine.implementationFor
  simp only [hi, harity, List.length_cons, List.length_nil, List.take, List.map, Value.tag,
    himplementation]
  rfl

/-- A dispatch is a call of the implementation selected, one turn later. -/
theorem run_dispatch_equals (fuel : Nat) :
    (run (fuel + 1)).dispatch .equals [.record ty xs, .record ty ys] w =
      (run fuel).call (w.heap.equalityOf ty) [.record ty xs, .record ty ys] w := by
  have hselected := implementationFor_equals hw ty xs ys
  have hstep : (run fuel).step
      (.apply none (.interface CoreInterface.equals.id) [.record ty xs, .record ty ys]) w =
        (.ok (.again (.apply none (w.heap.equalityOf ty) [.record ty xs, .record ty ys])), w) := by
    show (Machine.implementationFor CoreInterface.equals.id [.record ty xs, .record ty ys] >>=
      fun imp => Pure.pure (Next.again (.apply none imp [.record ty xs, .record ty ys])) :
        Eval Next) w = _
    rw [Eval.bind_run, hselected]
    rfl
  unfold Machine.dispatch Machine.call
  rw [run_succ, Machine.turnWith, Machine.stepWith_nested, Eval.bind_run, hstep]
  rfl

omit hw in
/-- With an equality of its own, a type is compared by a call of it. -/
theorem equal_of_override (m : Machine) {imp : Value} (himp : w.heap.equality? ty = some imp) :
    m.equal (.record ty xs) (.record ty ys) w =
      (m.call imp [.record ty xs, .record ty ys] >>= m.toBool) w := by
  rw [Machine.equal]
  simp only [if_true]
  rw [Eval.bind_run]
  simp only [Eval.ask, himp]

/-- The equality dispatched, and the comparison, of two records of a type with an
equality of its own: both call it, and convert what it answers. -/
theorem comesTo_dispatch_iff_of_override {answer : Answer Bool} {w' : World}
    (hdeclared : (w.heap.equality? ty).isSome) :
    ComesTo (·.dispatchBool .equals [.record ty xs, .record ty ys]) w answer w' ↔
      ComesTo (·.equal (.record ty xs) (.record ty ys)) w answer w' := by
  obtain ⟨imp, himp⟩ := Option.isSome_iff_exists.mp hdeclared
  have hselected : w.heap.equalityOf ty = imp := by
    rw [Heap.equalityOf, himp]
    rfl
  have hdispatch : ∀ k, (run (k + 1)).dispatchBool .equals [.record ty xs, .record ty ys] w =
      ((run k).call imp [.record ty xs, .record ty ys] >>= (run (k + 1)).toBool) w := by
    intro k
    unfold Machine.dispatchBool
    rw [Eval.bind_run, run_dispatch_equals hw ty xs ys k, hselected, Eval.bind_run]
  have hequal := fun m => equal_of_override ty xs ys m himp
  constructor
  · refine ComesTo.mono fun k => ?_
    cases k with
    | zero => exact ⟨0, .inl rfl⟩
    | succ k =>
        have hmore := run_extends (Nat.le_succ k)
        refine ⟨k + 1, ?_⟩
        rw [hdispatch k, hequal]
        exact Eval.Extends.bind (hmore.call (e := none) (t := true) _ _) (fun _ _ => .refl _) w
  · refine ComesTo.mono fun k => ?_
    have hmore := run_extends (Nat.le_succ k)
    refine ⟨k + 1, ?_⟩
    rw [hdispatch k, hequal]
    exact Eval.Extends.bind (.refl _)
      (fun answer _ => hmore.toBool (e := none) (t := true) answer) w

omit hw in
/-- The default equality is the comparison, inside a call of its own. -/
theorem run_call_equals (fuel : Nat) (a b : Value) :
    (run (fuel + 1)).call (.builtin (.core .equals)) [a, b] =
      Eval.inCall ⟨"equals", none⟩
        ((run fuel).equal a b >>= fun same => Pure.pure (.bool same)) := by
  have hbuiltin : (run fuel).callBuiltin (.core .equals) [a, b] =
      ((run fuel).equal a b >>= fun same => Pure.pure (.bool same)) := rfl
  have hstep : (run fuel).step (.apply none (.builtin (.core .equals)) [a, b]) =
      (Eval.inCall ⟨"equals", none⟩
        ((run fuel).equal a b >>= fun same => Pure.pure (.bool same)) >>=
          fun v => Pure.pure (Next.done v)) := by
    rw [← hbuiltin]
    rfl
  funext w
  unfold Machine.call
  rw [run_succ, Machine.turnWith, Machine.stepWith_nested, hstep, Eval.bind_run, Eval.bind_run]
  rcases Eval.inCall ⟨"equals", none⟩ _ w with ⟨answer, w'⟩
  cases answer <;> rfl

omit hw in
/-- A truth value that a call makes of what it computes is that again. -/
theorem inCall_bool_toBool (m : Machine) (call : Call) (x : Eval Bool) :
    (Eval.inCall call (x >>= fun same => Pure.pure (Value.bool same)) >>= m.toBool) =
      Eval.inCall call x := by
  funext w
  rw [Eval.bind_run]
  unfold Eval.inCall Eval.onFailure
  rw [Eval.bind_run]
  rcases x { w with calls := call :: w.calls } with ⟨answer, w'⟩
  cases answer <;> rfl

/-- The equality dispatched on two records of a type without an equality of its own
is the comparison, inside the call of the default. -/
theorem comesTo_dispatch_iff_of_default {answer : Answer Bool} {w' : World}
    (hdefault : w.heap.equality? ty = none) :
    ComesTo (·.dispatchBool .equals [.record ty xs, .record ty ys]) w answer w' ↔
      ComesTo (fun m => Eval.inCall ⟨"equals", none⟩ (m.equal (.record ty xs) (.record ty ys)))
        w answer w' := by
  have hselected : w.heap.equalityOf ty = .builtin (.core .equals) := by
    rw [Heap.equalityOf, hdefault]
    rfl
  have hdispatch : ∀ k, (run (k + 2)).dispatchBool .equals [.record ty xs, .record ty ys] w =
      Eval.inCall ⟨"equals", none⟩ ((run k).equal (.record ty xs) (.record ty ys)) w := by
    intro k
    rw [← inCall_bool_toBool (run (k + 2)) ⟨"equals", none⟩, ← run_call_equals, ← hselected]
    unfold Machine.dispatchBool
    rw [Eval.bind_run, run_dispatch_equals hw ty xs ys (k + 1), Eval.bind_run]
  constructor
  · refine ComesTo.mono fun k => ?_
    match k with
    | 0 => exact ⟨0, .inl rfl⟩
    | 1 =>
        refine ⟨0, .inl ?_⟩
        unfold Machine.dispatchBool
        rw [Eval.bind_run, run_dispatch_equals hw ty xs ys 0]
        rfl
    | k + 2 => exact ⟨k, .inr (hdispatch k).symm⟩
  · exact ComesTo.mono fun k => ⟨k + 2, .inr (hdispatch k)⟩

end

/-! ### The tables of a programmed world -/

/-- What can be said of the tables of a world, and of what its programs can do to
them and see of them. -/
structure World.Coherent (w : World) : Prop where
  /-- Every key of an interface has the length that the interface dispatches on. -/
  keys : ∀ {id : InterfaceId} {i : Interface}, w.heap.interfaces[id]? = some i →
    ∀ e ∈ i.impls, e.1.length = i.arity
  /-- Nothing mentions a record type that is not declared. -/
  inScope : reach w ≤ w.heap.types
  /-- A declaration gives its type the first number that nothing mentions. -/
  fresh : ∀ {frame : FrameId} {ops : List Value} {v : Value} {w' : World},
    Machine.evalRecordType frame ops w = (.ok v, w') →
      v = .type (.record w.heap.types) ∧ w'.heap.types = w.heap.types + 1
  /-- No later declaration gives the same type, whatever the names. -/
  distinct : ∀ {frame frame' : FrameId} {ops ops' : List Value} {v v' : Value}
    {w₁ w₂ w₃ : World}, Machine.evalRecordType frame ops w = (.ok v, w₁) → w₁.Leads w₂ →
      Machine.evalRecordType frame' ops' w₂ = (.ok v', w₃) → v ≠ v'
  /-- The equality recorded with a type is the one registered for it. -/
  equality : ∀ ty, w.heap.equality? ty =
    w.heap.coreImplementation? .equals [.record ty, .record ty]
  /-- The hash recorded with a type is the one registered for it. -/
  hash : ∀ ty, w.heap.hash? ty = w.heap.coreImplementation? .hash [.record ty]
  /-- Records of a type with an equality of its own are compared alike by dispatch
  and inside other values. -/
  override : ∀ {ty : RecordTypeId} {xs ys : List Value} {answer : Answer Bool} {w' : World},
    (w.heap.equality? ty).isSome →
      (ComesTo (·.dispatchBool .equals [.record ty xs, .record ty ys]) w answer w' ↔
        ComesTo (·.equal (.record ty xs) (.record ty ys)) w answer w')
  /-- Records of any other type are compared alike as well, but for the call of the
  default that dispatch makes. -/
  default : ∀ {ty : RecordTypeId} {xs ys : List Value} {answer : Answer Bool} {w' : World},
    w.heap.equality? ty = none →
      (ComesTo (·.dispatchBool .equals [.record ty xs, .record ty ys]) w answer w' ↔
        ComesTo (fun m => Eval.inCall ⟨"equals", none⟩ (m.equal (.record ty xs) (.record ty ys)))
          w answer w')
  /-- A rejected implementation does no more than evaluate its operands. -/
  rejected : ∀ {fuel : Nat} {frame : FrameId} {ops : List Value} {w' : World},
    (run fuel).Rejects frame ops w w' →
      ∃ f, (run fuel).evalImplementation frame ops w = (.failed f, w')

/-- Two declarations in one session give two numbers. -/
theorem Machine.evalRecordType_ne {frame frame' : FrameId} {ops ops' : List Value} {v v' : Value}
    {w w₁ w₂ w₃ : World} (hw : w.Conforms) (hfirst : evalRecordType frame ops w = (.ok v, w₁))
    (hsession : w₁.Leads w₂) (hsecond : evalRecordType frame' ops' w₂ = (.ok v', w₃)) :
    v ≠ v' := by
  have hkeeps : (evalRecordType frame ops w).2.Conforms :=
    (Eval.Keeps.evalRecordType (n := 0) frame ops w hw (Nat.zero_le _)).1
  rw [hfirst] at hkeeps
  have hgrows := (hsession.conforms hkeeps).2
  obtain ⟨rfl, hadded⟩ := evalRecordType_ok hfirst
  obtain ⟨rfl, -⟩ := evalRecordType_ok hsecond
  intro heq
  have hsame : w.heap.types = w₂.heap.types := by injection heq with htag; injection htag
  omega

/-- **The tables of every world that programs reach agree.** -/
theorem World.Programmed.coherent {w : World} (hw : w.Programmed) : w.Coherent := by
  have hconforms := hw.conforms
  have hscope : reach w ≤ w.heap.types :=
    Nat.max_le.mpr ⟨hconforms.heap.inScope, hconforms.expansions⟩
  exact
    { keys := hconforms.heap.keys
      inScope := hscope
      fresh := Machine.evalRecordType_ok
      distinct := Machine.evalRecordType_ne hconforms
      equality := hconforms.heap.equality
      hash := hconforms.heap.hash
      override := comesTo_dispatch_iff_of_override hconforms _ _ _
      default := comesTo_dispatch_iff_of_default hconforms _ _ _
      rejected := Machine.Rejects.fails }

/-! ### A comparison that looks at its calls -/

namespace Overrides

/-- The records of a type `B` are equal if an error that is thrown by the comparison
has the call `equals` on its stack; a type `A` has a field to put one in. -/
def program : String :=
  "(def-type (B)) (def-type (A b)) (def-impl binary= (B B) (proc (x y) " ++
    "(try (throw (error \"\")) (catch e (contains? (get-stack e) \"equals\")))))"

/-- The world after that program. -/
def world : World := (HostStep.program program).perform (.core {})

theorem programmed_world : world.Programmed :=
  .core {} (.step (.program program) .refl (Nat.zero_le _))

end Overrides

/-- The theorem at a world with one type that has an equality of its own and one
that has none. -/
theorem Overrides.coherent_world : Overrides.world.Coherent ∧ Overrides.world.heap.types = 2 ∧
    (Overrides.world.heap.equality? 0).isSome ∧ (Overrides.world.heap.equality? 1).isNone :=
  ⟨Overrides.programmed_world.coherent, by decide +kernel⟩

/-- The value that an answer has, if it has one. -/
def Answer.value? {α : Type} : Answer α → Option α
  | .ok a => some a
  | _ => none

/-- Dispatch and comparison do not always give one answer: the call of the default
shows on the stack of an error. -/
theorem Overrides.dispatch_ne_equal : ¬ ∀ w : World, w.Programmed →
    ∀ (ty : RecordTypeId) (xs ys : List Value),
      (Interpreter.machine.dispatchBool .equals [.record ty xs, .record ty ys] w).1.value? =
        (Interpreter.machine.equal (.record ty xs) (.record ty ys) w).1.value? := by
  intro hall
  have hsame := hall world programmed_world 1 [.record 0 []] [.record 0 []]
  revert hsame
  decide +kernel

end Lisp
