import Lisp.Eval.Machine

/-!
# Relations that respect how evaluations are put together

The evaluator is open: every part of it is written against an arbitrary
machine.  So whatever is true of all the ways in which it puts evaluations
together is true of the evaluator as a whole, and it is enough to walk through
the evaluator once.

A **congruence** is a relation between two evaluations that all these ways
respect.  It is stated for a *scope*, the only frame in which the evaluations
may define names, and for a *tail* flag, which tells whether a recur may leave
them.  The right-hand side may differ from the left in how it enters a nested
form (`Congruence.nest`); a property of single evaluations is a congruence that
ignores its right-hand side.

* `Edit` lists the changes of the world outside the frames.
* An expansion is remembered only while the memory is on, and under the macro and the
  operands that it was computed from (`Congruence.memoize`).  What is known there of
  the answer on the right-hand side, beyond the relation, is up to the congruence
  (`Congruence.answers`).
* `Eval.rescue` is the one way in which a failure is stopped.  A pattern that
  asks and the loop of a procedure application look at its cause alone
  (`Congruence.recover`); a `try` makes a value of it and goes on in a frame of
  its own (`Congruence.attempt`).
* `Discipline` builds a congruence from a relation between the worlds before
  and after an evaluation.
-/

namespace Lisp

/-- A failure as it is first raised: no recur, and no call stack yet. -/
def Failure.IsFresh (f : Failure) : Prop :=
  f.cause.isRecur = false ∧ f.context.calls = []

/-- Giving a failure a source span keeps its cause. -/
@[simp] theorem Failure.cause_withSource (f : Failure) (source : Option Span) :
    (f.withSource source).cause = f.cause := by
  unfold Failure.withSource
  split <;> rfl

/-- Giving a failure a call stack keeps its cause. -/
@[simp] theorem Failure.cause_withCalls (f : Failure) (calls : List Call) :
    (f.withCalls calls).cause = f.cause := by
  unfold Failure.withCalls
  split <;> rfl

/-- Where an evaluation stands: the calls in progress, how deep it is nested and
how deep it may be nested. -/
structure Standing where
  calls : List Call
  depth : Nat
  limit : Nat

/-- The same world for an evaluation that stands elsewhere. -/
def World.elsewhere (w : World) (standing : Standing) : World :=
  { w with
    calls := standing.calls
    depth := standing.depth
    options := { w.options with maxDepth := standing.limit } }

/-- The causes that are stopped without a handler: a recur, by the loop of a
procedure, and a type mismatch, by a pattern that asks. -/
def Cause.isTame : Cause → Bool
  | .recur .. => true
  | .complaint .typeMismatch _ => true
  | _ => false

/-- The override that a record type gets when an implementation of a hooked core
interface is registered. -/
def Heap.override (h : Heap) (hook : Option Hook) (key : List TypeTag) (imp : Value) : Heap :=
  match hook, key with
  | some .recordHash, [.record ty] => h.setHash ty imp
  | some .recordEquality, [.record a, .record b] => if a = b then h.setEquality a imp else h
  | _, _ => h

/-- The heap after an implementation has been registered, together with the
override that a record type then has; nothing happens for tags that do not
conform to the interface. -/
def Heap.implement (h : Heap) (id : InterfaceId) (key : List TypeTag) (imp : Value) : Heap :=
  match h.interfaces[id]? with
  | none => h
  | some interface =>
    if key.length = interface.arity then
      (h.register id key imp).override interface.hook key imp
    else h

/-- An implementation concerns the tables of the interfaces and of the record types
only. -/
theorem Heap.implement_tables (h : Heap) (id : InterfaceId) (key : List TypeTag) (imp : Value) :
    ∃ interfaces recordTypes, h.implement id key imp = { h with interfaces, recordTypes } := by
  unfold Heap.implement Heap.override
  split
  · exact ⟨_, _, rfl⟩
  · split
    · split
      · exact ⟨_, _, rfl⟩
      · split <;> exact ⟨_, _, rfl⟩
      · exact ⟨_, _, rfl⟩
    · exact ⟨_, _, rfl⟩

/-- The changes that evaluations make to the tables of the heap, the frames
apart. -/
inductive HeapEdit : (Heap → Heap) → Prop
  | nameClosure (id : ClosureId) (name : Symbol) : HeapEdit (·.nameClosure id name)
  | newClosure (c : Closure) : HeapEdit fun h => { h with closures := h.closures.push c }
  | newRecordType (name : Symbol) (fields : List Symbol) :
      HeapEdit fun h => { h with recordTypes := h.recordTypes.push { name, fields } }
  | newInterface (name : Symbol) (params : List Symbol) (fallback hook : Option Value) :
      HeapEdit fun h =>
        { h with
          interfaces := h.interfaces.push
            { name, params, fallback, hook := hook.map .procedure } }
  | implement (id : InterfaceId) (key : List TypeTag) (imp : Value) :
      HeapEdit (·.implement id key imp)
  | attachStack (serial : Nat) (stack : List String) : HeapEdit (·.attachStack serial stack)
  | newTrace (stack : Option (List String)) :
      HeapEdit fun h => { h with traces := h.traces.push stack }
  | nextSerial : HeapEdit fun h => { h with serials := h.serials + 1 }

/-- The changes that evaluations make to the world, the frames, the expansions, the
calls in progress and the depth apart. -/
inductive Edit : (World → World) → Prop
  | heap {g : Heap → Heap} (edit : HeapEdit g) : Edit fun w => { w with heap := g w.heap }
  | print (text : String) : Edit fun w => { w with output := w.output ++ text }
  | write (files : Files) : Edit fun w => { w with files }
  | run (line : String) (run : CommandRun) :
      Edit fun w => { w with commands := w.commands.after line, files := run.leave w.files }

namespace Eval

/-- The value is one that the evaluation can give. -/
def Gives (x : Eval α) (a : α) : Prop :=
  ∃ w w', x w = (.ok a, w')

/-- One evaluation after another, from a world. -/
theorem bind_run (x : Eval α) (k : α → Eval β) (w : World) :
    (x >>= k) w = match x w with
      | (.ok a, w) => k a w
      | (.failed f, w) => (.failed f, w)
      | (.outOfFuel, w) => (.outOfFuel, w) :=
  rfl

/-- Two evaluations in sequence have a value if both have one. -/
theorem bind_eq_ok {x : Eval α} {k : α → Eval β} {b : β} {w w' : World}
    (h : (x >>= k) w = (.ok b, w')) : ∃ a u, x w = (.ok a, u) ∧ k a u = (.ok b, w') := by
  rw [bind_run] at h
  rcases hx : x w with ⟨answer, u⟩
  rw [hx] at h
  cases answer with
  | ok a => exact ⟨a, u, rfl, h⟩
  | failed f => cases h
  | outOfFuel => cases h

/-- A failure of two evaluations in sequence is that of the first one or that of the second
one. -/
theorem bind_eq_failed {x : Eval α} {k : α → Eval β} {f : Failure} {w w' : World}
    (h : (x >>= k) w = (.failed f, w')) :
    x w = (.failed f, w') ∨ ∃ a u, x w = (.ok a, u) ∧ k a u = (.failed f, w') := by
  rw [bind_run] at h
  rcases hx : x w with ⟨answer, u⟩
  rw [hx] at h
  cases answer with
  | ok a => exact .inr ⟨a, u, rfl, h⟩
  | failed f =>
      cases h
      exact .inl rfl
  | outOfFuel => cases h

/-- The second evaluation goes on from where the first one ends. -/
theorem bind_of_ok {x : Eval α} {k : α → Eval β} {a : α} {w u : World}
    (h : x w = (.ok a, u)) : (x >>= k) w = k a u := by
  rw [bind_run, h]

/-- A question is answered by the world. -/
theorem bind_ask (view : World → α) (k : α → Eval β) (w : World) :
    (Eval.ask view >>= k) w = k (view w) w :=
  rfl

/-- A value that two evaluations in sequence give comes from a value of the
first one. -/
theorem gives_of_bind {x : Eval α} {k : α → Eval β} {b : β} (h : (x >>= k).Gives b) :
    ∃ a, x.Gives a ∧ (k a).Gives b := by
  obtain ⟨w, w', hrun⟩ := h
  obtain ⟨a, u, hx, hk⟩ := bind_eq_ok hrun
  exact ⟨a, ⟨w, u, hx⟩, ⟨u, w', hk⟩⟩

/-- An evaluation that changes nothing gives its own value. -/
theorem eq_of_gives_pure {a b : α} (h : (pure a : Eval α).Gives b) : b = a := by
  obtain ⟨w, w', hrun⟩ := h
  cases hrun
  rfl

instance : LawfulMonad Eval := by
  refine LawfulMonad.mk' Eval (fun x => ?_) (fun _ _ => rfl) fun x k l => ?_
  · funext w
    show (x >>= fun a => pure a) w = x w
    rw [bind_run]
    rcases x w with ⟨answer, w'⟩
    cases answer <;> rfl
  · funext w
    rw [bind_run, bind_run, bind_run]
    rcases x w with ⟨answer, w'⟩
    cases answer <;> rfl

/-- Hands the failures that it takes to a handler. -/
def rescue (x : Eval α) (takes : Failure → Bool) (handler : Failure → Eval α) : Eval α := fun w =>
  match x w with
  | (.failed f, w) => if takes f then handler f w else (.failed f, w)
  | other => other

/-- Hands every failure but a recur to a handler, which goes on with what
happened in a frame of its own; without a handler it is a failure again. -/
def attempt (x : Eval Value) (frame : FrameId)
    (handler : Option (Value → FrameId → Eval Value)) : Eval Value :=
  x.rescue (fun f => !f.cause.isRecur) fun f => do
    let caught ← Eval.reify f
    match handler with
    | none => Eval.fail .handlerWithoutPattern
    | some handler => Eval.extend frame "catch" >>= handler caught

/-- Remembers the value as the expansion of a macro for operands. -/
def remembering (x : Eval Value) (id : ClosureId) (operands : List Value) : Eval Value := do
  let result ← x
  Eval.change fun w => { w with expansions := Machine.remember id operands result w.expansions }
  return result

/-- Looks for the value in the memory first, if it is on, and remembers it otherwise. -/
def memoized (x : Eval Value) (id : ClosureId) (operands : List Value) : Eval Value := do
  if ← Eval.ask (·.options.expansionCache) then
    match ← Eval.ask fun w => Machine.remembered? id operands w.expansions with
    | some result => return result
    | none => x.remembering id operands
  else x

/-- What is found in the memory changes nothing, and without the memory nothing is
looked for. -/
theorem memoized_run (x : Eval Value) (id : ClosureId) (operands : List Value) (w : World) :
    x.memoized id operands w =
      if w.options.expansionCache = true then
        match Machine.remembered? id operands w.expansions with
        | some result => (.ok result, w)
        | none => x.remembering id operands w
      else x w := by
  unfold memoized
  rw [bind_ask]
  split
  · rw [bind_ask]
    cases Machine.remembered? id operands w.expansions <;> rfl
  · rfl

/-- A relation that respects questions, sequences and the memory itself. -/
theorem memoized_related {R : {α : Type} → Eval α → Eval α → Prop}
    (hpure : ∀ v : Value, R (Pure.pure v) (Pure.pure v))
    (hask : ∀ {α : Type} {view : World → α}, (∀ w standing, view (w.elsewhere standing) = view w) →
      R (Eval.ask view) (Eval.ask view))
    (hseq : ∀ {α : Type} {x y : Eval α} {k l : α → Eval Value}, R x y → (∀ a, R (k a) (l a)) →
      R (x >>= k) (y >>= l))
    {x y : Eval Value} {id : ClosureId} {operands : List Value} (hx : R x y)
    (hremember : R (x.remembering id operands) (y.remembering id operands)) :
    R (x.memoized id operands) (y.memoized id operands) := by
  refine hseq (hask fun _ _ => rfl) fun on => ?_
  cases on with
  | false => exact hx
  | true =>
      refine hseq (hask fun _ _ => rfl) fun known => ?_
      cases known with
      | some result => exact hpure result
      | none => exact hremember

/-- Fails with a thrown value; an error value is given the calls in progress. -/
def raise (v : Value) : Eval α := do
  let calls ← Eval.ask (·.calls)
  if let .error serial .. := v then
    Eval.changeHeap (·.attachStack serial (calls.map Call.describe))
  Eval.fail { cause := .thrown v, context := { calls } }

end Eval

/-- A relation between evaluations that every way of putting them together
respects. -/
structure Congruence where
  /-- How the right-hand side enters a nested form. -/
  nest : Eval Value → Eval Value
  /-- What the right-hand side answers to applications of a closure. -/
  answers : ClosureId → List Value → Eval Value → Prop := fun _ _ _ => True
  /-- The relation, for a scope and a tail flag. -/
  rel : {α : Type} → (scope : Option FrameId) → (tail : Bool) → Eval α → Eval α → Prop
  idle : ∀ {α : Type} {e t},
    rel e t (fun w => (Answer.outOfFuel (α := α), w)) (fun w => (.outOfFuel, w))
  pure : ∀ {α e t} (a : α), rel e t (Pure.pure a) (Pure.pure a)
  fail : ∀ {α : Type} {e t f}, f.IsFresh → rel e t (Eval.fail (α := α) f) (Eval.fail f)
  recur : ∀ {α : Type} {e} (target : Value) (args : List Value),
    rel e true (Eval.fail (α := α) { cause := .recur target args })
      (Eval.fail { cause := .recur target args })
  raise : ∀ {α : Type} {e t} (v : Value), rel e t (Eval.raise (α := α) v) (Eval.raise v)
  ask : ∀ {α e t} {view : World → α}, (∀ w standing, view (w.elsewhere standing) = view w) →
    rel e t (Eval.ask view) (Eval.ask view)
  change : ∀ {e t g}, Edit g → rel e t (Eval.change g) (Eval.change g)
  memoize : ∀ {e t} (fuel : Nat) (source : Option Span) (id : ClosureId)
    (operands : List Value) {y : Eval Value}, answers id operands y →
    rel e t (run fuel (.apply source (.closure id) operands)) y →
      rel e t ((run fuel (.apply source (.closure id) operands)).memoized id operands)
        (y.memoized id operands)
  define : ∀ {t} (f : FrameId) (s : Symbol) (v : Value),
    rel (some f) t (Eval.define f s v) (Eval.define f s v)
  bind : ∀ {α β e t} {x y : Eval α} {k l : α → Eval β}, rel e t x y →
    (∀ a, x.Gives a → rel e t (k a) (l a)) → rel e t (x >>= k) (y >>= l)
  extend : ∀ {α e t} (outer : FrameId) (label : String) {k l : FrameId → Eval α},
    (∀ id, rel (some id) t (k id) (l id)) →
      rel e t (Eval.extend outer label >>= k) (Eval.extend outer label >>= l)
  nested : ∀ {e t} {x y : Eval Value}, rel e t x y → rel e t (Eval.nested x) (nest y)
  inCall : ∀ {α e t} (call : Call) {x y : Eval α}, rel e t x y →
    rel e t (Eval.inCall call x) (Eval.inCall call y)
  inForm : ∀ {α e t} (source : Option Span) {x y : Eval α}, rel e t x y →
    rel e t (Eval.inForm source x) (Eval.inForm source y)
  noRecur : ∀ {α e t complaint} {x y : Eval α}, complaint.IsFresh → rel e true x y →
    rel e t (Eval.noRecur complaint x) (Eval.noRecur complaint y)
  recover : ∀ {α e s t} {x y : Eval α} (takes : Cause → Bool) {h l : Cause → Eval α},
    rel e s x y → (∀ c, takes c = true → c.isTame = true ∧ rel e t (h c) (l c)) →
      (s = true → t = false → ∀ c, c.isRecur = true → takes c = true) →
        rel e t (x.rescue (fun f => takes f.cause) fun f => h f.cause)
          (y.rescue (fun f => takes f.cause) fun f => l f.cause)
  attempt : ∀ {e} {x y : Eval Value} (frame : FrameId)
    {h l : Option (Value → FrameId → Eval Value)}, rel e true x y →
      Option.Rel (fun h l => ∀ caught inner,
        rel (some inner) true (h caught inner) (l caught inner)) h l →
        rel e true (x.attempt frame h) (y.attempt frame l)

namespace Congruence

variable {C : Congruence} {α β : Type} {e : Option FrameId} {t : Bool}

/-- One evaluation after another. -/
theorem seq {x y : Eval α} {k l : α → Eval β} (hx : C.rel e t x y)
    (hk : ∀ a, C.rel e t (k a) (l a)) : C.rel e t (x >>= k) (y >>= l) :=
  C.bind hx fun a _ => hk a

/-- A computation on the value of an evaluation. -/
theorem map {x y : Eval α} (g : α → β) (hx : C.rel e t x y) :
    C.rel e t (x >>= fun a => Pure.pure (g a)) (y >>= fun a => Pure.pure (g a)) :=
  C.seq hx fun a => C.pure (g a)

/-- A failure that shows a value. -/
theorem showing (v : Value) {wording : String → Failure} (h : ∀ s, (wording s).IsFresh) :
    C.rel e t (Eval.failShowing (α := α) v wording) (Eval.failShowing v wording) := by
  have hshown : C.rel e t (Eval.shown v) (Eval.shown v) := C.ask fun _ _ => rfl
  exact C.seq hshown fun s => C.fail (h s)

/-- A change of the heap. -/
theorem editHeap {g : Heap → Heap} (edit : HeapEdit g) :
    C.rel e t (Eval.changeHeap g) (Eval.changeHeap g) :=
  C.change (.heap edit)

/-- A change of the heap under the number that the old heap gives it. -/
theorem editHeapAs {g : Heap → Heap} (edit : HeapEdit g) (view : Heap → α) :
    C.rel e t (fun w => (.ok (view w.heap), { w with heap := g w.heap }))
      (fun w => (.ok (view w.heap), { w with heap := g w.heap })) := by
  have hview : C.rel e t (Eval.ask fun w => view w.heap) (Eval.ask fun w => view w.heap) :=
    C.ask fun _ _ => rfl
  exact C.seq hview fun a => C.seq (C.editHeap edit) fun _ => C.pure a

/-- The next serial number. -/
theorem serial : C.rel e t Eval.serial Eval.serial :=
  C.editHeapAs .nextSerial (·.serials)

/-- A new error value. -/
theorem newError (message : String) (data : Value) (kind : Option String)
    (stack : Option (List String)) :
    C.rel e t (Eval.newError message data kind stack) (Eval.newError message data kind stack) :=
  C.editHeapAs (.newTrace stack) fun h => Value.error h.traces.size message data kind

/-- The machine with some fuel and a machine that answers requests in a related way:
a form within the frame it stands in, where a recur may leave it, and everything else
in any scope and without a recur. -/
structure Machines (C : Congruence) (m n : Machine) : Prop where
  isRun : ∃ fuel, m = run fuel
  eval : ∀ frame form, C.rel (some frame) true (m (.eval frame form)) (n (.eval frame form))
  apply : ∀ {e t} source callee args,
    C.rel e t (m (.apply source callee args)) (n (.apply source callee args))
  unfold : ∀ {e t} sequence taken,
    C.rel e t (m (.unfold sequence taken)) (n (.unfold sequence taken))
  answers : ∀ source id operands, C.answers id operands (n (.apply source (.closure id) operands))
    := by intros; trivial

namespace Machines

variable {m n : Machine} (h : C.Machines m n)
include h

/-- The value of a form that is used in place. -/
theorem value (frame : FrameId) (form : Value) :
    C.rel (some frame) t (m.value frame form) (n.value frame form) :=
  C.noRecur ⟨rfl, rfl⟩ (h.eval frame form)

/-- The value of a form that stands on its own. -/
theorem interpret (frame : FrameId) (form : Value) :
    C.rel (some frame) t (m.interpret frame form) (n.interpret frame form) :=
  C.noRecur ⟨rfl, rfl⟩ (h.eval frame form)

/-- The value of a call that no text is responsible for. -/
theorem call (callee : Value) (args : List Value) :
    C.rel e t (m.call callee args) (n.call callee args) :=
  h.apply none callee args

/-- The value of a call of a core interface. -/
theorem dispatch (i : CoreInterface) (args : List Value) :
    C.rel e t (m.dispatch i args) (n.dispatch i args) :=
  h.call (.interface i.id) args

end Machines

end Congruence

/-- A relation between the worlds before and after an evaluation, for the scope
in which the evaluation may define names. -/
structure Discipline where
  rel : (scope : Option FrameId) → World → World → Prop
  refl : ∀ {e} w, rel e w w
  trans : ∀ {e u v w}, rel e u v → rel e v w → rel e u w
  change : ∀ {e g} w, Edit g → rel e w (g w)
  remember : ∀ {e fuel source id operands w v w'}, w.options.expansionCache = true →
    run fuel (.apply source (.closure id) operands) w = (.ok v, w') → rel e w w' →
      rel e w { w' with expansions := Machine.remember id operands v w'.expansions }
  define : ∀ w f s v, rel (some f) w
    { w with heap := { w.heap with frames := w.heap.frames.define f s v } }
  extend : ∀ {e} w outer label w',
    rel (some w.heap.frames.size)
      { w with heap := { w.heap with frames := w.heap.frames.extend outer label } } w' →
        rel e w w'
  nested : ∀ {e} w w', rel e { w with depth := w.depth + 1 } w' →
    rel e w { w' with depth := w'.depth - 1 }
  inCall : ∀ {e} w call w', rel e { w with calls := call :: w.calls } w' →
    rel e w { w' with calls := w'.calls.tail }

namespace Discipline

variable (D : Discipline) {α β : Type} {e : Option FrameId}

/-- Every run of the evaluation follows the discipline. -/
def Follows (e : Option FrameId) (x : Eval α) : Prop :=
  ∀ w, D.rel e w (x w).2

/-- An evaluation that changes nothing follows every discipline. -/
theorem follows_of_unchanged {x : Eval α} (h : ∀ w, (x w).2 = w) : D.Follows e x := by
  intro w
  rw [h w]
  exact D.refl w

/-- One evaluation after another. -/
theorem follows_bind {x : Eval α} {k : α → Eval β} (hx : D.Follows e x)
    (hk : ∀ a, x.Gives a → D.Follows e (k a)) : D.Follows e (x >>= k) := by
  intro w
  show D.rel e w (Eval.bind x k w).2
  have hw := hx w
  unfold Eval.bind
  rcases hrun : x w with ⟨answer, w'⟩
  rw [hrun] at hw
  cases answer with
  | ok a => exact D.trans hw (hk a ⟨w, w', hrun⟩ w')
  | failed f => exact hw
  | outOfFuel => exact hw

/-- Rewording a failure changes no world. -/
theorem follows_onFailure {x : Eval α} (g : World → Failure → Failure) (hx : D.Follows e x) :
    D.Follows e (x.onFailure g) := by
  intro w
  have hw := hx w
  unfold Eval.onFailure
  rcases hrun : x w with ⟨answer, w'⟩
  rw [hrun] at hw
  cases answer <;> exact hw

/-- A handler goes on from where the failure arose. -/
theorem follows_rescue {x : Eval α} {takes : Failure → Bool} {handler : Failure → Eval α}
    (hx : D.Follows e x) (hh : ∀ f, takes f = true → D.Follows e (handler f)) :
    D.Follows e (x.rescue takes handler) := by
  intro w
  have hw := hx w
  unfold Eval.rescue
  rcases hrun : x w with ⟨answer, w'⟩
  rw [hrun] at hw
  cases answer with
  | ok a => exact hw
  | outOfFuel => exact hw
  | failed f =>
      by_cases htakes : takes f = true
      · simp only [htakes, if_true]
        exact D.trans hw (hh f htakes w')
      · simp only [htakes]
        exact hw

/-- A failure becomes a value at the cost of a new stack at most. -/
theorem follows_reify (f : Failure) : D.Follows e (Eval.reify f) := by
  unfold Eval.reify
  split
  · exact D.follows_of_unchanged fun _ => rfl
  · refine D.follows_bind (D.follows_of_unchanged fun _ => rfl) fun message _ w => ?_
    exact D.change w (.heap (.newTrace _))

/-- A `try`, whose handler works in a frame of its own. -/
theorem follows_attempt {x : Eval Value} (frame : FrameId)
    {handler : Option (Value → FrameId → Eval Value)} (hx : D.Follows e x)
    (hh : ∀ h ∈ handler, ∀ caught inner, D.Follows (some inner) (h caught inner)) :
    D.Follows e (x.attempt frame handler) := by
  refine D.follows_rescue hx fun f _ => D.follows_bind (D.follows_reify f) fun caught _ => ?_
  cases handler with
  | none => exact D.follows_of_unchanged fun _ => rfl
  | some h => exact fun w => D.extend w frame "catch" _ (hh h rfl caught _ _)

/-- An expansion is remembered once it has been computed. -/
theorem follows_memoized (fuel : Nat) (source : Option Span) (id : ClosureId)
    (operands : List Value) (hx : D.Follows e (run fuel (.apply source (.closure id) operands))) :
    D.Follows e ((run fuel (.apply source (.closure id) operands)).memoized id operands) := by
  intro w
  have hw := hx w
  rw [Eval.memoized_run]
  split
  · next hon =>
      split
      · exact D.refl w
      · unfold Eval.remembering
        rw [Eval.bind_run]
        rcases hrun : run fuel (.apply source (.closure id) operands) w with ⟨answer, w'⟩
        rw [hrun] at hw
        cases answer with
        | ok v => exact D.remember hon hrun hw
        | failed f => exact hw
        | outOfFuel => exact hw
  · exact hw

/-- A thrown value changes at most the stack attached to it. -/
theorem follows_raise (v : Value) : D.Follows e (Eval.raise (α := α) v) := by
  intro w
  cases v with
  | error serial message data kind => exact D.change w (.heap (.attachStack _ _))
  | _ => exact D.refl w

/-- Entering a form takes the depth back on the way out, and stays put when the
limit is reached. -/
theorem follows_nested {x : Eval α} (hx : D.Follows e x) : D.Follows e (Eval.nested x) := by
  intro w
  unfold Eval.nested
  split
  · exact D.refl w
  · exact D.nested w _ (hx _)

/-- The congruence of all evaluations that follow the discipline. -/
def congruence : Congruence where
  nest := Eval.nested
  rel e _ x _ := D.Follows e x
  idle := D.follows_of_unchanged fun _ => rfl
  pure _ := D.follows_of_unchanged fun _ => rfl
  fail _ := D.follows_of_unchanged fun _ => rfl
  recur _ _ := D.follows_of_unchanged fun _ => rfl
  raise v := D.follows_raise v
  ask _ := D.follows_of_unchanged fun _ => rfl
  change edit w := D.change w edit
  memoize fuel source id operands _ _ hx := D.follows_memoized fuel source id operands hx
  define f s v w := D.define w f s v
  bind := D.follows_bind
  extend outer label _ _ hk w := D.extend w outer label _ (hk _ _)
  nested := D.follows_nested
  inCall call _ _ hx w := D.inCall w call _ (D.follows_onFailure _ hx _)
  inForm _ _ _ hx := D.follows_onFailure _ hx
  noRecur _ hx := D.follows_onFailure _ hx
  recover _ _ _ hx hh _ := D.follows_rescue hx fun f hf => (hh f.cause hf).2
  attempt frame _ _ hx hh := D.follows_attempt frame hx fun h hmem => by
    cases hh with
    | none => cases hmem
    | some hrel =>
        cases hmem
        exact hrel

end Discipline

end Lisp
