import Lisp.Proofs.Frames
import Lisp.Proofs.Fuel

/-!
# Runs that enter no handler

The calls in progress are there for diagnostics, and the depth for the nesting
limit.  Neither of them has a say in a run in which no handler is entered: a run
from a world that differs in the calls, and is nested no deeper, has the same
value and makes the same changes (`Machine.Tracks`).

* A handler works in a frame of its own, which stays in the heap.  So
  `World.handled` counts the handlers entered so far, and a run that leaves this
  number alone has entered none.
* The one failure that such a run may go on from, a recur apart, is the type
  mismatch that a pattern takes for a no; its cause does not depend on the calls
  either.  About all other failures nothing is said.
* `Congruence.tracking` is the congruence, and `Congruence.Tracking.apply` adds that
  the place a call is made at makes no difference.
-/

namespace Lisp

/-! ### Handlers entered -/

namespace Frames

/-- The labels of the frames, by number. -/
def labels (fs : Frames) : List String :=
  fs.table.toList.map Frame.label

/-- A new frame comes last. -/
@[simp] theorem labels_extend (fs : Frames) (outer : FrameId) (label : String) :
    (fs.extend outer label).labels = fs.labels ++ [label] := by
  simp [labels, extend]

/-- A definition relabels nothing. -/
@[simp] theorem labels_define (fs : Frames) (id : FrameId) (s : Symbol) (v : Value) :
    (fs.define id s v).labels = fs.labels := by
  have hlabel : ∀ frame : Frame, (frame.define s v).label = frame.label := fun _ => rfl
  apply List.ext_getElem?
  intro i
  simp only [labels, define, List.getElem?_map, Array.getElem?_toList, Array.getElem?_modify]
  by_cases hi : id = i
  · cases fs.table[i]? with
    | none => simp [hi]
    | some frame => simp [hi, hlabel]
  · simp [hi]

end Frames

/-- The number of handlers entered so far. -/
def World.handled (w : World) : Nat :=
  w.heap.frames.labels.count "catch"

/-- The frames decide how many handlers were entered. -/
theorem World.handled_congr {w v : World} (h : v.heap.frames = w.heap.frames) :
    v.handled = w.handled := by
  unfold World.handled
  rw [h]

/-! ### Worlds that stand elsewhere -/

/-- The second world is the first but for the calls in progress and the depth. -/
def World.Alike (w v : World) : Prop :=
  v = { w with calls := v.calls, depth := v.depth }

/-- Alike the other way round. -/
theorem World.Alike.symm {w v : World} (h : w.Alike v) : v.Alike w := by
  unfold World.Alike at h ⊢
  rw [h]

/-- Alike in turn. -/
theorem World.Alike.trans {u v w : World} (huv : u.Alike v) (hvw : v.Alike w) : u.Alike w := by
  unfold World.Alike at huv hvw ⊢
  rw [hvw, huv]

/-- The second world is the first for an evaluation that is nested no deeper, with
whichever calls in progress. -/
structure World.Shallower (w v : World) : Prop where
  same : w.Alike v
  depth : v.depth ≤ w.depth

namespace World.Shallower

variable {w v : World}

theorem refl (w : World) : w.Shallower w :=
  ⟨rfl, Nat.le_refl _⟩

theorem trans {u : World} (huw : u.Shallower w) (hwv : w.Shallower v) : u.Shallower v :=
  ⟨huw.same.trans hwv.same, Nat.le_trans hwv.depth huw.depth⟩

/-- A view that does not depend on where an evaluation stands. -/
theorem view_eq {α : Type} {view : World → α} (h : w.Shallower v)
    (hview : ∀ w standing, view (w.elsewhere standing) = view w) : view v = view w := by
  have hv : v = w.elsewhere ⟨v.calls, v.depth, w.options.maxDepth⟩ := h.same
  rw [hv]
  exact hview w _

theorem heap_eq (h : w.Shallower v) : v.heap = w.heap :=
  h.view_eq fun _ _ => rfl

/-- Changes of the tables, the memory and the output are the same in both. -/
theorem edit {g : World → World} (edit : Edit g) (h : w.Shallower v) :
    (g w).Shallower (g v) := by
  obtain ⟨hsame, hdepth⟩ := h
  rw [hsame]
  cases edit <;> exact ⟨rfl, hdepth⟩

/-- The same new heap in both. -/
theorem withHeap (g : Heap → Heap) (h : w.Shallower v) :
    World.Shallower { w with heap := g w.heap } { v with heap := g v.heap } := by
  obtain ⟨hsame, hdepth⟩ := h
  rw [hsame]
  exact ⟨rfl, hdepth⟩

/-- The same new expansions in both. -/
theorem withExpansions (g : List Expansion → List Expansion) (h : w.Shallower v) :
    World.Shallower { w with expansions := g w.expansions }
      { v with expansions := g v.expansions } := by
  obtain ⟨hsame, hdepth⟩ := h
  rw [hsame]
  exact ⟨rfl, hdepth⟩

/-- Other calls in progress in both. -/
theorem withCalls (calls others : List Call) (h : w.Shallower v) :
    World.Shallower { w with calls := calls } { v with calls := others } := by
  obtain ⟨hsame, hdepth⟩ := h
  rw [hsame]
  exact ⟨rfl, hdepth⟩

/-- Other depths, in the same order. -/
theorem withDepth {depth other : Nat} (hle : other ≤ depth) (h : w.Shallower v) :
    World.Shallower { w with depth := depth } { v with depth := other } := by
  obtain ⟨hsame, -⟩ := h
  rw [hsame]
  exact ⟨rfl, hle⟩

end World.Shallower

/-! ### Handlers that are not entered -/

namespace Eval

/-- The answer passes a `try` by: a value, a recur, or none at all. -/
def Passes {α : Type} (answer : Answer α) : Prop :=
  ∀ f, answer = .failed f → f.cause.isRecur = true

/-- What does not pass is a failure for a handler. -/
theorem passes_or_taken {α : Type} (answer : Answer α) :
    Passes answer ∨ ∃ f, answer = .failed f ∧ f.cause.isRecur = false := by
  cases answer with
  | ok a => exact .inl fun _ hfailed => nomatch hfailed
  | outOfFuel => exact .inl fun _ hfailed => nomatch hfailed
  | failed f =>
      cases hrecur : f.cause.isRecur with
      | false => exact .inr ⟨f, rfl, hrecur⟩
      | true =>
          refine .inl fun g hfailed => ?_
          cases hfailed
          exact hrecur

/-- Rewording a failure makes no frame. -/
theorem handled_onFailure {α : Type} (x : Eval α) (reword : World → Failure → Failure)
    (w : World) : (x.onFailure reword w).2.handled = (x w).2.handled := by
  unfold Eval.onFailure
  rcases x w with ⟨answer, w₁⟩
  cases answer <;> rfl

variable {x : Eval Value} {frame : FrameId} {handler : Option (Value → FrameId → Eval Value)}
  {w w₁ : World}

/-- What passes a `try` leaves it as it came. -/
theorem attempt_of_passes {answer : Answer Value} (hrun : x w = (answer, w₁))
    (hpasses : Passes answer) : x.attempt frame handler w = (answer, w₁) := by
  unfold Eval.attempt Eval.rescue
  rw [hrun]
  cases answer with
  | ok a => rfl
  | outOfFuel => rfl
  | failed f => simp [hpasses f rfl]

/-- Making a value of a failure always succeeds, and makes no frame. -/
theorem reify_run (f : Failure) (w : World) :
    ∃ caught w₁, Eval.reify f w = (.ok caught, w₁) ∧ w₁.handled = w.handled := by
  obtain ⟨cause, context⟩ := f
  cases cause <;> exact ⟨_, _, rfl, rfl⟩

/-- A handler that is entered shows in the frames, and one that is missing is a
failure. -/
theorem handled_of_attempt {f : Failure}
    (hgrows : ∀ body ∈ handler, ∀ caught inner (w : World),
      w.handled ≤ (body caught inner w).2.handled)
    (hrun : x w = (.failed f, w₁)) (hrecur : f.cause.isRecur = false) :
    w₁.handled < (x.attempt frame handler w).2.handled ∨
      ∃ w₂, x.attempt frame handler w = (.failed .handlerWithoutPattern, w₂) ∧
        w₂.handled = w₁.handled := by
  obtain ⟨caught, w₂, hcaught, hsame⟩ := reify_run f w₁
  unfold Eval.attempt Eval.rescue
  simp only [hrun, hrecur, Bool.not_false, if_true]
  rw [Eval.bind_run, hcaught]
  cases handler with
  | none => exact .inr ⟨w₂, rfl, hsame⟩
  | some body =>
      let entered : World :=
        { w₂ with heap := { w₂.heap with frames := w₂.heap.frames.extend frame "catch" } }
      have hentered : entered.handled = w₂.handled + 1 := by
        show (w₂.heap.frames.extend frame "catch").labels.count "catch" = _
        rw [Frames.labels_extend, List.count_append]
        rfl
      have hbody := hgrows body rfl caught w₂.heap.frames.size entered
      refine .inl (Nat.lt_of_lt_of_le ?_ hbody)
      omega

end Eval

/-! ### Evaluations that track others -/

/-- How a run may lag behind another: it has failed where the other one has a value,
and is to go on when the failure has reached its taker, further out. -/
structure Lag (α : Type) where
  behind : α → World → Failure → World → Prop
  /-- The failures that are the same on both sides; the others are left open. -/
  minds : Cause → Bool
  tame : ∀ {c}, minds c = true → c.isTame = true
  unwind : ∀ {a w w' f g v v'}, behind a w f v → w.Alike w' → v.Shallower v' →
    g.cause = f.cause → behind a w' g v'

/-- What is not tame is left open. -/
theorem Lag.minds_of_wild {α : Type} (lag : Lag α) {c : Cause} (h : c.isTame = false) :
    lag.minds c = false := by
  cases hminds : lag.minds c with
  | false => rfl
  | true => exact absurd (lag.tame hminds) (Bool.eq_false_iff.mp h)

/-- No lag at all. -/
def Lag.never {α : Type} : Lag α where
  behind _ _ _ _ := False
  minds := Cause.isTame
  tame h := h
  unwind h _ _ _ := h

/-- Two ends of runs that entered no handler: the same value, or a failure for the
same cause, and worlds that only stand elsewhere. -/
inductive Tracked {α : Type} (lag : Lag α) : Answer α × World → Answer α × World → Prop
  | ok (a : α) {w v : World} (hworlds : w.Shallower v) : Tracked lag (.ok a, w) (.ok a, v)
  | failed {f g : Failure} {w v : World} (hcause : g.cause = f.cause)
      (hworlds : w.Shallower v) : Tracked lag (.failed f, w) (.failed g, v)
  | later {a : α} {f : Failure} {w v : World} (hbehind : lag.behind a w f v) :
      Tracked lag (.ok a, w) (.failed f, v)
  | wild {f : Failure} {w : World} {other : Answer α × World}
      (hwild : lag.minds f.cause = false) : Tracked lag (.failed f, w) other
  | outOfFuel {w : World} {other : Answer α × World} : Tracked lag (.outOfFuel, w) other

namespace Tracked

variable {α : Type} {lag : Lag α} {x y : Eval α} {w v : World} {other : Answer α × World}

/-- What ends like a value is that value. -/
theorem of_ok {a : α} (h : Tracked .never (.ok a, w) other) :
    ∃ v, other = (.ok a, v) ∧ w.Shallower v := by
  cases h with
  | ok _ hworlds => exact ⟨_, rfl, hworlds⟩
  | later hbehind => exact hbehind.elim

/-- What ends like a failure that is minded fails for the same cause. -/
theorem of_minded {f : Failure} (h : Tracked lag (.failed f, w) other)
    (hminds : lag.minds f.cause = true) :
    ∃ g v, other = (.failed g, v) ∧ g.cause = f.cause ∧ w.Shallower v := by
  cases h with
  | failed hcause hworlds => exact ⟨_, _, rfl, hcause, hworlds⟩
  | wild hwild => exact absurd hminds (Bool.eq_false_iff.mp hwild)

/-- Where there is no lag, any will do. -/
theorem of_never {end' : Answer α × World} (h : Tracked .never end' other) :
    Tracked lag end' other := by
  cases h with
  | ok a hworlds => exact .ok a hworlds
  | failed hcause hworlds => exact .failed hcause hworlds
  | later hbehind => exact hbehind.elim
  | wild hwild => exact .wild (lag.minds_of_wild hwild)
  | outOfFuel => exact .outOfFuel

/-- Rewording failures by their context only, or all of one cause alike. -/
theorem onFailure {reword reword' : World → Failure → Failure} (h : Tracked lag (x w) (y v))
    (hcause : ∀ w v f g, g.cause = f.cause → (reword' v g).cause = (reword w f).cause)
    (hwild : ∀ w f, lag.minds f.cause = false → lag.minds (reword w f).cause = false)
    (hlag : ∀ a w f v, lag.behind a w f v → lag.behind a w (reword' v f) v) :
    Tracked lag (x.onFailure reword w) (y.onFailure reword' v) := by
  unfold Eval.onFailure
  rcases hrun : x w with ⟨answer, w₁⟩
  rcases hother : y v with ⟨answer', v₁⟩
  rw [hrun, hother] at h
  cases h with
  | ok a hlater => exact .ok a hlater
  | failed hsame hlater => exact .failed (hcause w₁ v₁ _ _ hsame) hlater
  | later hbehind => exact .later (hlag _ _ _ _ hbehind)
  | wild htame => exact .wild (hwild w₁ _ htame)
  | outOfFuel => exact .outOfFuel

/-- What only adds to the context of failures. -/
theorem inContext (reword reword' : World → Failure → Failure) (h : Tracked lag (x w) (y v))
    (hkeeps : ∀ w f, (reword w f).cause = f.cause)
    (hkeeps' : ∀ w f, (reword' w f).cause = f.cause) :
    Tracked lag (x.onFailure reword w) (y.onFailure reword' v) := by
  refine h.onFailure (fun w v f g hsame => ?_) (fun w f htame => ?_) fun a w f v hbehind => ?_
  · rw [hkeeps, hkeeps', hsame]
  · rw [hkeeps]
    exact htame
  · exact lag.unwind hbehind rfl (.refl v) (hkeeps' v f)

/-- A form, wherever it was read. -/
theorem inForm (source source' : Option Span) (h : Tracked lag (x w) (y v)) :
    Tracked lag (Eval.inForm source x w) (Eval.inForm source' y v) := by
  have hkeeps : ∀ source w (f : Failure),
      (Eval.attachCalls w (f.withSource source)).cause = f.cause := by
    intro source w f
    unfold Eval.attachCalls
    rw [Failure.cause_withCalls, Failure.cause_withSource]
  exact h.inContext _ _ (hkeeps source) (hkeeps source')

/-- A nested form: what is nested no deeper is within the limit too. -/
theorem nested (hworlds : w.Shallower v)
    (h : ¬ w.options.maxDepth < w.depth + 1 →
      Tracked lag (x { w with depth := w.depth + 1 }) (y { v with depth := v.depth + 1 })) :
    Tracked lag (Eval.nested x w) (Eval.nested y v) := by
  unfold Eval.nested
  by_cases hdeep : w.options.maxDepth < w.depth + 1
  · rw [if_pos hdeep]
    exact .wild (lag.minds_of_wild rfl)
  · have hoptions : v.options.maxDepth = w.options.maxDepth := by rw [hworlds.same]
    have hshallow : ¬ v.options.maxDepth < v.depth + 1 := by
      have hdepth := hworlds.depth
      omega
    rw [if_neg hdeep, if_neg hshallow]
    have hend := h hdeep
    rcases hrun : x { w with depth := w.depth + 1 } with ⟨answer, w₁⟩
    rcases hother : y { v with depth := v.depth + 1 } with ⟨answer', v₁⟩
    rw [hrun, hother] at hend
    have hleave : ∀ {u v : World}, u.Shallower v →
        World.Shallower { u with depth := u.depth - 1 } { v with depth := v.depth - 1 } :=
      fun hlater => hlater.withDepth (Nat.sub_le_sub_right hlater.depth 1)
    cases hend with
    | ok a hlater => exact .ok a (hleave hlater)
    | failed hcause hlater => exact .failed hcause (hleave hlater)
    | later hbehind => exact .later (lag.unwind hbehind rfl ⟨rfl, Nat.sub_le _ 1⟩ rfl)
    | wild hwild => exact .wild hwild
    | outOfFuel => exact .outOfFuel

/-- A call, whichever name and place it is recorded under. -/
theorem inCall (call call' : Call)
    (h : Tracked lag (x { w with calls := call :: w.calls })
      (y { v with calls := call' :: v.calls })) :
    Tracked lag (Eval.inCall call x w) (Eval.inCall call' y v) := by
  have hbody := h.inContext Eval.attachCalls Eval.attachCalls
    (fun w f => f.cause_withCalls w.calls) fun w f => f.cause_withCalls w.calls
  unfold Eval.inCall
  rcases hrun : x.onFailure Eval.attachCalls { w with calls := call :: w.calls } with
    ⟨answer, w₁⟩
  rcases hother : y.onFailure Eval.attachCalls { v with calls := call' :: v.calls } with
    ⟨answer', v₁⟩
  rw [hrun, hother] at hbody
  cases hbody with
  | ok a hlater => exact .ok a (hlater.withCalls _ _)
  | failed hcause hlater => exact .failed hcause (hlater.withCalls _ _)
  | later hbehind => exact .later (lag.unwind hbehind rfl ⟨rfl, Nat.le_refl _⟩ rfl)
  | wild hwild => exact .wild hwild
  | outOfFuel => exact .outOfFuel

end Tracked

/-- The second evaluation does what the first one does, as long as the first one
enters no handler. -/
structure Eval.Tracks {α : Type} (x y : Eval α) : Prop where
  grows : ∀ w : World, w.handled ≤ (x w).2.handled
  tracks : ∀ w v : World, w.Shallower v → (x w).2.handled = w.handled →
    Tracked .never (x w) (y v)

namespace Eval.Tracks

variable {α β : Type} {x y : Eval α}

/-- An evaluation that changes no frame, whatever it is tracked by. -/
theorem of_ends (hframes : ∀ w, (x w).2.heap.frames = w.heap.frames)
    (hends : ∀ w v : World, w.Shallower v → Tracked .never (x w) (y v)) : x.Tracks y where
  grows w := Nat.le_of_eq (World.handled_congr (hframes w)).symm
  tracks w v hworlds _ := hends w v hworlds

theorem pure (a : α) : Eval.Tracks (Pure.pure a) (Pure.pure a) :=
  .of_ends (fun _ => rfl) fun _ _ hworlds => .ok a hworlds

theorem fail (f : Failure) : Eval.Tracks (Eval.fail (α := α) f) (Eval.fail f) :=
  .of_ends (fun _ => rfl) fun _ _ hworlds => .failed rfl hworlds

theorem raise (v : Value) : Eval.Tracks (Eval.raise (α := α) v) (Eval.raise v) := by
  refine .of_ends (fun w => ?_) fun w u _ => ?_
  · cases v <;> rfl
  · cases v <;> exact .wild rfl

theorem ask {view : World → α} (hview : ∀ w standing, view (w.elsewhere standing) = view w) :
    Eval.Tracks (Eval.ask view) (Eval.ask view) := by
  refine .of_ends (fun _ => rfl) fun w v hworlds => ?_
  unfold Eval.ask
  rw [hworlds.view_eq hview]
  exact .ok _ hworlds

theorem change {g : World → World} (edit : Edit g) :
    Eval.Tracks (Eval.change g) (Eval.change g) :=
  .of_ends (fun w => edit.frames_eq w) fun _ _ hworlds => .ok () (hworlds.edit edit)

theorem define (frame : FrameId) (s : Symbol) (value : Value) :
    Eval.Tracks (Eval.define frame s value) (Eval.define frame s value) where
  grows w := by
    refine Nat.le_of_eq (Eq.symm ?_)
    exact congrArg (List.count "catch") (w.heap.frames.labels_define frame s value)
  tracks _ _ hworlds _ :=
    .ok () (hworlds.withHeap fun h => { h with frames := h.frames.define frame s value })

theorem extend (outer : FrameId) (label : String) :
    Eval.Tracks (Eval.extend outer label) (Eval.extend outer label) where
  grows w := by
    show w.heap.frames.labels.count "catch" ≤ (w.heap.frames.extend outer label).labels.count _
    rw [Frames.labels_extend, List.count_append]
    exact Nat.le_add_right _ _
  tracks w v hworlds _ := by
    have hid : v.heap.frames.size = w.heap.frames.size := by rw [hworlds.heap_eq]
    unfold Eval.extend
    rw [hid]
    exact .ok _ (hworlds.withHeap fun h => { h with frames := h.frames.extend outer label })

/-- Frames that were made stay. -/
theorem grows_bind {k : α → Eval β} (hx : x.Tracks y)
    (hk : ∀ a, x.Gives a → ∀ w : World, w.handled ≤ (k a w).2.handled) (w : World) :
    w.handled ≤ ((x >>= k) w).2.handled := by
  have hfirst := hx.grows w
  rw [Eval.bind_run]
  rcases hrun : x w with ⟨answer, w₁⟩
  rw [hrun] at hfirst
  cases answer with
  | ok a => exact Nat.le_trans hfirst (hk a ⟨w, w₁, hrun⟩ w₁)
  | failed f => exact hfirst
  | outOfFuel => exact hfirst

/-- A run in two parts enters no handler only if neither part does. -/
theorem tracked_bind {lag : Lag β} {k l : α → Eval β} (hx : x.Tracks y) {w v : World}
    (hk : ∀ a, x.Gives a → ∀ w : World, w.handled ≤ (k a w).2.handled)
    (hworlds : w.Shallower v) (hquiet : ((x >>= k) w).2.handled = w.handled)
    (hrest : ∀ a w₁ v₁, x w = (.ok a, w₁) → w₁.Shallower v₁ →
      (k a w₁).2.handled = w₁.handled → Tracked lag (k a w₁) (l a v₁)) :
    Tracked lag ((x >>= k) w) ((y >>= l) v) := by
  have hfirst := hx.grows w
  have htracks := hx.tracks w v hworlds
  rw [Eval.bind_run] at hquiet ⊢
  rw [Eval.bind_run]
  rcases hrun : x w with ⟨answer, w₁⟩
  rw [hrun] at hfirst htracks hquiet
  cases answer with
  | outOfFuel => exact .outOfFuel
  | failed f =>
      have hend := htracks hquiet
      rcases hother : y v with ⟨other, v₁⟩
      rw [hother] at hend
      cases hend with
      | failed hcause hlater => exact .failed hcause hlater
      | wild hwild => exact .wild (lag.minds_of_wild hwild)
  | ok a =>
      have hsecond := hk a ⟨w, w₁, hrun⟩ w₁
      have hmiddle : w₁.handled = w.handled :=
        Nat.le_antisymm (Nat.le_trans hsecond (Nat.le_of_eq hquiet)) hfirst
      obtain ⟨v₁, hother, hlater⟩ := (htracks hmiddle).of_ok
      rw [hother]
      exact hrest a w₁ v₁ hrun hlater (hquiet.trans hmiddle.symm)

theorem bind {k l : α → Eval β} (hx : x.Tracks y) (hk : ∀ a, x.Gives a → (k a).Tracks (l a)) :
    (x >>= k).Tracks (y >>= l) := by
  have hgrows := fun a ha => (hk a ha).grows
  refine ⟨hx.grows_bind hgrows, fun w v hworlds hquiet => ?_⟩
  refine hx.tracked_bind hgrows hworlds hquiet fun a w₁ v₁ hrun hlater hrest => ?_
  exact (hk a ⟨w, w₁, hrun⟩).tracks w₁ v₁ hlater hrest

/-- One evaluation after another. -/
theorem seq {k l : α → Eval β} (hx : x.Tracks y) (hk : ∀ a, (k a).Tracks (l a)) :
    (x >>= k).Tracks (y >>= l) :=
  hx.bind fun a _ => hk a

theorem remembering {x y : Eval Value} (id : ClosureId) (operands : List Value)
    (hx : x.Tracks y) : (x.remembering id operands).Tracks (y.remembering id operands) := by
  refine hx.seq fun v => seq (.of_ends (fun _ => rfl) fun w v' hworlds => ?_) fun _ => .pure v
  exact .ok () (hworlds.withExpansions (Machine.remember id operands v))

theorem inForm (source source' : Option Span) (hx : x.Tracks y) :
    (Eval.inForm source x).Tracks (Eval.inForm source' y) where
  grows w := by
    unfold Eval.inForm
    rw [handled_onFailure]
    exact hx.grows w
  tracks w v hworlds hquiet := by
    unfold Eval.inForm at hquiet
    rw [handled_onFailure] at hquiet
    exact (hx.tracks w v hworlds hquiet).inForm source source'

theorem noRecur (complaint : Failure) (hx : x.Tracks y) :
    (Eval.noRecur complaint x).Tracks (Eval.noRecur complaint y) where
  grows w := by
    unfold Eval.noRecur
    rw [handled_onFailure]
    exact hx.grows w
  tracks w v hworlds hquiet := by
    unfold Eval.noRecur at hquiet
    rw [handled_onFailure] at hquiet
    refine (hx.tracks w v hworlds hquiet).onFailure (fun w v f g hsame => ?_)
      (fun w f htame => ?_) fun _ _ _ _ hbehind => hbehind
    · rw [hsame]
      split
      · rfl
      · exact hsame
    · have hrecur : f.cause.isRecur = false := by
        cases hf : f.cause with
        | recur target args =>
            rw [hf] at htame
            cases htame
        | _ => rfl
      rw [hrecur]
      exact htame

theorem nested (hx : x.Tracks y) : (Eval.nested x).Tracks (Eval.nested y) where
  grows w := by
    unfold Eval.nested
    split
    · exact Nat.le_refl _
    · exact hx.grows { w with depth := w.depth + 1 }
  tracks w v hworlds hquiet := by
    refine Tracked.nested hworlds fun hdeep => ?_
    unfold Eval.nested at hquiet
    rw [if_neg hdeep] at hquiet
    exact hx.tracks _ _ (hworlds.withDepth (Nat.succ_le_succ hworlds.depth)) hquiet

/-- A call, whichever name and place it is recorded under. -/
theorem inCall (call call' : Call) (hx : x.Tracks y) :
    (Eval.inCall call x).Tracks (Eval.inCall call' y) where
  grows w := by
    have hgrows := hx.grows { w with calls := call :: w.calls }
    rw [← handled_onFailure x Eval.attachCalls] at hgrows
    exact hgrows
  tracks w v hworlds hquiet := by
    have hbody : (x { w with calls := call :: w.calls }).2.handled = w.handled := by
      rw [← handled_onFailure x Eval.attachCalls]
      exact hquiet
    exact (hx.tracks _ _ (hworlds.withCalls _ _) hbody).inCall call call'

/-- What goes on from a tame failure goes on from its cause, which is the same on
both sides. -/
theorem recover {takes : Cause → Bool} {h l : Cause → Eval α} (hx : x.Tracks y)
    (hh : ∀ c, takes c = true → c.isTame = true ∧ (h c).Tracks (l c)) :
    (x.rescue (fun f => takes f.cause) fun f => h f.cause).Tracks
      (y.rescue (fun f => takes f.cause) fun f => l f.cause) := by
  constructor
  · intro w
    have hfirst := hx.grows w
    unfold Eval.rescue
    rcases hrun : x w with ⟨answer, w₁⟩
    rw [hrun] at hfirst
    cases answer with
    | ok a => exact hfirst
    | outOfFuel => exact hfirst
    | failed f =>
        by_cases htakes : takes f.cause = true
        · simp only [htakes, if_true]
          exact Nat.le_trans hfirst ((hh _ htakes).2.grows w₁)
        · simp only [htakes]
          exact hfirst
  · intro w v hworlds hquiet
    have hfirst := hx.grows w
    have htracks := hx.tracks w v hworlds
    unfold Eval.rescue at hquiet ⊢
    rcases hrun : x w with ⟨answer, w₁⟩
    rw [hrun] at hfirst htracks hquiet
    cases answer with
    | outOfFuel => exact .outOfFuel
    | ok a =>
        obtain ⟨v₁, hother, hlater⟩ := (htracks hquiet).of_ok
        rw [hother]
        exact .ok a hlater
    | failed f =>
        by_cases htakes : takes f.cause = true
        · obtain ⟨htame, hhandler⟩ := hh _ htakes
          simp only [htakes, if_true] at hquiet ⊢
          have hmiddle : w₁.handled = w.handled :=
            Nat.le_antisymm (Nat.le_trans (hhandler.grows w₁) (Nat.le_of_eq hquiet)) hfirst
          obtain ⟨g, v₁, hother, hcause, hlater⟩ := (htracks hmiddle).of_minded htame
          simp only [hother, hcause, htakes, if_true]
          exact hhandler.tracks w₁ v₁ hlater (hquiet.trans hmiddle.symm)
        · simp only [htakes, Bool.false_eq_true, if_false] at hquiet ⊢
          have hend := htracks hquiet
          rcases hother : y v with ⟨other, v₁⟩
          rw [hother] at hend
          cases hend with
          | wild hwild => exact .wild hwild
          | failed hcause hlater =>
              simp only [hcause, htakes, Bool.false_eq_true, if_false]
              exact .failed hcause hlater

/-- A `try` whose handler was not entered did nothing but run its body. -/
theorem attempt {x y : Eval Value} (frame : FrameId)
    {h l : Option (Value → FrameId → Eval Value)} (hx : x.Tracks y)
    (hgrows : ∀ body ∈ h, ∀ caught inner (w : World),
      w.handled ≤ (body caught inner w).2.handled) :
    (x.attempt frame h).Tracks (y.attempt frame l) := by
  constructor
  · intro w
    have hfirst := hx.grows w
    rcases hrun : x w with ⟨answer, w₁⟩
    rw [hrun] at hfirst
    rcases passes_or_taken answer with hpasses | ⟨f, rfl, hrecur⟩
    · rw [attempt_of_passes hrun hpasses]
      exact hfirst
    · rcases handled_of_attempt hgrows hrun hrecur with hmore | ⟨u, hend, hsame⟩
      · exact Nat.le_trans hfirst (Nat.le_of_lt hmore)
      · rw [hend]
        exact Nat.le_trans hfirst (Nat.le_of_eq hsame.symm)
  · intro w v hworlds hquiet
    have hfirst := hx.grows w
    have htracks := hx.tracks w v hworlds
    rcases hrun : x w with ⟨answer, w₁⟩
    rw [hrun] at hfirst htracks
    rcases passes_or_taken answer with hpasses | ⟨f, rfl, hrecur⟩
    · rw [attempt_of_passes hrun hpasses] at hquiet ⊢
      have hend := htracks hquiet
      rcases hother : y v with ⟨other, v₁⟩
      rw [hother] at hend
      cases hend with
      | outOfFuel => exact .outOfFuel
      | wild hwild => exact .wild hwild
      | later hbehind => exact hbehind.elim
      | ok a hlater =>
          rw [attempt_of_passes hother hpasses]
          exact .ok a hlater
      | @failed f g _ _ hcause hlater =>
          have hrecur : g.cause.isRecur = true := by
            rw [hcause]
            exact hpasses f rfl
          rw [attempt_of_passes hother (fun _ hfailed => by cases hfailed; exact hrecur)]
          exact .failed hcause hlater
    · rcases handled_of_attempt hgrows hrun hrecur with hmore | ⟨u, hend, hsame⟩
      · exact absurd hquiet (Nat.ne_of_gt (Nat.lt_of_le_of_lt hfirst hmore))
      · rw [hend]
        exact .wild rfl

end Eval.Tracks

/-- The congruence of evaluations and those that track them. -/
def Congruence.tracking : Congruence where
  nest := Eval.nested
  rel _ _ x y := x.Tracks y
  idle := .of_ends (fun _ => rfl) fun _ _ _ => .outOfFuel
  pure a := .pure a
  fail _ := .fail _
  recur _ _ := .fail _
  raise v := .raise v
  ask hview := .ask hview
  change edit := .change edit
  memoize _ _ id operands _ _ hx :=
    Eval.memoized_related (R := Eval.Tracks) .pure .ask .seq hx (hx.remembering id operands)
  define f s v := .define f s v
  bind := .bind
  extend outer label _ _ hk := (Eval.Tracks.extend outer label).seq hk
  nested := .nested
  inCall call _ _ hx := hx.inCall call call
  inForm source _ _ hx := hx.inForm source source
  noRecur _ hx := hx.noRecur _
  recover _ _ _ hx hh _ := hx.recover hh
  attempt frame _ _ hx hh := hx.attempt frame fun body hbody caught inner w => by
    cases hh with
    | none => cases hbody
    | some hrel =>
        cases hbody
        exact (hrel caught inner).grows w

/-! ### The machine -/

namespace Machine

variable (m : Machine)

/-- Goes on from a recur with the call that it names. -/
def resume (source : Option Span) : Cause → Eval Value
  | .recur target args => m (.apply source target args)
  | cause => Eval.fail { cause }

/-- The application of a closure to its end: a recur out of the body is the call to
go on with. -/
theorem callClosure_follow (source : Option Span) (id : ClosureId) (receiver : Option Value)
    (args : List Value) :
    m.callClosure source id receiver args >>= m.follow = (do
      match ← Eval.ask (·.heap.closures[id]?) with
      | none => return .nil
      | some c =>
        (Eval.inCall ⟨c.displayName, source⟩ (m.runClosure c receiver args)).rescue
          (fun f => f.cause.isRecur) fun f => m.resume source f.cause) := by
  funext w
  rw [Eval.bind_run, Eval.bind_run]
  unfold callClosure
  simp only [Eval.ask]
  cases w.heap.closures[id]? with
  | none => rfl
  | some c =>
      dsimp only
      unfold Eval.rescue
      rcases Eval.inCall ⟨c.displayName, source⟩ (m.runClosure c receiver args) w with ⟨answer, w'⟩
      cases answer with
      | ok v => rfl
      | outOfFuel => rfl
      | failed f =>
          obtain ⟨cause, context⟩ := f
          cases cause <;> rfl

end Machine

/-- The machine does the same wherever a request stands, as long as no handler is
entered. -/
theorem run_tracks (fuel : Nat) : Congruence.tracking.Machines (run fuel) (run fuel) := by
  have hmachines := Congruence.tracking.machines fuel
  rwa [show runWith Congruence.tracking.nest fuel = run fuel from runWith_nested fuel] at hmachines

/-- The place that a call is made at makes no difference either. -/
theorem run_apply_tracks (fuel : Nat) (source place : Option Span) (callee : Value)
    (args : List Value) :
    (run fuel (.apply source callee args)).Tracks (run fuel (.apply place callee args)) := by
  induction fuel generalizing source place callee args with
  | zero => exact Congruence.tracking.idle (e := none) (t := true)
  | succ fuel ih =>
      have hmachine := run_tracks fuel
      rw [run_apply_succ, run_apply_succ]
      -- The step has its value at once, or goes on with a call made at the same place.
      have hdone : ∀ {x y : Eval Value}, x.Tracks y →
          ((x >>= fun v => pure (Next.done v)) >>= (run fuel).follow).Tracks
            ((y >>= fun v => pure (Next.done v)) >>= (run fuel).follow) := by
        intro x y hxy
        simp only [bind_assoc, pure_bind]
        exact hxy.seq fun v => .pure v
      have hagain : ∀ {x y : Eval Value} (here there : Option Span), x.Tracks y →
          ((x >>= fun target => pure (Next.again (.apply here target args))) >>=
            (run fuel).follow).Tracks
            ((y >>= fun target => pure (Next.again (.apply there target args))) >>=
              (run fuel).follow) := by
        intro x y here there hxy
        simp only [bind_assoc, pure_bind]
        exact hxy.seq fun target => ih here there target args
      have hclosure : ∀ id receiver,
          ((run fuel).callClosure source id receiver args >>= (run fuel).follow).Tracks
            ((run fuel).callClosure place id receiver args >>= (run fuel).follow) := by
        intro id receiver
        rw [Machine.callClosure_follow, Machine.callClosure_follow]
        refine (Eval.Tracks.ask fun _ _ => rfl).seq fun found => ?_
        cases found with
        | none => exact .pure _
        | some c =>
            have hbody := hmachine.runClosure (e := none) c receiver args
            refine (Eval.Tracks.inCall _ _ hbody).recover fun cause hrecur => ?_
            cases cause with
            | recur target args => exact ⟨rfl, ih source place target args⟩
            | _ => cases hrecur
      have hbuiltin := fun b args => hmachine.callBuiltin (e := none) (t := true) b args
      have haccessor := fun way subject args =>
        hmachine.callAccessor (e := none) (t := true) way subject args
      cases callee with
      | closure id => exact hclosure id none
      | builtin b => exact hdone (Eval.Tracks.inCall _ _ (hbuiltin b args))
      | accessor id way subject =>
          exact hdone (Eval.Tracks.inCall _ _ (haccessor way subject args))
      | type tag => exact hdone (hmachine.construct (e := none) (t := true) tag args)
      | interface id =>
          have hchosen : (Machine.implementationFor id args).Tracks
              (Machine.implementationFor id args) :=
            Congruence.tracking.implementationFor (e := none) (t := true) id args
          exact hagain none none hchosen
      | bound receiver target =>
          cases target with
          | closure id => exact hclosure id (some receiver)
          | builtin b => exact hdone (Eval.Tracks.inCall _ _ (hbuiltin b (receiver :: args)))
          | accessor id way subject =>
              exact hdone (Eval.Tracks.inCall _ _ (haccessor way subject (receiver :: args)))
          | _ => exact hagain source place (.pure _)
      | _ =>
          have hcallable := hmachine.toCallable (e := none) (t := true)
          exact hagain source place (hcallable _)

end Lisp
