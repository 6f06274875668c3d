import Lisp.Proofs.Congruence.Run

/-!
# What evaluations do to frames

A form may define names in the frame it is evaluated in, and in frames that are
made while it runs.  Every frame that was there before, that one apart, keeps its
bindings and its outer frame, whether the evaluation ends in a value or in a
failure.  A call has no frame of its own to define names in, so it keeps *all*
frames, those of its caller and those that its closures were made in included.

This is a discipline: `Frames.get?_define_of_ne` is the step for a definition,
`Frames.get?_extend_of_lt` the one for a new frame, and no `Edit` touches the
frames at all.
-/

namespace Lisp

/-- Every frame, that of the scope apart, is still there with the bindings and
the outer frame that it had. -/
def World.KeepsFrames (scope : Option FrameId) (w w' : World) : Prop :=
  ∀ id frame, some id ≠ scope → w.heap.frames.get? id = some frame →
    w'.heap.frames.get? id = some frame

/-- Registering an implementation leaves the frames alone. -/
theorem Heap.frames_implement (h : Heap) (id : InterfaceId) (key : List TypeTag) (imp : Value) :
    (h.implement id key imp).frames = h.frames := by
  obtain ⟨interfaces, recordTypes, htables⟩ := h.implement_tables id key imp
  rw [htables]

/-- No change of the other tables reaches the frames. -/
theorem HeapEdit.frames_eq {g : Heap → Heap} (edit : HeapEdit g) (h : Heap) :
    (g h).frames = h.frames := by
  cases edit with
  | implement id key imp => exact h.frames_implement id key imp
  | _ => rfl

/-- No change of the world outside the frames reaches them. -/
theorem Edit.frames_eq {g : World → World} (edit : Edit g) (w : World) :
    (g w).heap.frames = w.heap.frames := by
  cases edit with
  | heap edit => exact edit.frames_eq w.heap
  | _ => rfl

/-- A frame with a number is one of those made so far. -/
theorem Frames.lt_size_of_get? {fs : Frames} {id : FrameId} {frame : Frame}
    (h : fs.get? id = some frame) : id < fs.size := by
  unfold Frames.get? at h
  obtain ⟨hlt, -⟩ := Array.getElem?_eq_some_iff.mp h
  exact hlt

/-- The discipline of keeping frames. -/
def keepingFrames : Discipline where
  rel := World.KeepsFrames
  refl _ := fun _ _ _ hget => hget
  trans huv hvw := fun id frame hne hget => hvw id frame hne (huv id frame hne hget)
  change w edit := by
    intro id frame _ hget
    rw [edit.frames_eq w]
    exact hget
  remember _ _ hkept := hkept
  define w f s v := by
    intro id frame hne hget
    have hid : id ≠ f := fun heq => hne (congrArg some heq)
    exact (w.heap.frames.get?_define_of_ne f id s v hid).trans hget
  extend w outer label w' hkept := by
    intro id frame _ hget
    have hlt := Frames.lt_size_of_get? hget
    have hne : some id ≠ some w.heap.frames.size := fun heq =>
      Nat.ne_of_lt hlt (Option.some.inj heq)
    exact hkept id frame hne ((w.heap.frames.get?_extend_of_lt outer label id hlt).trans hget)
  nested _ _ hkept := hkept
  inCall _ _ _ hkept := hkept

/-- Every run of the evaluation keeps the frames, that of the scope apart. -/
def Eval.KeepsFrames (scope : Option FrameId) (x : Eval α) : Prop :=
  ∀ w : World, w.KeepsFrames scope (x w).2

/-- A machine that writes into the frame it is given, and into no other frame of
its caller. -/
structure Machine.RespectsFrames (m : Machine) : Prop where
  eval : ∀ frame form, (m.eval frame form).KeepsFrames (some frame)
  value : ∀ frame form, (m.value frame form).KeepsFrames (some frame)
  interpret : ∀ frame form, (m.interpret frame form).KeepsFrames (some frame)
  apply : ∀ source callee args, (m (.apply source callee args)).KeepsFrames none
  unfold : ∀ sequence taken, (m (.unfold sequence taken)).KeepsFrames none
  binding : ∀ frame ops, (m.evalBinding frame ops).KeepsFrames none
  handler : ∀ frame clause f, (m.handle frame clause f).KeepsFrames none
  clauses : ∀ frame v clauses, (m.selectClause frame v clauses).KeepsFrames none
  closure : ∀ c receiver args, (m.runClosure c receiver args).KeepsFrames none
  expansion : ∀ id operands source, (m.expand id operands source).KeepsFrames none
  apart : ∀ form, (m.evalApart form).KeepsFrames none
  builtin : ∀ b args, (m.callBuiltin b args).KeepsFrames none
  conversion : ∀ i target v, (m.convert i target v).KeepsFrames none
  callable : ∀ v, (m.toCallable v).KeepsFrames none
  iteration : ∀ v, (m.iterate v).KeepsFrames none
  dispatch : ∀ i args, (m.dispatch i args).KeepsFrames none
  pattern : ∀ mode frame pattern v,
    (m.destructure mode frame pattern v).KeepsFrames (some frame)

/-- An evaluation writes into its own frame only, and a call, a `let`, a handler, a
`match` clause, a macro expansion, an `eval`, a conversion and a dispatch write
into no frame that was there before. -/
theorem run_respectsFrames (fuel : Nat) : (run fuel).RespectsFrames := by
  have h := keepingFrames.congruence.machines fuel
  exact
    { eval := h.eval
      value := fun frame form => h.value (t := true) frame form
      interpret := fun frame form => h.interpret (t := true) frame form
      apply := h.apply (t := true)
      unfold := h.unfold (t := true)
      binding := h.evalBinding
      handler := h.handle
      clauses := h.selectClause
      closure := h.runClosure
      expansion := h.expand (t := true)
      apart := h.evalApart (t := true)
      builtin := h.callBuiltin (t := true)
      conversion := h.convert (t := true)
      callable := h.toCallable (t := true)
      iteration := h.iterate (t := true)
      dispatch := h.dispatch (t := true)
      pattern := h.destructure (t := true) }

end Lisp
