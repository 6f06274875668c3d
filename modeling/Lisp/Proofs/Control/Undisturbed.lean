import Lisp.Proofs.Control.Invariants

/-!
# Calls that nothing gets in the way of

A call stays undisturbed if its operands do no harm: if wherever the macro and what it uses
are found, the evaluation of an operand and the conversion of its value lead to a world in
which they are still found, and the evaluation defines no names in its own frame
(`ControlMacro.undisturbed_of_harmless`).  The rest is done by the expansions, whose changes
are quiet ones.
-/

namespace Lisp

namespace ControlMacro

variable {c : ControlMacro} {frame inner : FrameId} {operands known : List Value} {w u : World}

/-- What is remembered stays right. -/
theorem Recalls.remembers {id : ClosureId} (h : c.Recalls id w)
    (hremembers : c.Remembers w.expansions u.expansions) : c.Recalls id u := by
  have hstep : ∀ old, c.Remembers w.expansions old → ∀ e ∈ old, e.closure = id →
      ∃ known, Interchangeable known e.operands ∧ c.Expands known e.result := by
    intro old hold
    induction hold with
    | refl => exact h
    | tail _ hnew ih =>
        obtain ⟨id', operands, result, hexpands, rfl⟩ := hnew
        intro e he hid
        rcases Machine.mem_remember he with hknown | ⟨hresult, hfor⟩
        · exact ih e hknown hid
        · exact ⟨operands, hfor.interchangeable, hresult ▸ hexpands⟩
  exact hstep u.expansions hremembers

/-- Quiet changes leave everything to be found. -/
theorem Ready.quiet (h : c.Ready frame w) (hquiet : c.Quiet w u) : c.Ready frame u := by
  obtain ⟨hoffers, id, closure, hsees, hid, hdefined, hrecalls⟩ := h
  have hrecalls' := hrecalls.remembers hquiet.expansions
  have hseen : ∀ {id name v}, w.Sees id name v → u.Sees id name v := fun hsees =>
    (hquiet.frames.lookup_eq (Frames.lt_size_of_lookup hsees) _).trans hsees
  have hsees' := hseen hsees
  have hnames := fun entry hentry => hseen (hoffers.names entry hentry)
  obtain ⟨_, _, _, _, rfl⟩ := hquiet.rest
  exact ⟨{ hoffers with names := hnames }, id, closure, hsees', hid, hdefined, hrecalls'⟩

/-- A call finds in a new frame what it finds in the frame around it. -/
theorem Ready.opens (h : c.Ready frame w) {condition : Value} {yes no : Turn}
    {hidden : Option Symbol} (hopens : c.Opens frame operands w condition yes no hidden inner u) :
    c.Ready inner u := by
  cases hopens with
  | test _ _ hquiet => exact h.quiet hquiet
  | hold _ _ hquiet hnew hinner _ _ =>
      obtain ⟨_, _, hseesBefore, _⟩ := h.found
      obtain ⟨hoffers, id, closure, hsees, hfound⟩ := h.quiet hquiet
      have houter : frame < inner :=
        Nat.lt_of_lt_of_le (Frames.lt_size_of_lookup hseesBefore) hnew
      exact ⟨hoffers, id, closure, (Frames.lookup_of_empty hinner houter _).trans hsees, hfound⟩

/-- The value of a condition is held under a name of its own. -/
theorem Ready.holds (h : c.Ready frame w) {hidden : Option Symbol} {v : Value}
    (hfresh : ∀ s, hidden = some s → s.isInterned = false) (hholds : w.Holds inner hidden v u) :
    c.Ready frame u := by
  obtain ⟨hoffers, id, closure, hsees, hfound⟩ := h
  obtain ⟨depth, rfl⟩ := hholds
  cases hidden with
  | none => exact ⟨{ hoffers with }, id, closure, hsees, hfound⟩
  | some s =>
      have hseen : ∀ {id name x}, w.Sees id name x →
          (w.bound inner s v).Sees id name x := fun {id name x} hsees => by
        refine (w.heap.frames.lookup_define_of_ne inner v ?_ id).trans hsees
        rintro rfl
        cases hfresh _ rfl
      exact ⟨{ hoffers with names := fun entry hentry => hseen (hoffers.names entry hentry) }, id,
        closure, hseen hsees, hfound⟩

/-- The symbol of a value is no name from a text. -/
theorem Opens.isInterned {condition : Value} {yes no : Turn} {hidden : Option Symbol}
    (h : c.Opens frame operands w condition yes no hidden inner u) (s : Symbol)
    (hs : hidden = some s) : s.isInterned = false := by
  cases h with
  | test _ _ _ => cases hs
  | hold _ _ _ _ _ hfresh _ =>
      obtain rfl := Option.some.inj hs
      exact hfresh

/-- Wherever the macro and what it uses are found, the evaluation of the form and the
conversion of its value to a truth value leave them to be found, and the form defines no names
in its own frame. -/
structure Harmless (c : ControlMacro) (f : Value) : Prop where
  value : ∀ frame u v u', c.Ready frame u → ComesTo (fun m => m.value frame f) u (.ok v) u' →
    c.Ready frame u' ∧ u'.heap.frames.get? frame = u.heap.frames.get? frame
  truth : ∀ frame u v u' t truth t', ComesTo (fun m => m.value frame f) u (.ok v) u' →
    c.Ready frame t → ComesTo (fun m => m.toBool v) t (.ok truth) t' → c.Ready frame t'

/-- A call with harmless operands is undisturbed. -/
theorem undisturbed_of_harmless {home : FrameId} {Q : Value → Prop}
    (hQ : ∀ a b, a.same b = true → (Q a ↔ Q b)) (hharmless : ∀ f, Q f → c.Harmless f)
    (hready : c.Ready home w) (hmade : w.HasMade operands) (hall : ∀ f ∈ operands, Q f) :
    c.Undisturbed home operands w := by
  have hreaches : ∀ frame here u, c.Reaches home operands w frame here u →
      c.Ready frame u ∧ ∀ f ∈ here, Q f := by
    intro frame here u h
    induction h with
    | start => exact ⟨hready, hall⟩
    | @next frame inner here rest v u u' _ hround ih =>
        obtain ⟨hready, hall⟩ := ih
        have hrest : ∀ {known}, u.Stands known here → .again rest ∈ (c.plan known).turns →
            ∀ f ∈ rest, Q f := fun hknown hturn f hf =>
          hknown.forall_mem hQ hall f ((leftOf_of_turns hturn).1.subset hf)
        generalize hanswer : Answer.ok (Turn.again rest, v) = answer at hround
        cases hround with
        | unvalued _ _ _ hbreaks =>
            subst hanswer
            nomatch hbreaks
        | undecided _ _ _ _ _ hbreaks =>
            subst hanswer
            nomatch hbreaks
        | @done known turn _ hknown hplan hquiet =>
            cases hanswer
            exact ⟨hready.quiet hquiet, hrest hknown (by simp [hplan, Plan.turns])⟩
        | @decided condition x yes no hidden _ truth _ u₁ u₂ _ hopens _ hvalue hholds htruth =>
            obtain ⟨known, hknown, -, hmem, hyes, hno⟩ := hopens.exists_plan
            have hdoesNoHarm := hharmless condition (hknown.forall_mem hQ hall condition hmem)
            have hready₁ := (hdoesNoHarm.value _ _ _ _ (hready.opens hopens) hvalue).1
            have hready₂ := hready₁.holds hopens.isInterned hholds
            refine ⟨hdoesNoHarm.truth _ _ _ _ _ _ _ hvalue hready₂ htruth, hrest hknown ?_⟩
            have hturn : Turn.again rest = if truth then yes else no :=
              congrArg Prod.fst (Answer.ok.inj hanswer)
            rw [hturn]
            cases truth with
            | true => exact hyes
            | false => exact hno
  refine ⟨fun frame here u h => (hreaches frame here u h).1, ?_, hmade⟩
  intro frame here u condition yes no s inner u₁ v u₂ h hopens hvalue
  obtain ⟨hready, hall⟩ := hreaches frame here u h
  obtain ⟨known, hknown, -, hmem, -⟩ := hopens.exists_plan
  have hdoesNoHarm := hharmless condition (hknown.forall_mem hQ hall condition hmem)
  exact (hdoesNoHarm.value inner u₁ v u₂ (hready.opens hopens) hvalue).2

end ControlMacro

end Lisp
