import Lisp.Proofs.Frames

/-!
# The nearest binding

A new frame stands inside a frame that is there already, so the frames form a forest:
the way outwards from a frame leads from older to older frames and ends at a root.  A
symbol is looked up along this way, and the first frame that binds it decides.

* `Grown` are the forests that definitions and new frames build from root frames.  In
  each of them a frame is younger than the one around it (`Grown.outer_lt`).
* `walk` goes outwards without a guard, one frame a turn.  In a forest it comes to an end
  after as many turns as there are older frames, and finds what `lookup` finds
  (`Grown.walk_of_lt`).
* `Sees` says which frame decides; so a definition is seen from the frame it is made in
  and from those inside it, except where a frame in between binds the symbol
  (`Grown.lookup_define_of_sees`, `Grown.lookup_define_of_not_sees`).
-/

namespace Lisp

namespace Frames

variable {fs : Frames} {f g outer : FrameId} {s : Symbol} {v : Value}

/-- The frame around a frame. -/
def outer? (fs : Frames) (g : FrameId) : Option FrameId :=
  (fs.get? g).bind (·.outer)

/-- What a frame itself binds a symbol to. -/
def own? (fs : Frames) (g : FrameId) (s : Symbol) : Option Value :=
  (fs.get? g).bind (·.get? s)

/-- One root frame more. -/
def plant (fs : Frames) : Frames :=
  ⟨fs.table.push {}⟩

/-- The forest is built from root frames by new frames inside others and by
definitions. -/
inductive Grown : Frames → Prop
  | empty : Grown ⟨#[]⟩
  | plant {fs : Frames} (h : Grown fs) : Grown fs.plant
  | extend {fs : Frames} (h : Grown fs) {outer : FrameId} (houter : outer < fs.size)
      (label : String) : Grown (fs.extend outer label)
  | define {fs : Frames} (h : Grown fs) {f : FrameId} (hf : f < fs.size) (s : Symbol)
      (v : Value) : Grown (fs.define f s v)

/-- The walk outwards from a frame, which looks at one frame in each turn; `none` if the
turns do not suffice. -/
def walk (fs : Frames) (s : Symbol) : (turns : Nat) → FrameId → Option (Option Value)
  | 0, _ => none
  | turns + 1, g =>
    match fs.own? g s, fs.outer? g with
    | some v, _ => some (some v)
    | none, some outer => fs.walk s turns outer
    | none, none => some none

/-- On the way outwards from the first frame, those of the list come before the last one. -/
inductive Way (fs : Frames) : FrameId → List FrameId → FrameId → Prop
  | here (f : FrameId) : Way fs f [] f
  | outwards {g outer f : FrameId} {below : List FrameId} (houter : fs.outer? g = some outer)
      (h : Way fs outer below f) : Way fs g (g :: below) f

/-- The frame `f` is `g` itself or stands around it, and no frame below it on the way
binds the symbol. -/
def Sees (fs : Frames) (g : FrameId) (s : Symbol) (f : FrameId) : Prop :=
  ∃ below, fs.Way g below f ∧ ∀ frame ∈ below, fs.own? frame s = none

/-! ### What the operations do to one frame -/

/-- A definition changes the bindings of its own frame. -/
theorem get?_define (fs : Frames) (f g : FrameId) (s : Symbol) (v : Value) :
    (fs.define f s v).get? g =
      (fs.get? g).map fun frame => if f = g then frame.define s v else frame := by
  simp only [get?, define, Array.getElem?_modify]
  split
  · rfl
  · cases fs.table[g]? <;> rfl

/-- A definition moves no frame. -/
@[simp] theorem outer?_define (fs : Frames) (f g : FrameId) (s : Symbol) (v : Value) :
    (fs.define f s v).outer? g = fs.outer? g := by
  simp only [outer?, get?_define]
  cases fs.get? g with
  | none => rfl
  | some frame =>
      by_cases h : f = g
      · simp [h, Frame.define]
      · simp [h]

/-- The frame of a definition binds the symbol to the value. -/
theorem own?_define_self (hf : f < fs.size) (s : Symbol) (v : Value) :
    (fs.define f s v).own? f s = some v := by
  have hframe : fs.get? f = some fs.table[f] := Array.getElem?_eq_getElem hf
  simp [own?, get?_define, hframe, Frame.get?_define]

/-- No other frame binds anything else than before. -/
theorem own?_define_of_ne (h : g ≠ f) (s t : Symbol) (v : Value) :
    (fs.define f s v).own? g t = fs.own? g t := by
  unfold own?
  rw [get?_define_of_ne _ _ _ _ _ h]

/-- A new root is no inner frame, and changes no other. -/
theorem outer?_plant (fs : Frames) (g : FrameId) : fs.plant.outer? g = fs.outer? g := by
  by_cases h : g = fs.table.size
  · simp [outer?, get?, plant, h]
  · simp [outer?, get?, plant, Array.getElem?_push, h]

/-- A new frame stands in its outer one, and changes no other. -/
theorem outer?_extend (fs : Frames) (outer g : FrameId) (label : String) :
    (fs.extend outer label).outer? g = if g = fs.size then some outer else fs.outer? g := by
  by_cases h : g = fs.table.size
  · simp [outer?, get?, extend, size, h]
  · simp [outer?, get?, extend, size, Array.getElem?_push, h]

/-! ### The forest -/

/-- Every frame is younger than the one around it. -/
theorem Grown.outer_lt (h : fs.Grown) (houter : fs.outer? g = some outer) : outer < g := by
  induction h with
  | empty => simp [outer?, get?] at houter
  | plant _ ih => exact ih (by rwa [outer?_plant] at houter)
  | define _ _ _ _ ih => exact ih (by rwa [outer?_define] at houter)
  | extend _ hlt _ ih =>
      rw [outer?_extend] at houter
      split at houter
      · next heq =>
          cases houter
          rw [heq]
          exact hlt
      · exact ih houter

/-- In a forest, the guard of a look-up lets every outer frame pass. -/
theorem Grown.lookup_eq (h : fs.Grown) (g : FrameId) (s : Symbol) :
    fs.lookup g s = (fs.own? g s).or ((fs.outer? g).bind (fs.lookup · s)) := by
  have houter : ∀ outer, fs.outer? g = some outer → outer < g := fun _ => h.outer_lt
  rw [lookup]
  unfold own?
  unfold outer? at houter ⊢
  cases hframe : fs.get? g with
  | none => rfl
  | some frame =>
      simp only [hframe, Option.bind_some] at houter ⊢
      cases frame.get? s with
      | some v => rfl
      | none =>
          cases hstands : frame.outer with
          | none => rfl
          | some outer => simp [houter outer hstands]

/-- A walk with a turn for each frame that is not younger ends, and finds what is looked
up. -/
theorem Grown.walk_of_lt (h : fs.Grown) (s : Symbol) {turns : Nat} (hturns : g < turns) :
    fs.walk s turns g = some (fs.lookup g s) := by
  induction turns generalizing g with
  | zero => cases hturns
  | succ turns ih =>
      rw [walk, h.lookup_eq]
      cases fs.own? g s with
      | some v => rfl
      | none =>
          cases houter : fs.outer? g with
          | none => rfl
          | some outer =>
              have hlt : outer < turns :=
                Nat.lt_of_lt_of_le (h.outer_lt houter) (Nat.le_of_lt_succ hturns)
              exact ih hlt

/-- A symbol is bound on the way outwards if looking it up finds a value. -/
theorem has_eq (fs : Frames) (g : FrameId) (s : Symbol) : fs.has g s = (fs.lookup g s).isSome := by
  induction g using Nat.strongRecOn with
  | ind g ih =>
      rw [has, lookup]
      cases fs.get? g with
      | none => rfl
      | some frame =>
          dsimp only
          cases frame.get? s with
          | some v => rfl
          | none =>
              cases frame.outer with
              | none => rfl
              | some outer =>
                  by_cases hlt : outer < g
                  · simp [hlt, ih outer hlt]
                  · simp [hlt]

/-! ### The frame that decides -/

/-- A frame sees itself, and past itself what the frame around it sees, if it does not bind
the symbol. -/
theorem sees_iff : fs.Sees g s f ↔
    g = f ∨ (fs.own? g s = none ∧ ∃ outer, fs.outer? g = some outer ∧ fs.Sees outer s f) := by
  constructor
  · rintro ⟨below, hway, hfree⟩
    cases hway with
    | here => exact .inl rfl
    | outwards houter hway =>
        obtain ⟨hown, hrest⟩ := List.forall_mem_cons.mp hfree
        exact .inr ⟨hown, _, houter, _, hway, hrest⟩
  · rintro (rfl | ⟨hown, outer, houter, below, hway, hfree⟩)
    · exact ⟨[], .here g, nofun⟩
    · exact ⟨g :: below, .outwards houter hway, List.forall_mem_cons.mpr ⟨hown, hfree⟩⟩

/-- A frame that binds the symbol sees no other. -/
theorem Sees.eq_of_own? (h : fs.Sees g s f) (hown : fs.own? g s = some v) : g = f := by
  rcases sees_iff.mp h with heq | ⟨hnone, -⟩
  · exact heq
  · exact nomatch hnone.symm.trans hown

/-- A look-up finds what the nearest frame that binds the symbol binds it to. -/
theorem Grown.lookup_eq_some_iff (h : fs.Grown) :
    fs.lookup g s = some v ↔ ∃ f, fs.Sees g s f ∧ fs.own? f s = some v := by
  induction g using Nat.strongRecOn with
  | ind g ih =>
      rw [h.lookup_eq]
      cases hown : fs.own? g s with
      | some u =>
          constructor
          · intro hu
            exact ⟨g, sees_iff.mpr (.inl rfl), hown.trans hu⟩
          · rintro ⟨f, hsees, hbound⟩
            obtain rfl := hsees.eq_of_own? hown
            exact hown.symm.trans hbound
      | none =>
          have hself : ∀ f, fs.own? f s = some v → g ≠ f := by
            rintro f hbound rfl
            exact nomatch hown.symm.trans hbound
          cases houter : fs.outer? g with
          | none =>
              refine ⟨nofun, fun ⟨f, hsees, hbound⟩ => ?_⟩
              rcases sees_iff.mp hsees with heq | ⟨-, outer, hsome, -⟩
              · exact absurd heq (hself f hbound)
              · exact nomatch houter.symm.trans hsome
          | some outer =>
              refine (ih outer (h.outer_lt houter)).trans ⟨?_, ?_⟩
              · rintro ⟨f, hsees, hbound⟩
                exact ⟨f, sees_iff.mpr (.inr ⟨hown, outer, houter, hsees⟩), hbound⟩
              · rintro ⟨f, hsees, hbound⟩
                rcases sees_iff.mp hsees with heq | ⟨-, other, hother, hrest⟩
                · exact absurd heq (hself f hbound)
                · cases houter.symm.trans hother
                  exact ⟨f, hrest, hbound⟩

section Definitions

variable (h : fs.Grown) (hf : f < fs.size)
include h hf

/-- A definition decides what is found from every frame that sees its frame. -/
theorem Grown.lookup_define_of_sees (v : Value) (hsees : fs.Sees g s f) :
    (fs.define f s v).lookup g s = some v := by
  induction g using Nat.strongRecOn with
  | ind g ih =>
      rw [(h.define hf s v).lookup_eq]
      by_cases hself : g = f
      · rw [hself, own?_define_self hf]
        rfl
      · rcases sees_iff.mp hsees with heq | ⟨hown, outer, houter, hrest⟩
        · exact absurd heq hself
        · rw [own?_define_of_ne hself, hown, outer?_define, houter]
          exact ih outer (h.outer_lt houter) hrest

/-- From every other frame, the symbol is found as before. -/
theorem Grown.lookup_define_of_not_sees (v : Value) (hsees : ¬ fs.Sees g s f) :
    (fs.define f s v).lookup g s = fs.lookup g s := by
  induction g using Nat.strongRecOn with
  | ind g ih =>
      have hself : g ≠ f := fun heq => hsees (sees_iff.mpr (.inl heq))
      rw [(h.define hf s v).lookup_eq, h.lookup_eq, own?_define_of_ne hself, outer?_define]
      cases hown : fs.own? g s with
      | some u => rfl
      | none =>
          cases houter : fs.outer? g with
          | none => rfl
          | some outer =>
              exact ih outer (h.outer_lt houter) fun hrest =>
                hsees (sees_iff.mpr (.inr ⟨hown, outer, houter, hrest⟩))

end Definitions

/-- **The nearest binding is found.**  In a forest every look-up ends, whatever the turns
are counted for; it finds the value that the nearest frame on the way outwards binds the
symbol to, and a symbol is bound if it finds one, nil included.  A definition in `f`
decides what is found from `g` exactly for its own symbol and where `f` is `g` or stands
around it, with no frame in between that binds the symbol; everything else is found as
before. -/
theorem Grown.nearest_binding (h : fs.Grown) :
    (∀ g s turns, g < turns → fs.walk s turns g = some (fs.lookup g s)) ∧
    (∀ g s, fs.has g s = true ↔ ∃ v, fs.lookup g s = some v) ∧
    (∀ g s v, fs.lookup g s = some v ↔ ∃ f, fs.Sees g s f ∧ fs.own? f s = some v) ∧
    ∀ f < fs.size, ∀ (g : FrameId) (s t : Symbol) (v : Value),
      (t = s ∧ fs.Sees g s f → (fs.define f s v).lookup g t = some v) ∧
      (¬ (t = s ∧ fs.Sees g s f) → (fs.define f s v).lookup g t = fs.lookup g t) := by
  refine ⟨fun g s turns => h.walk_of_lt s, fun g s => ?_, fun g s v => h.lookup_eq_some_iff, ?_⟩
  · rw [has_eq, Option.isSome_iff_exists]
  · intro f hf g s t v
    constructor
    · rintro ⟨rfl, hsees⟩
      exact h.lookup_define_of_sees hf v hsees
    · intro hnot
      by_cases heq : t = s
      · subst heq
        exact h.lookup_define_of_not_sees hf v fun hsees => hnot ⟨rfl, hsees⟩
      · exact fs.lookup_define_of_ne f v heq g

/-- The symbol `x`. -/
def shadedSymbol : Symbol :=
  .intern "x"

/-- Two roots, a frame inside the first one that binds `x` to nil, and a frame inside
that. -/
def shaded : Frames :=
  (((plant ⟨#[]⟩).plant.extend 0 "let").extend 2 "proc").define 2 shadedSymbol .nil

/-- A definition in the first root is found from there.  The frame that binds the symbol
itself hides it from the frame inside, and from the other root it is not seen. -/
theorem nearest_binding_shaded :
    shaded.Grown ∧
    (shaded.define 0 shadedSymbol (.bool true)).lookup 0 shadedSymbol = some (.bool true) ∧
    (shaded.define 0 shadedSymbol (.bool true)).lookup 3 shadedSymbol = some .nil ∧
    (shaded.define 0 shadedSymbol (.bool true)).lookup 1 shadedSymbol = none := by
  have hgrown : shaded.Grown :=
    .define (.extend (.extend (.plant (.plant .empty)) (by decide) "let") (by decide) "proc")
      (by decide) shadedSymbol .nil
  obtain ⟨hwalk, -, -, hdefine⟩ := hgrown.nearest_binding
  have hinner : ¬ shaded.Sees 3 shadedSymbol 0 := by
    intro hsees
    rcases sees_iff.mp hsees with heq | ⟨-, outer, houter, hmiddle⟩
    · cases heq
    · cases houter
      exact nomatch hmiddle.eq_of_own? (v := .nil) rfl
  have hother : ¬ shaded.Sees 1 shadedSymbol 0 := by
    intro hsees
    rcases sees_iff.mp hsees with heq | ⟨-, outer, houter, -⟩
    · cases heq
    · cases houter
  obtain ⟨hseen, -⟩ := hdefine 0 (by decide) 0 shadedSymbol shadedSymbol (.bool true)
  obtain ⟨-, hhidden⟩ := hdefine 0 (by decide) 3 shadedSymbol shadedSymbol (.bool true)
  obtain ⟨-, hapart⟩ := hdefine 0 (by decide) 1 shadedSymbol shadedSymbol (.bool true)
  refine ⟨hgrown, hseen ⟨rfl, sees_iff.mpr (.inl rfl)⟩, ?_, ?_⟩
  · rw [hhidden fun h => hinner h.2]
    exact Option.some.inj (hwalk 3 shadedSymbol 4 (by decide)).symm
  · rw [hapart fun h => hother h.2]
    exact Option.some.inj (hwalk 1 shadedSymbol 2 (by decide)).symm

end Frames

end Lisp
