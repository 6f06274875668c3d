import Lisp.Proofs.Control.Expansion
import Lisp.Proofs.Equality.Structural

/-!
# What the rounds of a call keep

From one round to the next a call has fewer operands, and mentions no symbol that it did
not mention before.  The frames between that of the call and the one that has been reached
bind nothing that is mentioned (`Frames.Inside`), so every variable is still that of the
frame of the call.  The evaluation of a condition keeps it so: it writes into its own frame
at most, which the symbol of the value is the only name in.
-/

namespace Lisp

/-! ### Operands that structural equality does not tell apart -/

namespace Value

mutual

/-- Structurally equal forms mention the same symbols. -/
theorem mentions_congr (s : Symbol) (a b : Value) (h : a.same b = true) :
    a.mentions s = b.mentions s := by
  cases a with
  | sym t => cases b <;> simp_all [same, mentions]
  | list xs _ =>
      cases b with
      | list ys _ =>
          rw [same] at h
          rw [mentions, mentions]
          exact anyMentions_congr s xs ys h
      | _ => simp [same] at h
  | _ => cases b <;> simp_all [same, mentions]

theorem anyMentions_congr (s : Symbol) (xs ys : List Value) (h : sameItems xs ys = true) :
    anyMentions s xs = anyMentions s ys := by
  cases xs with
  | nil => cases ys <;> simp_all [sameItems]
  | cons x xs =>
      cases ys with
      | nil => simp [sameItems] at h
      | cons y ys =>
          rw [sameItems, Bool.and_eq_true] at h
          rw [anyMentions, anyMentions, mentions_congr s x y h.1, anyMentions_congr s xs ys h.2]

end

end Value

/-! ### What is left of a call -/

/-- The forms that a turn goes on with. -/
def Turn.forms : Turn → List Value
  | .form f => [f]
  | .again operands => operands
  | _ => []

/-- A turn goes on with one operand or none, or with some of the last operands. -/
def Turn.LeftOf (operands : List Value) : Turn → Prop
  | .form f => f = .nil ∨ f ∈ operands
  | .again rest => rest <:+ operands ∧ rest.length < operands.length
  | _ => True

/-- The turns that a plan may take. -/
def Plan.turns : Plan → List Turn
  | .done turn => [turn]
  | .test _ yes no => [yes, no]
  | .hold _ yes no => [yes, no]

/-- The condition that a plan tests. -/
def Plan.condition? : Plan → Option Value
  | .done _ => none
  | .test f _ _ => some f
  | .hold f _ _ => some f

theorem Value.anyMentions_iff {s : Symbol} {forms : List Value} :
    anyMentions s forms = true ↔ ∃ f ∈ forms, f.mentions s = true := by
  induction forms with
  | nil => simp [anyMentions]
  | cons f rest ih => simp [anyMentions, ih]

/-- So it mentions nothing that the operands do not mention. -/
theorem Turn.LeftOf.anyMentions {turn : Turn} {operands : List Value}
    (h : turn.LeftOf operands) {s : Symbol} (hs : Value.anyMentions s turn.forms = true) :
    Value.anyMentions s operands = true := by
  obtain ⟨f, hf, hmentions⟩ := Value.anyMentions_iff.mp hs
  cases turn with
  | constant v => cases hf
  | held => cases hf
  | form g =>
      obtain rfl := List.mem_singleton.mp hf
      rcases h with rfl | hmem
      · cases hmentions
      · exact Value.anyMentions_iff.mpr ⟨f, hmem, hmentions⟩
  | again rest => exact Value.anyMentions_iff.mpr ⟨f, h.1.subset hf, hmentions⟩

namespace ControlMacro

variable {c : ControlMacro} {operands : List Value} {turn : Turn}

/-- A plan makes do with the operands of the call. -/
theorem leftOf_of_turns (h : turn ∈ (c.plan operands).turns) : turn.LeftOf operands := by
  have hdrop : ∀ (f : Value) (rest : List Value), (Turn.again rest).LeftOf (f :: rest) :=
    fun f rest => ⟨List.suffix_cons f rest, Nat.lt_succ_self _⟩
  cases c with
  | conjunction =>
      rcases operands with - | ⟨f, - | ⟨g, rest⟩⟩
      · obtain rfl := List.mem_singleton.mp h
        trivial
      · obtain rfl := List.mem_singleton.mp h
        exact .inr List.mem_cons_self
      · rcases List.mem_pair.mp h with rfl | rfl
        · exact hdrop f (g :: rest)
        · trivial
  | disjunction =>
      rcases operands with - | ⟨f, rest⟩
      · obtain rfl := List.mem_singleton.mp h
        trivial
      · rcases List.mem_pair.mp h with rfl | rfl
        · trivial
        · exact hdrop f rest
  | conditional =>
      rcases operands with - | ⟨test, clauses⟩
      · obtain rfl := List.mem_singleton.mp h
        trivial
      · have hresult : (Turn.form (clauses.headD .nil)).LeftOf (test :: clauses) := by
          cases clauses with
          | nil => exact .inl rfl
          | cons result rest => exact .inr (List.mem_cons_of_mem test List.mem_cons_self)
        have hrest : (Turn.again clauses.tail).LeftOf (test :: clauses) :=
          ⟨(List.tail_suffix clauses).trans (List.suffix_cons test clauses), by
            rw [List.length_tail, List.length_cons]
            omega⟩
        rw [plan_conditional] at h
        split at h
        · obtain rfl := List.mem_singleton.mp h
          exact hresult
        · rcases List.mem_pair.mp h with rfl | rfl
          · exact hresult
          · exact hrest

/-- The condition of a plan is the first operand. -/
theorem head?_of_condition {f : Value} (h : (c.plan operands).condition? = some f) :
    operands.head? = some f := by
  cases c with
  | conjunction =>
      rcases operands with - | ⟨g, - | ⟨g', rest⟩⟩
      · cases h
      · cases h
      · exact h
  | disjunction =>
      cases operands with
      | nil => cases h
      | cons g rest => exact h
  | conditional =>
      cases operands with
      | nil => cases h
      | cons test clauses =>
          rw [plan_conditional] at h
          split at h
          · cases h
          · exact h

/-- Only `or` holds a value. -/
theorem eq_disjunction_of_hold {f : Value} {yes no : Turn}
    (h : c.plan operands = .hold f yes no) : c = .disjunction := by
  cases c with
  | disjunction => rfl
  | conjunction => rcases operands with - | ⟨g, - | ⟨g', rest⟩⟩ <;> cases h
  | conditional =>
      cases operands with
      | nil => cases h
      | cons test clauses =>
          rw [plan_conditional] at h
          split at h <;> cases h

/-- And `or` does nothing else with a condition. -/
theorem ne_disjunction_of_test {f : Value} {yes no : Turn}
    (h : c.plan operands = .test f yes no) : c ≠ .disjunction := by
  rintro rfl
  cases operands <;> cases h

end ControlMacro

namespace World.Stands

variable {w : World} {known operands : List Value}

/-- Operands that a call may stand for mention what its own mention. -/
theorem anyMentions_eq (h : w.Stands known operands) (s : Symbol) :
    Value.anyMentions s known = Value.anyMentions s operands :=
  h.1.congr (g := Value.anyMentions s) (Value.anyMentions_congr s)

/-- There are as many of them. -/
theorem length_eq (h : w.Stands known operands) : known.length = operands.length :=
  h.1.congr (g := List.length) fun _ _ hsame => (Value.sameItems_iff.mp hsame).length_eq

/-- They all have a property that the call's own have, if structural equality respects it. -/
theorem forall_mem {Q : Value → Prop} (hQ : ∀ a b, a.same b = true → (Q a ↔ Q b))
    (h : w.Stands known operands) (hall : ∀ f ∈ operands, Q f) : ∀ f ∈ known, Q f := by
  have hitems : ∀ xs ys, Value.sameItems xs ys = true →
      (∀ f ∈ xs, Q f) = ∀ f ∈ ys, Q f := by
    intro xs ys hsame
    have hpairs := Value.sameItems_iff.mp hsame
    clear hsame
    induction hpairs with
    | nil => rfl
    | cons hxy _ ih => rw [List.forall_mem_cons, List.forall_mem_cons, hQ _ _ hxy, ih]
  exact (h.1.congr hitems).mpr hall

end World.Stands

/-! ### Frames that bind nothing that is mentioned -/

namespace Frames

/-- The frames from this one to `home` bind no symbol that the forms mention. -/
inductive Inside (fs : Frames) (home : FrameId) (forms : List Value) : FrameId → Prop
  | home : Inside fs home forms home
  | inner {frame outer : FrameId} {f : Frame} (houter : Inside fs home forms outer)
      (hframe : fs.get? frame = some f) (hof : f.outer = some outer) (hlt : outer < frame)
      (hhidden : ∀ s, Value.anyMentions s forms = true → f.get? s = none) :
      Inside fs home forms frame

variable {fs gs : Frames} {home frame : FrameId} {forms forms' : List Value}

/-- So a symbol that is mentioned is looked up where `home` is reached. -/
theorem Inside.lookup_eq (h : fs.Inside home forms frame) {s : Symbol}
    (hs : Value.anyMentions s forms = true) : fs.lookup frame s = fs.lookup home s := by
  induction h with
  | home => rfl
  | inner _ hframe hof hlt hhidden ih =>
      rw [lookup, hframe]
      dsimp only
      rw [hhidden s hs, hof]
      dsimp only
      rw [if_pos hlt]
      exact ih

/-- Frames that are kept stay so, for forms that mention no more. -/
theorem Inside.mono (h : fs.Inside home forms frame)
    (hkept : ∀ id f, fs.get? id = some f → gs.get? id = some f)
    (hforms : ∀ s, Value.anyMentions s forms' = true → Value.anyMentions s forms = true) :
    gs.Inside home forms' frame := by
  induction h with
  | home => exact .home
  | inner _ hframe hof hlt hhidden ih =>
      exact .inner ih (hkept _ _ hframe) hof hlt fun s hs => hhidden s (hforms s hs)

theorem Within.get?_eq_some (h : fs.Within gs) {id : FrameId} {f : Frame}
    (hget : fs.get? id = some f) : gs.get? id = some f :=
  (h.get? id (lt_size_of_get? hget)).trans hget

/-- What a definition makes of its own frame. -/
theorem get?_define_self (fs : Frames) (id : FrameId) (s : Symbol) (v : Value) :
    (fs.define id s v).get? id = (fs.get? id).map (·.define s v) := by
  simp [Frames.get?, define, Array.getElem?_modify]

end Frames

/-! ### What the evaluation of a condition keeps -/

/-- The discipline of using no serial number twice. -/
def countingSerials : Discipline where
  rel _ w w' := w.heap.serials ≤ w'.heap.serials
  refl _ := Nat.le_refl _
  trans := Nat.le_trans
  change w edit := by
    cases edit with
    | heap edit =>
        cases edit with
        | implement id key imp =>
            obtain ⟨interfaces, recordTypes, htables⟩ := w.heap.implement_tables id key imp
            exact Nat.le_of_eq (congrArg Heap.serials htables).symm
        | nextSerial => exact Nat.le_succ _
        | _ => exact Nat.le_refl _
    | _ => exact Nat.le_refl _
  remember _ _ hcounts := hcounts
  define _ _ _ _ := Nat.le_refl _
  extend _ _ _ _ hcounts := hcounts
  nested _ _ hcounts := hcounts
  inCall _ _ _ hcounts := hcounts

namespace Discipline

variable (D : Discipline) {w w' : World}

/-- An evaluation follows the discipline, whatever it comes to. -/
theorem value_comesTo {frame : FrameId} {form : Value} {a : Answer Value}
    (h : ComesTo (fun m => m.value frame form) w a w') : D.rel (some frame) w w' := by
  obtain ⟨-, n, hrun⟩ := h
  have hfollows := (D.congruence.machines n).value (t := true) frame form w
  dsimp only at hrun
  rw [hrun] at hfollows
  exact hfollows

/-- So does the conversion to a truth value. -/
theorem toBool_comesTo {v : Value} {a : Answer Bool}
    (h : ComesTo (fun m => m.toBool v) w a w') : D.rel none w w' := by
  obtain ⟨-, n, hrun⟩ := h
  have hfollows := (D.congruence.machines n).toBool (e := none) (t := true) v w
  dsimp only at hrun
  rw [hrun] at hfollows
  exact hfollows

end Discipline

/-! ### Where a call has got to -/

/-- A call whose variables are those of `home` has got to these forms in this frame. -/
structure ControlMacro.Along (c : ControlMacro) (home frame : FrameId) (forms : List Value)
    (w : World) : Prop where
  inside : w.heap.frames.Inside home forms frame
  atHome : c ≠ .disjunction → frame = home
  made : w.HasMade forms

namespace ControlMacro

variable {c : ControlMacro} {home frame inner : FrameId} {operands known : List Value}
  {condition v : Value} {yes no turn : Turn} {hidden : Option Symbol} {truth : Bool}
  {w u u₁ u₂ u₃ : World}

/-- Forms that mention no more are reached by way of worlds with as many symbols. -/
theorem Along.made_mono (h : c.Along home frame operands w) {forms : List Value}
    (hforms : ∀ s, Value.anyMentions s forms = true → Value.anyMentions s operands = true)
    (hserials : w.heap.serials ≤ u.heap.serials) : u.HasMade forms :=
  fun s n hs hserial => Nat.lt_of_lt_of_le (h.made s n (hforms s hs) hserial) hserials

/-- The turns of a plan mention no more than the call. -/
theorem anyMentions_of_turns (hknown : w.Stands known operands)
    (hturn : turn ∈ (c.plan known).turns) (s : Symbol)
    (hs : Value.anyMentions s turn.forms = true) : Value.anyMentions s operands = true := by
  rw [← hknown.anyMentions_eq s]
  exact (leftOf_of_turns hturn).anyMentions hs

/-- The condition is an operand, and the turns are those of the plan, of a call that this one
may stand for. -/
theorem Opens.exists_plan (h : c.Opens frame operands w condition yes no hidden inner u) :
    ∃ known, w.Stands known operands ∧ c.Quiet w u ∧ condition ∈ known ∧
      yes ∈ (c.plan known).turns ∧ no ∈ (c.plan known).turns := by
  have hmem : ∀ {known}, (c.plan known).condition? = some condition → condition ∈ known :=
    fun hcondition => List.mem_of_mem_head? (head?_of_condition hcondition)
  cases h with
  | @test known _ _ _ _ hknown hplan hquiet =>
      exact ⟨known, hknown, hquiet, hmem (by rw [hplan]; rfl), by simp [hplan, Plan.turns]⟩
  | @hold known _ _ _ _ _ _ hknown hplan hquiet _ _ _ _ =>
      exact ⟨known, hknown, hquiet, hmem (by rw [hplan]; rfl), by simp [hplan, Plan.turns]⟩

/-- A call without a condition goes on where it is. -/
theorem Along.done (h : c.Along home frame operands w) (hknown : w.Stands known operands)
    (hturn : turn ∈ (c.plan known).turns) (hquiet : c.Quiet w u) :
    c.Along home frame turn.forms u where
  inside := h.inside.mono (fun _ _ => hquiet.frames.get?_eq_some)
    (anyMentions_of_turns hknown hturn)
  atHome := h.atHome
  made := h.made_mono (anyMentions_of_turns hknown hturn) hquiet.serials

/-- The condition of a call sees the variables of the call. -/
theorem Along.seesAlike (h : c.Along home frame operands w) (hframe : frame < w.heap.frames.size)
    (hopens : c.Opens frame operands w condition yes no hidden inner u) :
    u.SeesAlike home inner operands := by
  intro s hs
  cases hopens with
  | test _ hplan _ => rw [h.atHome (ne_disjunction_of_test hplan)]
  | hold _ _ hquiet hnew hinner _ _ =>
      have hinside := h.inside.mono (fun _ _ => hquiet.frames.get?_eq_some) fun s hs => hs
      rw [Frames.lookup_of_empty hinner (Nat.lt_of_lt_of_le hframe hnew), hinside.lookup_eq hs]

/-- A call goes on in a frame that binds nothing its operands mention, and in which the value
of the condition is found under its symbol. -/
theorem Along.decided (h : c.Along home frame operands w) (hframe : frame < w.heap.frames.size)
    (hopens : c.Opens frame operands w condition yes no hidden inner u)
    (hvalue : ComesTo (fun m => m.value inner condition) u (.ok v) u₁)
    (hapart : ∀ s, hidden = some s → u₁.heap.frames.get? inner = u.heap.frames.get? inner)
    (hholds : u₁.Holds inner hidden v u₂)
    (htruth : ComesTo (fun m => m.toBool v) u₂ (.ok truth) u₃) :
    c.Along home inner (if truth then yes else no).forms u₃ ∧
      ∀ s, hidden = some s → u₃.heap.frames.lookup inner s = some v := by
  obtain ⟨known, hknown, hquiet, -, hyes, hno⟩ := hopens.exists_plan
  have hmentions : ∀ s, Value.anyMentions s (if truth then yes else no).forms = true →
      Value.anyMentions s operands = true := by
    cases truth with
    | true => exact anyMentions_of_turns hknown hyes
    | false => exact anyMentions_of_turns hknown hno
  obtain ⟨depth, rfl⟩ := hholds
  have hvalueKeeps := keepingFrames.value_comesTo hvalue
  have htruthKeeps := keepingFrames.toBool_comesTo htruth
  have hcounted := countingSerials.toBool_comesTo htruth
  have hmade := h.made_mono hmentions (Nat.le_trans hquiet.serials
    (Nat.le_trans (countingSerials.value_comesTo hvalue) hcounted))
  cases hopens with
  | test _ hplan _ =>
      have hhome := h.atHome (ne_disjunction_of_test hplan)
      exact ⟨⟨hhome ▸ .home, h.atHome, hmade⟩, nofun⟩
  | @hold _ _ _ _ s _ _ _ hplan _ hnew hinner _ hhidden =>
      -- The new frame binds the symbol of the value, and is as it was otherwise.
      have hbound : u₃.heap.frames.get? inner =
          some (Frame.define { outer := some frame, label := "let" } s v) := by
        refine htruthKeeps inner _ nofun ?_
        show (u₁.heap.frames.define inner s v).get? inner = _
        rw [Frames.get?_define_self, hapart s rfl, hinner]
        rfl
      have hkept : ∀ id f, w.heap.frames.get? id = some f → u₃.heap.frames.get? id = some f := by
        intro id f hget
        have hne : id ≠ inner :=
          Nat.ne_of_lt (Nat.lt_of_lt_of_le (Frames.lt_size_of_get? hget) hnew)
        refine htruthKeeps id f nofun ?_
        show (u₁.heap.frames.define inner s v).get? id = _
        rw [Frames.get?_define_of_ne _ _ _ _ _ hne]
        exact hvalueKeeps id f (fun heq => hne (Option.some.inj heq))
          (hquiet.frames.get?_eq_some hget)
      have hlt : frame < inner := Nat.lt_of_lt_of_le hframe hnew
      refine ⟨⟨.inner (h.inside.mono hkept hmentions) hbound rfl hlt fun t ht => ?_,
        fun hne => absurd (eq_disjunction_of_hold hplan) hne, hmade⟩, fun t ht => ?_⟩
      · rw [Frame.get?_define, if_neg]
        · rfl
        · rintro rfl
          rw [hmentions t ht] at hhidden
          cases hhidden
      · obtain rfl := Option.some.inj ht
        rw [Frames.lookup, hbound]
        dsimp only
        rw [Frame.get?_define, if_pos rfl]

end ControlMacro

end Lisp
