import Lisp.Proofs.Balance
import Lisp.Proofs.Growth
import Lisp.Proofs.Patterns
import Mathlib.Logic.Relation

/-!
# Remembered expansions

While expansions are remembered, a macro is not applied again to operands that are
structurally equal to earlier ones.  For a macro that is a function of its operand
forms, this is what a call goes on with:

* without the memory, the value of that function for the operands of the call;
* with it, the value for operands that may be exchanged for them: the memory tells
  operands apart no better than structural equality does (`World.Expands.macro_call`).

So the memory makes no difference exactly as far as the macro does not tell
structurally equal operands apart.  The two zeros are structurally equal, and so are
lists that were read from different places.

An expansion is remembered only with what the macro has just been found to expand to,
in a world that comes after the one in which the session started.  That is an
invariant of all sessions (`recalling`).
-/

namespace Lisp

/-! ### Worlds that come after a world -/

/-- The changes that evaluations consist of. -/
inductive World.Change : World → World → Prop
  | edit {g : World → World} (edit : Edit g) (w : World) : Change w (g w)
  | remember (w : World) (expansions : List Expansion) : Change w { w with expansions }
  | define (w : World) (frame : FrameId) (s : Symbol) (v : Value) :
      Change w { w with heap := { w.heap with frames := w.heap.frames.define frame s v } }
  | extend (w : World) (outer : FrameId) (label : String) :
      Change w { w with heap := { w.heap with frames := w.heap.frames.extend outer label } }
  | move (w : World) (calls : List Call) (depth : Nat) : Change w { w with calls, depth }

/-- The second world comes after the first one, by any number of changes. -/
def World.Before : World → World → Prop :=
  Relation.ReflTransGen World.Change

/-- A change loses nothing that the tables hold. -/
theorem World.Change.heap_grows {w w' : World} (h : w.Change w') : w.heap.Grows w'.heap := by
  cases h with
  | edit edit w =>
      cases edit with
      | heap edit => exact edit.grows w.heap
      | _ => exact .refl w.heap
  | remember w expansions => exact .refl w.heap
  | define w frame s v => exact (w.grows_frames _).heap
  | extend w outer label => exact (w.grows_frames _).heap
  | move w calls depth => exact .refl w.heap

/-- What comes after a world has all that its tables hold. -/
theorem World.Before.heap_grows {s w : World} (h : s.Before w) : s.heap.Grows w.heap := by
  induction h with
  | refl => exact .refl s.heap
  | tail _ hchange ih => exact ih.trans hchange.heap_grows

/-- A closure stays what it is, but for its name. -/
theorem World.Before.closure {s w : World} (h : s.Before w) {id : ClosureId} {c : Closure}
    (hc : s.heap.closures[id]? = some c) :
    ∃ name, w.heap.closures[id]? = some { c with name } := by
  obtain ⟨c', hc', hkeeps⟩ := h.heap_grows.closures id c hc
  exact ⟨c'.name, hc'.trans (congrArg some hkeeps.code)⟩

/-! ### What is remembered -/

/-- Operands that structural equality, taken any number of times, does not tell
apart. -/
def Interchangeable : List Value → List Value → Prop :=
  Relation.EqvGen fun xs ys => Value.sameItems xs ys = true

/-- A function that does not tell structurally equal operands apart. -/
theorem Interchangeable.congr {γ : Type} {xs ys : List Value} {g : List Value → γ}
    (hg : ∀ xs ys, Value.sameItems xs ys = true → g xs = g ys) (h : Interchangeable xs ys) :
    g xs = g ys := by
  induction h with
  | rel xs ys hsame => exact hg xs ys hsame
  | refl xs => rfl
  | symm xs ys _ ih => exact ih.symm
  | trans xs ys zs _ _ ihxy ihyz => exact ihxy.trans ihyz

namespace World

/-- From this world on, whatever changes, the macro expands operands to the value of a
function for them. -/
def Expands (s : World) (id : ClosureId) (g : List Value → Value) : Prop :=
  ∀ w, s.Before w → ∀ fuel source operands v w',
    run fuel (.apply source (.closure id) operands) w = (.ok v, w') → v = g operands

/-- Each expansion remembered for the macro is the value of the function for operands
that may be exchanged for those it is remembered under. -/
def Recalls (w : World) (id : ClosureId) (g : List Value → Value) : Prop :=
  ∀ e ∈ w.expansions, e.closure = id →
    ∃ operands, Interchangeable operands e.operands ∧ e.result = g operands

variable {s w : World} {id : ClosureId} {g : List Value → Value}

/-- What is found in the memory. -/
theorem Recalls.remembered (h : w.Recalls id g) {operands : List Value} {v : Value}
    (hv : Machine.remembered? id operands w.expansions = some v) :
    ∃ known, Interchangeable known operands ∧ v = g known := by
  unfold Machine.remembered? at hv
  obtain ⟨e, hfound, rfl⟩ := Option.map_eq_some_iff.mp hv
  have hmem := List.mem_of_find?_eq_some hfound
  have hkey := List.find?_some hfound
  simp only [Bool.and_eq_true, beq_iff_eq] at hkey
  obtain ⟨known, hknown, hresult⟩ := h e hmem hkey.1
  exact ⟨known, .trans _ _ _ hknown (.rel _ _ hkey.2), hresult⟩

end World

/-- The expansion is remembered for the macro, and for these operands or for ones that
are structurally equal to them. -/
def Expansion.IsFor (e : Expansion) (id : ClosureId) (operands : List Value) : Prop :=
  e.closure = id ∧ (e.operands = operands ∨ Value.sameItems e.operands operands = true)

/-- Such operands may be exchanged for those that the expansion is remembered under. -/
theorem Expansion.IsFor.interchangeable {e : Expansion} {id : ClosureId} {operands : List Value}
    (h : e.IsFor id operands) : Interchangeable operands e.operands := by
  rcases h.2 with heq | hsame
  · exact heq ▸ .refl _
  · exact .symm _ _ (.rel _ _ hsame)

/-- What a memory holds after an expansion has been remembered. -/
theorem Machine.mem_remember {id : ClosureId} {operands : List Value} {result : Value}
    {known : List Expansion} {e : Expansion}
    (he : e ∈ remember id operands result known) :
    e ∈ known ∨ e.result = result ∧ e.IsFor id operands := by
  rcases remember_cases id operands result known with
    ⟨before, first, after, rfl, hclosure, hsame, hnew⟩ | ⟨-, hnew⟩
  · rw [hnew] at he
    rcases List.mem_append.mp he with hbefore | hcons
    · exact .inl (List.mem_append_left _ hbefore)
    · rcases List.mem_cons.mp hcons with rfl | hafter
      · exact .inr ⟨rfl, hclosure, .inr hsame⟩
      · exact .inl (List.mem_append_right _ (List.mem_cons_of_mem _ hafter))
  · rw [hnew] at he
    rcases List.mem_append.mp he with hold | hadded
    · exact .inl hold
    · obtain rfl := List.mem_singleton.mp hadded
      exact .inr ⟨rfl, rfl, .inl rfl⟩

/-! ### Sessions -/

/-- No change but that of the memory reaches it. -/
theorem Edit.expansions_eq {f : World → World} (edit : Edit f) (w : World) :
    (f w).expansions = w.expansions := by
  cases edit <;> rfl

/-- The discipline of remembering what a macro expands to, after a world from which on
it is a function of its operands. -/
def recalling (s : World) (id : ClosureId) (g : List Value → Value) (hs : s.Expands id g) :
    Discipline where
  rel _ w w' := w.Before w' ∧ (s.Before w → w.Recalls id g → w'.Recalls id g)
  refl _ := ⟨.refl, fun _ h => h⟩
  trans := by
    intro _ u v w ⟨huv, hrecalls⟩ ⟨hvw, hrecalls'⟩
    exact ⟨huv.trans hvw, fun hsu hu => hrecalls' (hsu.trans huv) (hrecalls hsu hu)⟩
  change w edit := by
    refine ⟨.single (.edit edit w), fun _ hw => ?_⟩
    unfold World.Recalls
    rw [edit.expansions_eq w]
    exact hw
  remember := by
    intro _ fuel source macroId operands w v w' _ hrun ⟨hww', hrecalls⟩
    refine ⟨hww'.tail (.remember w' _), fun hsw hw e he hid => ?_⟩
    rcases Machine.mem_remember he with hold | ⟨hresult, hfor⟩
    · exact hrecalls hsw hw e hold hid
    · have hv : v = g operands := by
        rw [← hfor.1, hid] at hrun
        exact hs w hsw fuel source operands v w' hrun
      exact ⟨operands, hfor.interchangeable, hresult.trans hv⟩
  define w f s v := ⟨.single (.define w f s v), fun _ h => h⟩
  extend w outer label w' h :=
    ⟨.head (.extend w outer label) h.1,
      fun hsw => h.2 (hsw.tail (.extend w outer label))⟩
  nested w w' h :=
    ⟨.head (.move w w.calls (w.depth + 1)) (h.1.tail (.move w' w'.calls (w'.depth - 1))),
      fun hsw => h.2 (hsw.tail (.move w w.calls (w.depth + 1)))⟩
  inCall w call w' h :=
    ⟨.head (.move w (call :: w.calls) w.depth) (h.1.tail (.move w' w'.calls.tail w'.depth)),
      fun hsw => h.2 (hsw.tail (.move w (call :: w.calls) w.depth))⟩

namespace World

variable {s w : World} {id : ClosureId} {g : List Value → Value}

/-- A session keeps the memory of the macro right. -/
theorem Expands.recalls (hs : s.Expands id g) (hfresh : ∀ e ∈ s.expansions, e.closure ≠ id)
    (h : s.Leads w) : s.Before w ∧ w.Recalls id g := by
  have hstep : ∀ {u v : World}, u.Before v ∧ (s.Before u → u.Recalls id g → v.Recalls id g) →
      s.Before u ∧ u.Recalls id g → s.Before v ∧ v.Recalls id g := by
    intro u v ⟨huv, hrecalls⟩ ⟨hsu, hu⟩
    exact ⟨hsu.trans huv, hrecalls hsu hu⟩
  induction h with
  | refl => exact ⟨.refl, fun e he hid => absurd hid (hfresh e he)⟩
  | @step u step _ _ ih => exact hstep ((recalling s id g hs).perform u step) ih
  | @request u fuel r _ _ ih =>
      have hmachine := (recalling s id g hs).congruence.machines fuel
      refine hstep ?_ ih
      cases r with
      | eval frame form => exact hmachine.eval frame form u
      | apply source callee args =>
          exact hmachine.apply (e := none) (t := true) source callee args u
      | unfold sequence taken =>
          exact hmachine.unfold (e := none) (t := true) sequence taken u
  | @inside u calls depth _ ih => exact ⟨ih.1.tail (.move u calls depth), ih.2⟩

/-- The expansion that a macro call goes on with, and how it comes by it: nothing happens
if it is remembered, and else the macro is applied to the operands of the call. -/
theorem Expands.expansion (hs : s.Expands id g) (hsw : s.Before w) (hw : w.Recalls id g)
    {fuel : Nat} {operands : List Value} {source : Option Span} {v : Value} {w' : World}
    (hrun : (run fuel).expand id operands source w = (.ok v, w')) :
    ∃ known, v = g known ∧ Interchangeable known operands ∧
      (w.options.expansionCache = true ∧ w' = w ∨
        known = operands ∧ ∃ u expansions,
          run fuel (.apply source (.closure id) operands) w = (.ok v, u) ∧
            w' = { u with expansions }) := by
  have happly : ∀ {v w'}, run fuel (.apply source (.closure id) operands) w = (.ok v, w') →
      v = g operands := fun h => hs w hsw fuel source operands _ _ h
  unfold Machine.expand at hrun
  rw [Eval.bind_run] at hrun
  simp only [Eval.ask] at hrun
  by_cases hcache : w.options.expansionCache = true
  · rw [if_pos hcache] at hrun
    rw [Eval.bind_run] at hrun
    simp only [Eval.ask] at hrun
    cases hknown : Machine.remembered? id operands w.expansions with
    | some result =>
        rw [hknown] at hrun
        cases hrun
        obtain ⟨known, halike, hv⟩ := hw.remembered hknown
        exact ⟨known, hv, halike, .inl ⟨hcache, rfl⟩⟩
    | none =>
        rw [hknown] at hrun
        obtain ⟨result, u, happlied, hrest⟩ := Eval.bind_eq_ok hrun
        cases hrest
        exact ⟨operands, happly happlied, .refl _, .inr ⟨rfl, u, _, happlied, rfl⟩⟩
  · rw [if_neg hcache] at hrun
    exact ⟨operands, happly hrun, .refl _, .inr ⟨rfl, w', w'.expansions, hrun, rfl⟩⟩

/-- A call of the macro has the value of its expansion for operands that may be
exchanged for its own: the operands themselves if expansions are not remembered, or if
the macro does not tell structurally equal operands apart.  Before the expansion is
evaluated, nothing happens if it is remembered; else the macro is applied to the
operands of the call, and at most the memory changes after that. -/
theorem Expands.macro_call (hs : s.Expands id g)
    (hfresh : ∀ e ∈ s.expansions, e.closure ≠ id) (hw : s.Leads w) {fuel : Nat}
    {frame : FrameId} {head : Value} {operands : List Value} {source : Option Span}
    {w₁ : World} (hform : Value.headForm? [head] = none)
    (hhead : (run fuel).value frame head w = (.ok (.closure id), w₁))
    (hexpander : Machine.expander? (.closure id) w₁ = (.ok (some id), w₁)) {v : Value} {w' : World}
    (hrun : (run fuel).evalList frame head operands source w = (.ok v, w')) :
    ∃ known w₂, run fuel (.eval frame (g known)) w₂ = (.ok v, w') ∧
      Interchangeable known operands ∧
      (w.options.expansionCache = true ∧ w₂ = w₁ ∨
        known = operands ∧ ∃ u expansions,
          run fuel (.apply source (.closure id) operands) w₁ = (.ok (g operands), u) ∧
            w₂ = { u with expansions }) ∧
      ((∀ xs ys, Value.sameItems xs ys = true → g xs = g ys) → g known = g operands) := by
  obtain ⟨hsw, hrecalls⟩ := hs.recalls hfresh hw
  -- The evaluation of the head keeps the memory right, and the options as they are.
  have hfollows := ((recalling s id g hs).congruence.machines fuel).value (t := true) frame head
  have hleaves := (leaving.congruence.machines fuel).value (t := true) frame head
  obtain ⟨hww₁, hkeeps⟩ := hfollows w
  have hoptions := (hleaves w).options
  rw [hhead] at hww₁ hkeeps hoptions
  have hcall : (run fuel).evalList frame head operands source w =
      ((run fuel).expand id operands source >>= (run fuel).eval frame) w₁ := by
    unfold Machine.evalList
    rw [hform]
    dsimp only
    rw [Eval.bind_of_ok hhead, Eval.bind_of_ok hexpander]
  rw [hcall] at hrun
  obtain ⟨expansion, w₂, hexpand, hvalue⟩ := Eval.bind_eq_ok hrun
  obtain ⟨known, rfl, halike, hhow⟩ :=
    hs.expansion (hsw.trans hww₁) (hkeeps hsw hrecalls) hexpand
  refine ⟨known, w₂, hvalue, halike, ?_, fun hg => halike.congr hg⟩
  rw [← hoptions]
  rcases hhow with hremembered | ⟨rfl, happlied⟩
  · exact .inl hremembered
  · exact .inr ⟨rfl, happlied⟩

end World

/-! ### A macro that expands to its operand -/

/-- The macro that expands to its only operand. -/
def Closure.identity : Closure where
  params := [.symbol "x"]
  body := [.symbol "x"]
  frame := Heap.global
  expands := true

/-- A name just defined in a frame is found there. -/
theorem Frames.lookup_define_extend (fs : Frames) (outer : FrameId) (label : String)
    (s : Symbol) (v : Value) :
    ((fs.extend outer label).define fs.size s v).lookup fs.size s = some v :=
  (fs.extend outer label).lookup_define_self s v (by simp)

/-- What the macro expands to, in every world that has it. -/
theorem run_identity {w w' : World} {id : ClosureId} {name : Option Symbol}
    (hid : w.heap.closures[id]? = some { Closure.identity with name }) {fuel : Nat}
    {source : Option Span} {operands : List Value} {v : Value}
    (hrun : run fuel (.apply source (.closure id) operands) w = (.ok v, w')) :
    v = operands.headD .nil := by
  cases fuel with
  | zero => cases hrun
  | succ fuel =>
      -- The body runs in a frame of its own, where the parameter has just been bound.
      have hbody : ∀ u : World, ∃ u' : World,
          u'.heap.frames.lookup u.heap.frames.size (.intern "x") = some (operands.headD .nil) ∧
          (run fuel).runClosure { Closure.identity with name } none operands u =
            run fuel (.eval u.heap.frames.size (.symbol "x")) u' := by
        intro u
        let entered : Frames := u.heap.frames.extend Heap.global "macro"
        let bound : Frames := entered.define u.heap.frames.size (.intern "x") (operands.headD .nil)
        refine ⟨{ u with heap := { u.heap with frames := bound } },
          u.heap.frames.lookup_define_extend Heap.global "macro" _ _, ?_⟩
        have hname : Symbol.intern "x" ≠ SpecialForm.splice.symbol := by decide
        have hparams := (run fuel).destructureSequence_bind_name u.heap.frames.size hname [] operands
        rw [Machine.destructureSequence] at hparams
        show ((run fuel).destructureSequence .bind u.heap.frames.size [.sym (.intern "x")]
            operands >>= fun _ => (run fuel).body u.heap.frames.size [.symbol "x"])
            { u with heap := { u.heap with frames := entered } } = _
        rw [hparams]
        rfl
      rw [run_apply_succ] at hrun
      obtain ⟨next, u, hstep, hnext⟩ := Eval.bind_eq_ok hrun
      have hcall : (run fuel).callClosure source id none operands w = (.ok next, u) := hstep
      unfold Machine.callClosure Eval.inCall Eval.onFailure at hcall
      simp only [hid] at hcall
      let call : Call := ⟨({ Closure.identity with name } : Closure).displayName, source⟩
      obtain ⟨u', hlookup, hrunBody⟩ := hbody { w with calls := call :: w.calls }
      rw [hrunBody] at hcall
      cases fuel with
      | zero => cases hcall
      | succ fuel =>
          have hvalue : run (fuel + 1) (.eval w.heap.frames.size (.symbol "x")) u' =
              (.ok (operands.headD .nil), u') := by
            unfold Value.symbol
            rw [run_eval_sym, hlookup]
            rfl
          rw [hvalue] at hcall
          cases hcall
          cases hnext
          rfl

namespace World

/-- A world with that macro. -/
def withIdentity : World where
  heap := { closures := #[Closure.identity] }

/-- The same world after a call of the macro on an empty list, read somewhere. -/
def afterCall : World :=
  (run 5 (.eval Heap.global (.ofList [.closure 0, .list [] (some ⟨"f", "()", 0, 2⟩)]))
    withIdentity).2

theorem withIdentity_expands : withIdentity.Expands 0 (·.headD .nil) := by
  intro w hw fuel source operands v w' hrun
  have hexpander : withIdentity.heap.closures[0]? = some Closure.identity := rfl
  obtain ⟨name, hname⟩ := hw.closure hexpander
  exact run_identity hname hrun

/-- A second call, on an empty list that was not read anywhere, has the value that is
remembered for the first one, span and all, and the macro is not applied again. -/
theorem Expands.macro_call_identity :
    ∃ w' known,
      (run 5).evalList Heap.global (.closure 0) [.ofList []] none afterCall =
        (.ok (.list [] (some ⟨"f", "()", 0, 2⟩)), w') ∧
      run 5 (.eval Heap.global (known.headD .nil)) afterCall =
        (.ok (.list [] (some ⟨"f", "()", 0, 2⟩)), w') ∧
      Interchangeable known [.ofList []] := by
  have hleads : withIdentity.Leads afterCall := .request 5 _ .refl (Nat.zero_le _)
  have hexpander : Machine.expander? (.closure 0) afterCall = (.ok (some 0), afterCall) := by
    have hexpands : (afterCall.heap.closures[0]?.map (·.expands)).getD false = true := by
      with_unfolding_all rfl
    unfold Machine.expander? Eval.ask
    simp only [hexpands, if_true]
  have hvalue : ((run 5).evalList Heap.global (.closure 0) [.ofList []] none afterCall).1 =
      .ok (.list [] (some ⟨"f", "()", 0, 2⟩)) := by with_unfolding_all rfl
  have hrun : (run 5).evalList Heap.global (.closure 0) [.ofList []] none afterCall =
      (.ok (.list [] (some ⟨"f", "()", 0, 2⟩)),
        ((run 5).evalList Heap.global (.closure 0) [.ofList []] none afterCall).2) :=
    Prod.ext hvalue rfl
  obtain ⟨known, w₂, hknown, halike, hhow, -⟩ :=
    withIdentity_expands.macro_call (fun _ he => nomatch he) hleads rfl rfl hexpander hrun
  rcases hhow with ⟨-, rfl⟩ | ⟨rfl, -⟩
  · exact ⟨_, known, hrun, hknown, halike⟩
  · -- The operands of the call themselves have no span to give.
    have hplain : run 5 (.eval Heap.global (.ofList [])) w₂ = (.ok (.ofList []), w₂) := rfl
    cases hplain.symm.trans hknown

end World

end Lisp
