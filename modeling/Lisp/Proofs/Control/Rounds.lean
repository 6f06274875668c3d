import Lisp.Interpreter
import Lisp.Proofs.Control.Undisturbed

/-!
# What a call of a control macro amounts to

A call is evaluated by way of its expansion: a test of the first operand, and a call of the
same macro on the rest.  What a call amounts to is therefore split along the forms of the
expansion (`AmountsTo.cases_macro`, `AmountsTo.cases_if`, `AmountsTo.cases_let`), and what is
found there is read as one round of the call and the turn that it takes
(`ControlMacro.Ready.enters`).

The main statement is that calls mean what they are meant to mean
(`ControlMacro.Undisturbed.call_means`), by induction on the number of operands: a round
that goes on leaves a call with fewer of them, and what held along the way holds of that
call again (`ControlMacro.Along`).  No operand is looked at twice, and nothing is assumed
about what operands do to the rest of the world, as long as the macro is still found.

The forms around a turn, `if` and `let` and those of earlier rounds, change nothing of what
it amounts to but the context of a failure and the depth, which is all that
`Answer.Arrives` and `World.atDepth` are about (`ControlMacro.Means.leave`).
-/

namespace Lisp

/-! ### The outcomes of forms that an expansion consists of -/

theorem Steady.callWith (frame : FrameId) (operands : List Value) (source : Option Span)
    (callee : Value) : Steady fun m => m.callWith frame operands source callee := by
  refine .bind (.const _) fun found => ?_
  cases found with
  | some id => exact .bind (.expand id operands source) fun form => .eval frame form
  | none => exact .bind (.operands frame operands) fun args => .apply source callee args

namespace AmountsTo

variable {w w' u : World} {a : Answer Value} {frame : FrameId}

/-- A macro call amounts to what its expansion amounts to. -/
theorem cases_macro {s : Symbol} {id : ClosureId} {operands : List Value} {form : Value}
    {source : Option Span} (isCall : Value.headForm? [.sym s] = none)
    (hhead : w.heap.frames.lookup frame s = some (.closure id))
    (hexpander : TakesTo (fun _ => Machine.expander? (.closure id)) w (some id) w)
    (hexpand : TakesTo (fun m => m.expand id operands source) w form u)
    (h : AmountsTo (fun m => m.eval frame (.list (.sym s :: operands) source)) w a w') :
    a.IsTooDeep ∨ ∃ b u' depth,
      AmountsTo (fun m => m.eval frame form) (u.under w.calls (w.depth + 1)) b u' ∧
        b.Arrives a ∧ w' = u'.atDepth depth := by
  have hstep := h.cases_eval.congr fun m => m.evalStep_call frame operands source isCall
  rcases hstep.cases_form with hdeep | ⟨b, u', depth, hinside, harrives, rfl⟩
  · exact .inl hdeep
  have hname := (TakesTo.name hhead).value w.calls (w.depth + 1)
  rcases hinside.cases_settles_bind (.value frame (.sym s))
    (fun callee => .callWith frame operands source callee) hname with hdeep | hcalled
  · exact .inl (harrives.isTooDeep hdeep)
  have hrest : ∀ found, Steady fun m => match found with
      | some id => m.expand id operands source >>= fun form => m.eval frame form
      | none => m.operands frame operands >>= fun args => m (.apply source (.closure id) args) := by
    intro found
    cases found with
    | some id => exact .bind (.expand id operands source) fun form => .eval frame form
    | none => exact .bind (.operands frame operands) fun args => .apply source _ args
  rcases hcalled.cases_settles_bind (.const _) hrest (hexpander w.calls (w.depth + 1))
    with hdeep | hexpanded
  · exact .inl (harrives.isTooDeep hdeep)
  rcases hexpanded.cases_settles_bind (.expand id operands source) (fun form => .eval frame form)
    (hexpand w.calls (w.depth + 1)) with hdeep | hform
  · exact .inl (harrives.isTooDeep hdeep)
  · exact .inr ⟨b, u', depth, hform, harrives, rfl⟩

/-- Form `if` amounts to what its test amounts to and then the branch that it selects. -/
theorem cases_if {test yes no : Value} {source : Option Span}
    (h : AmountsTo (fun m => m.eval frame (.named "if" [test, yes, no] source)) w a w') :
    a.IsTooDeep ∨ ∃ b u depth,
      AmountsTo (fun m => m.value frame test >>= fun v => m.toBool v >>= fun chosen =>
        m.eval frame (if chosen then yes else no)) (w.atDepth (w.depth + 1)) b u ∧
          b.Arrives a ∧ w' = u.atDepth depth := by
  have hstep := h.cases_eval.congr fun m =>
    m.evalStep_special frame .branch [test, yes, no] source
  rcases hstep.cases_form with hdeep | ⟨b, u, depth, hinside, harrives, rfl⟩
  · exact .inl hdeep
  · exact .inr ⟨b, u, depth, hinside.congr fun m => m.special_if frame test yes no, harrives, rfl⟩

/-- Form `let` amounts to what its binding amounts to and then its body. -/
theorem cases_let {s : Symbol} {form body : Value} {pairs source : Option Span}
    (hs : s ≠ SpecialForm.splice.symbol)
    (h : AmountsTo (fun m => m.eval frame
      (.named "let" [.list [.sym s, form] pairs, body] source)) w a w') :
    a.IsTooDeep ∨ ∃ b u depth,
      AmountsTo (fun m => m.value w.heap.frames.size form >>= fun v =>
        Eval.define w.heap.frames.size s v >>= fun _ => m.eval w.heap.frames.size body)
          ((w.opened frame "let").atDepth (w.depth + 1)) b u ∧
            b.Arrives a ∧ w' = u.atDepth depth := by
  have hstep := h.cases_eval.congr fun m =>
    m.evalStep_special frame .binding [.list [.sym s, form] pairs, body] source
  rcases hstep.cases_form with hdeep | ⟨b, u, depth, hinside, harrives, rfl⟩
  · exact .inl hdeep
  have hbody : AmountsTo (fun m => Eval.extend frame "let" >>= fun inner =>
      m.value inner form >>= fun v => Eval.define inner s v >>= fun _ => m.eval inner body)
        (w.atDepth (w.depth + 1)) b u := by
    refine hinside.congr fun m => (m.special_let frame (.sym s) form body pairs).trans ?_
    simp only [m.destructure_name .bind _ hs, bind_assoc, pure_bind]
  have hsteady : ∀ inner, Steady fun m => m.value inner form >>= fun v =>
      Eval.define inner s v >>= fun _ => m.eval inner body := fun inner =>
    .bind (.value inner form) fun v => .bind (.const _) fun _ => .eval inner body
  have hframe : Settles (fun _ => Eval.extend frame "let") (w.atDepth (w.depth + 1))
      w.heap.frames.size ((w.opened frame "let").atDepth (w.depth + 1)) :=
    .of_run fun _ => rfl
  rcases hbody.cases_settles_bind (.const _) hsteady hframe with hdeep | hrest
  · exact .inl (harrives.isTooDeep hdeep)
  · exact .inr ⟨b, u, depth, hrest, harrives, rfl⟩

end AmountsTo

/-! ### The next round -/

namespace ControlMacro

variable {c : ControlMacro} {home frame inner : FrameId} {operands : List Value}
  {w u u' w' : World} {a b : Answer Value}

theorem Quiet.under {calls : List Call} {depth : Nat} (h : c.Quiet w u) (hcalls : calls = w.calls) :
    c.Quiet w (u.under calls depth) where
  frames := h.frames
  serials := h.serials
  expansions := h.expansions
  rest := by
    obtain ⟨_, _, _, _, rfl⟩ := h.rest
    subst hcalls
    exact ⟨_, _, _, _, rfl⟩

/-- A round of a call, and the outcome of the turn that it takes: that of the form that the
turn is written as.  A call that goes on has fewer operands. -/
inductive Enters (c : ControlMacro) (home frame : FrameId) (operands : List Value) (w : World) :
    Answer Value → World → Prop
  | turned {inner : FrameId} {turn : Turn} {v form : Value} {hidden : Option Symbol}
      {u u' : World} {a b : Answer Value}
      (hround : c.Round home frame operands w inner (.ok (turn, v)) u)
      (halong : c.Along home inner turn.forms u) (hwritten : turn.Written c hidden form)
      (hheld : ∀ s, hidden = some s → u.heap.frames.lookup inner s = some v)
      (hless : ∀ rest, turn = .again rest → rest.length < operands.length)
      (hform : AmountsTo (fun m => m.eval inner form) u a u') (harrives : a.Arrives b)
      (depth : Nat) : Enters c home frame operands w b (u'.atDepth depth)
  | broken {inner : FrameId} {u : World} {a : Answer (Turn × Value)} {b : Answer Value}
      (hround : c.Round home frame operands w inner a u) (hbreaks : a.Breaks b) (depth : Nat) :
      Enters c home frame operands w b (u.atDepth depth)

/-- What is around the form that a call has come to changes at most the context of a
failure, and the depth. -/
theorem Enters.leave (h : c.Enters home frame operands w a w') (harrives : a.Arrives b)
    (depth : Nat) : c.Enters home frame operands w b (w'.atDepth depth) := by
  cases h with
  | turned hround halong hwritten hheld hless hform harrives' _ =>
      exact .turned hround halong hwritten hheld hless hform (harrives'.trans harrives) depth
  | broken hround hbreaks _ => exact .broken hround (hbreaks.arrives harrives) depth

theorem length_lt_of_turns {known : List Value} {turn : Turn} (hknown : w.Stands known operands)
    (hturn : turn ∈ (c.plan known).turns) (rest : List Value) (hagain : turn = .again rest) :
    rest.length < operands.length := by
  subst hagain
  rw [← hknown.length_eq]
  exact (leftOf_of_turns hturn).2

/-- The condition of a call breaks the round off, or its truth decides the turn. -/
theorem Along.enters (h : c.Along home frame operands w) (hframe : frame < w.heap.frames.size)
    {condition yes no : Value} {onYes onNo : Turn} {hidden : Option Symbol}
    (hyes : onYes.Written c hidden yes) (hno : onNo.Written c hidden no)
    (hopens : c.Opens frame operands w condition onYes onNo hidden inner u)
    {v : Value} {u₁ u₂ : World}
    (hvalue : ComesTo (fun m => m.value inner condition) u (.ok v) u₁)
    (hapart : ∀ s, hidden = some s → u₁.heap.frames.get? inner = u.heap.frames.get? inner)
    (hholds : u₁.Holds inner hidden v u₂)
    (hrun : AmountsTo (fun m => m.toBool v >>= fun chosen =>
      m.eval inner (if chosen then yes else no)) u₂ a w') :
    c.Enters home frame operands w a w' := by
  have hsees := h.seesAlike hframe hopens
  have hsteady : ∀ chosen : Bool, Steady fun m => m.eval inner (if chosen then yes else no) :=
    fun _ => .eval inner _
  rcases hrun.cases_bind (.toBool v) hsteady with ⟨a₁, ha₁, hbreaks⟩ | ⟨truth, u₃, htruth, hform⟩
  · obtain ⟨b₁, hfirst, hsecond⟩ := hbreaks.through (γ := Turn × Value)
    exact .broken (.undecided hopens hsees hvalue hholds ha₁ hfirst) hsecond w'.depth
  · have hround := Round.decided hopens hsees hvalue hholds htruth
    obtain ⟨halong, hheld⟩ := h.decided hframe hopens hvalue hapart hholds htruth
    obtain ⟨known, hknown, -, -, hturns⟩ := hopens.exists_plan
    cases truth with
    | true =>
        exact .turned hround halong hyes hheld (length_lt_of_turns hknown hturns.1) hform (.refl a)
          w'.depth
    | false =>
        exact .turned hround halong hno hheld (length_lt_of_turns hknown hturns.2) hform (.refl a)
          w'.depth

/-- A condition that breaks off breaks the round off. -/
theorem Along.enters_broken (h : c.Along home frame operands w)
    (hframe : frame < w.heap.frames.size) {condition : Value} {onYes onNo : Turn}
    {hidden : Option Symbol} (hopens : c.Opens frame operands w condition onYes onNo hidden inner u)
    (hvalue : AmountsTo (fun m => m.value inner condition) u b w') (hbreaks : b.Breaks a) :
    c.Enters home frame operands w a w' := by
  obtain ⟨b₁, hfirst, hsecond⟩ := hbreaks.through (γ := Turn × Value)
  exact .broken (.unvalued hopens (h.seesAlike hframe hopens) hvalue hfirst) hsecond w'.depth

section

variable {f yes no : Value} {onYes onNo : Turn} {source : Option Span}

/-- An expansion that tests a condition. -/
theorem Along.enters_test (h : c.Along home frame operands w) (hframe : frame < w.heap.frames.size)
    (hyes : onYes.Written c none yes) (hno : onNo.Written c none no)
    (hopens : c.Opens frame operands w f onYes onNo none frame (u.atDepth (u.depth + 1)))
    (hrun : AmountsTo (fun m => m.eval frame (.named "if" [f, yes, no] source)) u a w') :
    a.IsTooDeep ∨ c.Enters home frame operands w a w' := by
  rcases hrun.cases_if with hdeep | ⟨b, u', depth, hinside, harrives, rfl⟩
  · exact .inl hdeep
  have hsteady : ∀ v, Steady fun m => m.toBool v >>= fun chosen =>
      m.eval frame (if chosen then yes else no) := fun v =>
    .bind (.toBool v) fun chosen => .eval frame _
  rcases hinside.cases_bind (.value frame f) hsteady with
    ⟨a₁, ha₁, hbreaks⟩ | ⟨v, u₁, hvalue, hrest⟩
  · exact .inr ((h.enters_broken hframe hopens ha₁ hbreaks).leave harrives depth)
  · have hholds : u₁.Holds frame none v u₁ := ⟨u₁.depth, rfl⟩
    exact .inr ((h.enters hframe hyes hno hopens hvalue nofun hholds hrest).leave harrives depth)

/-- An expansion that holds the value of its condition: what it does once there is a value. -/
theorem Along.enters_held (h : c.Along home frame operands w) (hframe : frame < w.heap.frames.size)
    {s : Symbol} (hyes : onYes.Written c (some s) yes) (hno : onNo.Written c (some s) no)
    (hopens : c.Opens frame operands w f onYes onNo (some s) inner u) {v : Value} {u₁ : World}
    (hvalue : ComesTo (fun m => m.value inner f) u (.ok v) u₁)
    (hinner : inner < u₁.heap.frames.size)
    (hkept : u₁.heap.frames.get? inner = u.heap.frames.get? inner)
    (hrun : AmountsTo (fun m => Eval.define inner s v >>= fun _ =>
      m.eval inner (.named "if" [.sym s, yes, no] source)) u₁ a w') :
    a.IsTooDeep ∨ c.Enters home frame operands w a w' := by
  have hdefine : Settles (fun _ => Eval.define inner s v) u₁ () (u₁.bound inner s v) :=
    .of_run fun _ => rfl
  rcases hrun.cases_settles_bind (.const _) (fun _ => .eval inner _) hdefine with hdeep | hif
  · exact .inl hdeep
  rcases hif.cases_if with hdeep | ⟨b, u₂, depth, htested, harrives, rfl⟩
  · exact .inl hdeep
  -- The test is the symbol that the value has just been bound to.
  have hlookup : (u₁.bound inner s v).heap.frames.lookup inner s = some v :=
    u₁.heap.frames.lookup_define_self s v hinner
  have hname := (TakesTo.name hlookup).value u₁.calls (u₁.depth + 1)
  have hsteady : ∀ v, Steady fun m => m.toBool v >>= fun chosen =>
      m.eval inner (if chosen then yes else no) := fun v =>
    .bind (.toBool v) fun chosen => .eval inner _
  rcases htested.cases_settles_bind (.value inner (.sym s)) hsteady hname with hdeep | hdecided
  · exact .inl (harrives.isTooDeep hdeep)
  · have hholds : u₁.Holds inner (some s) v ((u₁.bound inner s v).atDepth (u₁.depth + 1)) :=
      ⟨u₁.depth + 1, rfl⟩
    exact .inr ((h.enters hframe hyes hno hopens hvalue (fun _ _ => hkept) hholds
      hdecided).leave harrives depth)

/-- An expansion that holds the value of its condition. -/
theorem Along.enters_hold (h : c.Along home frame operands w) (hframe : frame < w.heap.frames.size)
    {s : Symbol} (hs : s ≠ SpecialForm.splice.symbol) (hyes : onYes.Written c (some s) yes)
    (hno : onNo.Written c (some s) no)
    (hopens : c.Opens frame operands w f onYes onNo (some s) u.heap.frames.size
      ((u.opened frame "let").atDepth (u.depth + 1)))
    (hapart : ∀ v u', ComesTo (fun m => m.value u.heap.frames.size f)
      ((u.opened frame "let").atDepth (u.depth + 1)) (.ok v) u' →
        u'.heap.frames.get? u.heap.frames.size =
          (u.opened frame "let").heap.frames.get? u.heap.frames.size)
    {pair branch : Option Span}
    (hrun : AmountsTo (fun m => m.eval frame (.named "let"
      [.list [.sym s, f] pair, .named "if" [.sym s, yes, no] branch] source)) u a w') :
    a.IsTooDeep ∨ c.Enters home frame operands w a w' := by
  rcases hrun.cases_let hs with hdeep | ⟨b, u', depth, hinside, harrives, rfl⟩
  · exact .inl hdeep
  let inner := u.heap.frames.size
  have hsteady : ∀ v, Steady fun m => Eval.define inner s v >>= fun _ =>
      m.eval inner (.named "if" [.sym s, yes, no] branch) := fun v =>
    .bind (.const _) fun _ => .eval inner _
  rcases hinside.cases_bind (.value inner f) hsteady with
    ⟨a₁, ha₁, hbreaks⟩ | ⟨v, u₁, hvalue, hrest⟩
  · exact .inr ((h.enters_broken hframe hopens ha₁ hbreaks).leave harrives depth)
  have hkept := hapart v u₁ hvalue
  have hinner : inner < u₁.heap.frames.size :=
    Frames.lt_size_of_get? (hkept.trans (u.heap.frames.get?_extend_size frame "let"))
  rcases h.enters_held hframe hyes hno hopens hvalue hinner hkept hrest with hdeep | henters
  · exact .inl (harrives.isTooDeep hdeep)
  · exact .inr (henters.leave harrives depth)

end

/-- What a call expands to takes a turn or breaks off, unless a form is nested too deep. -/
theorem Expands.enters {known : List Value} {form : Value} (hexpands : c.Expands known form)
    (h : c.Along home frame operands w) (hframe : frame < w.heap.frames.size)
    (hknown : w.Stands known operands) (hquiet : c.Quiet w u)
    (hapart : ∀ condition yes no s inner u v u',
      c.Opens frame operands w condition yes no (some s) inner u →
        ComesTo (fun m => m.value inner condition) u (.ok v) u' →
          u'.heap.frames.get? inner = u.heap.frames.get? inner)
    (hrun : AmountsTo (fun m => m.eval frame form) u a w') :
    a.IsTooDeep ∨ c.Enters home frame operands w a w' := by
  cases hexpands with
  | @done turn _ hplan hwritten =>
      have hturn : turn ∈ (c.plan known).turns := by
        rw [hplan]
        exact List.mem_singleton_self turn
      exact .inr (.turned (.done hknown hplan hquiet) (h.done hknown hturn hquiet) hwritten nofun
        (length_lt_of_turns hknown hturn) hrun (.refl a) w'.depth)
  | @test f yes no onYes onNo hplan hyes hno _ =>
      have hopens : c.Opens frame operands w f onYes onNo none frame (u.atDepth (u.depth + 1)) :=
        .test hknown hplan (hquiet.trans (.atDepth u _))
      exact h.enters_test hframe hyes hno hopens hrun
  | @hold f yes no onYes onNo s hplan hs hhidden hyes hno pair branch _ =>
      have hplain : s ≠ SpecialForm.splice.symbol := by
        rintro rfl
        cases hs
      have hopened : c.Quiet u (u.opened frame "let") :=
        .of_tables ((Frames.Within.refl _).extend frame "let") (Nat.le_refl _)
      have hopens : c.Opens frame operands w f onYes onNo (some s) u.heap.frames.size
          ((u.opened frame "let").atDepth (u.depth + 1)) :=
        .hold hknown hplan ((hquiet.trans hopened).trans (.atDepth _ _)) hquiet.frames.size_le
          (u.heap.frames.get?_extend_size frame "let") hs
          ((hknown.anyMentions_eq s).symm.trans hhidden)
      exact h.enters_hold hframe hplain hyes hno hopens
        (fun v u' => hapart f onYes onNo s _ _ v u' hopens) hrun

/-- A call takes a turn or breaks off, unless a form is nested too deep. -/
theorem Ready.enters (hready : c.Ready frame w) (h : c.Along home frame operands w)
    (hapart : ∀ condition yes no s inner u v u',
      c.Opens frame operands w condition yes no (some s) inner u →
        ComesTo (fun m => m.value inner condition) u (.ok v) u' →
          u'.heap.frames.get? inner = u.heap.frames.get? inner)
    {source : Option Span}
    (hrun : AmountsTo (fun m => m.eval frame (.list (.sym c.symbol :: operands) source)) w a w') :
    a.IsTooDeep ∨ c.Enters home frame operands w a w' := by
  have isCall : Value.headForm? [.sym c.symbol] = none := by cases c <;> rfl
  obtain ⟨id, known, form, left, hsees, hexpander, hexpand, hknown, hexpands, hleft⟩ :=
    hready.expansion h.made source
  have hframe : frame < w.heap.frames.size := Frames.lt_size_of_lookup hsees
  rcases hrun.cases_macro isCall hsees hexpander hexpand with
    hdeep | ⟨b, w₁, depth, hform, harrives, rfl⟩
  · exact .inl hdeep
  have hquiet : c.Quiet w (left.under w.calls (w.depth + 1)) := hleft.under rfl
  rcases hexpands.enters h hframe hknown hquiet hapart hform with hdeep | henters
  · exact .inl (harrives.isTooDeep hdeep)
  · exact .inr (henters.leave harrives depth)

/-! ### All rounds -/

/-- What is left of a call means what is meant by what it comes to. -/
theorem Means.leave {turn : Turn} {held : Value} (h : c.Means home frame turn held w a w')
    (harrives : a.Arrives b) (depth : Nat) :
    c.Means home frame turn held w b (w'.atDepth depth) := by
  induction h generalizing b with
  | constant v held w _ =>
      cases harrives with
      | ok _ => exact .constant v held w depth
      | broken hbreaks => nomatch hbreaks
  | held v w _ =>
      cases harrives with
      | ok _ => exact .held v w depth
      | broken hbreaks => nomatch hbreaks
  | form hsees hform harrives' _ => exact .form hsees hform (harrives'.trans harrives) depth
  | again hround _ ih => exact .again hround (ih harrives)
  | broken hround hbreaks _ => exact .broken hround (hbreaks.arrives harrives) depth

/-- A turn means what the form that it is written as amounts to, if that is so of calls that
go on. -/
theorem Along.turn_means {turn : Turn} {v form : Value} {hidden : Option Symbol}
    (h : c.Along home inner turn.forms u) (hwritten : turn.Written c hidden form)
    (hheld : ∀ s, hidden = some s → u.heap.frames.lookup inner s = some v)
    (hagain : ∀ rest source, turn = .again rest →
      AmountsTo (fun m => m.eval inner (.list (.sym c.symbol :: rest) source)) u a w' →
        a.IsTooDeep ∨ c.Means home inner turn v u a w')
    (hrun : AmountsTo (fun m => m.eval inner form) u a w') :
    a.IsTooDeep ∨ c.Means home inner turn v u a w' := by
  cases hwritten with
  | @constant form hv =>
      have hself : TakesTo (fun m => m.eval inner form) u form u := .constant fun m => hv m inner
      rcases hrun.cases_settles (.eval inner form) (hself u.calls u.depth) with
        hdeep | ⟨rfl, rfl⟩
      · exact .inl hdeep
      · exact .inr (.constant form v u u.depth)
  | @held s hs =>
      have hname : TakesTo (fun m => m.eval inner (.sym s)) u v u := .name (hheld s hs)
      rcases hrun.cases_settles (.eval inner (.sym s)) (hname u.calls u.depth) with
        hdeep | ⟨rfl, rfl⟩
      · exact .inl hdeep
      · exact .inr (.held v u u.depth)
  | form f => exact .inr (.form (fun s hs => h.inside.lookup_eq hs) hrun (.refl a) w'.depth)
  | again rest source => exact hagain rest source rfl hrun

/-- **The control macros mean what they are meant to mean.**  What a call amounts to is what
its rounds come to, one after another, unless a form is nested too deep: conditions are
evaluated from left to right, each of them once, up to the one that decides, and with the
variables of the frame of the call. -/
theorem Undisturbed.call_means (h : c.Undisturbed home operands w) {source : Option Span}
    (hrun : AmountsTo (fun m => m.eval home (.list (.sym c.symbol :: operands) source)) w a w')
    (hdeep : ¬ a.IsTooDeep) : c.Means home home (.again operands) .nil w a w' := by
  -- By induction on the number of operands that are left.
  have hmeans : ∀ n here frame u source held a w', here.length = n →
      c.Reaches home operands w frame here u → c.Along home frame here u →
        AmountsTo (fun m => m.eval frame (.list (.sym c.symbol :: here) source)) u a w' →
          a.IsTooDeep ∨ c.Means home frame (.again here) held u a w' := by
    intro n
    induction n using Nat.strongRecOn with
    | ind n ih =>
        intro here frame u source held a w' hlength hreaches halong hrun
        have hready := h.ready frame here u hreaches
        have hapart := fun condition yes no s inner u₁ v u₂ =>
          h.apart frame here u condition yes no s inner u₁ v u₂ hreaches
        rcases hready.enters halong hapart hrun with hlimit | henters
        · exact .inl hlimit
        cases henters with
        | broken hround hbreaks depth => exact .inr (.broken hround hbreaks depth)
        | @turned inner turn v form hidden u₁ u₂ a₁ _ hround halong' hwritten hheld hless hform
            harrives depth =>
            have hagain : ∀ rest source, turn = .again rest →
                AmountsTo (fun m => m.eval inner (.list (.sym c.symbol :: rest) source))
                  u₁ a₁ u₂ → a₁.IsTooDeep ∨ c.Means home inner turn v u₁ a₁ u₂ := by
              rintro rest source rfl hrest
              exact ih rest.length (hlength ▸ hless rest rfl) rest inner u₁ source v a₁ u₂ rfl
                (hreaches.next hround) halong' hrest
            rcases halong'.turn_means hwritten hheld hagain hform with hlimit | hmeans
            · exact .inl (harrives.isTooDeep hlimit)
            · exact .inr (.again hround (hmeans.leave harrives depth))
  have hstart : c.Along home home operands w := ⟨.home, fun _ => rfl, h.made⟩
  rcases hmeans _ operands home w source .nil a w' rfl .start hstart hrun with hlimit | hmeans
  · exact absurd hlimit hdeep
  · exact hmeans

/-! ### Calls on truth values -/

/-- A truth value comes to itself. -/
theorem eq_of_bool_comesTo {b : Bool} {v : Value}
    (h : ComesTo (fun m => m.value frame (.bool b)) u (.ok v) u') : v = .bool b ∧ u' = u := by
  have hself : TakesTo (fun m => m.eval frame (.bool b)) u (.bool b) u := .constant fun _ => rfl
  rcases (AmountsTo.ends h).cases_settles (.value frame _) (hself.value u.calls u.depth) with
    hdeep | ⟨hv, hu⟩
  · exact hdeep.elim
  · exact ⟨Answer.ok.inj hv, hu⟩

/-- A truth value does no harm. -/
theorem harmless_bool (c : ControlMacro) (b : Bool) : c.Harmless (.bool b) where
  value frame u v u' hready hvalue := by
    obtain ⟨-, rfl⟩ := eq_of_bool_comesTo hvalue
    exact ⟨hready, rfl⟩
  truth frame u v u' t truth t' hvalue hready htruth := by
    obtain ⟨rfl, -⟩ := eq_of_bool_comesTo hvalue
    obtain ⟨-, n, hrun⟩ := htruth
    cases hrun
    exact hready

/-- Structural equality does not confuse truth values with anything else. -/
theorem isBool_congr (a b : Value) (h : a.same b = true) :
    (∃ truth, a = .bool truth) ↔ ∃ truth, b = .bool truth := by
  cases a <;> cases b <;> simp_all [Value.same]

/-- A world with the core definitions and the macro. -/
def world (c : ControlMacro) : World where
  heap :=
    { Heap.core with
      frames := Heap.core.frames.define Heap.global c.symbol (.closure 0)
      closures := #[{ params := c.params fun _ => none, body := [c.body fun _ => none],
                      frame := Heap.global, expands := true, name := some c.symbol }] }

set_option maxRecDepth 4000 in
theorem ready_world (c : ControlMacro) : c.Ready Heap.global c.world where
  offers :=
    { names := by
        have hnames : ∀ entry ∈ vocabulary, c.world.Sees Heap.global entry.1 entry.2 := by
          simp only [vocabulary, List.forall_mem_cons]
          cases c <;> refine ⟨?_, ?_, ?_, ?_, ?_, List.forall_mem_nil _⟩ <;> with_unfolding_all rfl
        exact hnames
      isEmpty := ⟨_, rfl, rfl, rfl⟩
      first := ⟨_, rfl, rfl, rfl⟩
      rest := ⟨_, rfl, rfl, rfl⟩
      equals := fun _ => ⟨_, rfl, rfl, rfl⟩ }
  found := by
    have hrecalls : c.Recalls 0 c.world := List.forall_mem_nil _
    refine ⟨0, _, ?_, rfl, ⟨fun _ => none, some c.symbol, rfl⟩, hrecalls⟩
    cases c <;> with_unfolding_all rfl

/-- The truth of an answer that is a truth value. -/
def truth? : Answer Value → Option Bool
  | .ok (.bool truth) => some truth
  | _ => none

theorem eq_of_truth? {answer : Answer Value} {truth : Bool} (h : truth? answer = some truth) :
    answer = .ok (.bool truth) := by
  unfold truth? at h
  split at h
  · cases h
    rfl
  · cases h

/-- `(or false true)` is true, in two rounds. -/
theorem Undisturbed.call_means_or : ∃ w',
    AmountsTo (fun m => m.eval Heap.global
      (.list [.sym disjunction.symbol, .bool false, .bool true] none)) disjunction.world
        (.ok (.bool true)) w' ∧
      disjunction.Means Heap.global Heap.global (.again [.bool false, .bool true]) .nil
        disjunction.world (.ok (.bool true)) w' := by
  let call : Value := .list [.sym disjunction.symbol, .bool false, .bool true] none
  have htruth : truth? ((run 40).eval Heap.global call disjunction.world).1 = some true := by
    decide +kernel
  have hundisturbed : disjunction.Undisturbed Heap.global [.bool false, .bool true]
      disjunction.world :=
    undisturbed_of_harmless isBool_congr (fun f ⟨b, hf⟩ => hf ▸ disjunction.harmless_bool b)
      disjunction.ready_world nofun (by simp)
  rcases hrun : (run 40).eval Heap.global call disjunction.world with ⟨answer, w'⟩
  rw [hrun] at htruth
  obtain rfl := eq_of_truth? htruth
  have hamounts : AmountsTo (fun m => m.eval Heap.global call) disjunction.world
      (.ok (.bool true)) w' := .ends ⟨by simp, 40, hrun⟩
  exact ⟨w', hamounts, hundisturbed.call_means hamounts nofun⟩

end ControlMacro

end Lisp
