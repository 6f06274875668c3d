import Lisp.Proofs.Congruence.Run

/-!
# Forms with marked tail calls

A `TailForm` is a form in which calls in tail position are marked: the last form of
a `do` or a `let`, the branches of an `if` and the results of a `match` may hold such
calls, at any depth.  It is written out in two ways that differ in the marks only,
with the calls as they are or with each of them inside a `recur`.

* The evaluation of a form that has other forms in its tail positions is a
  **step** to one of these (`TailForm.step`), which does not depend on how the marks
  are written, and then the evaluation of that form (`TailForm.evalStep_write`).
* `TailForm.Reaches` says which value the head of a marked call has when the
  evaluation gets to one.
-/

namespace Lisp

/-- The form that a special form is written as. -/
def SpecialForm.write (form : SpecialForm) (ops : List Value) (source : Option Span) : Value :=
  .list (.sym form.symbol :: ops) source

/-- A form with calls marked in its tail positions. -/
inductive TailForm where
  /-- A form without marks. -/
  | other (form : Value)
  /-- A marked call, which was read at `source`; a `recur` around it at `place`. -/
  | call (head : Value) (operands : List Value) (source place : Option Span)
      (isCall : Value.headForm? [head] = none)
  | sequence (forms : List Value) (last : TailForm) (source : Option Span)
  | binding (bindings : Value) (forms : List Value) (last : TailForm) (source : Option Span)
  | branch (test : Value) (branches : List TailForm) (source : Option Span)
  | selection (subject : Value) (clauses : List (Value × TailForm)) (source : Option Span)

namespace TailForm

mutual

/-- The form with its marked calls inside a `recur`, or as they are. -/
def write (recurs : Bool) : TailForm → Value
  | .other form => form
  | .call head operands source place _ =>
    if recurs then SpecialForm.recurring.write [.list (head :: operands) source] place
    else .list (head :: operands) source
  | .sequence forms last source => SpecialForm.sequence.write (forms ++ [last.write recurs]) source
  | .binding bindings forms last source =>
    SpecialForm.binding.write (bindings :: (forms ++ [last.write recurs])) source
  | .branch test branches source =>
    SpecialForm.branch.write (test :: writeAll recurs branches) source
  | .selection subject clauses source =>
    SpecialForm.selection.write (subject :: writeClauses recurs clauses) source

/-- The branches of an `if`. -/
def writeAll (recurs : Bool) : List TailForm → List Value
  | [] => []
  | form :: rest => form.write recurs :: writeAll recurs rest

/-- The clauses of a `match`. -/
def writeClauses (recurs : Bool) : List (Value × TailForm) → List Value
  | [] => []
  | (pattern, result) :: rest => pattern :: result.write recurs :: writeClauses recurs rest

end

/-- Where the form was read. -/
def source : TailForm → Option Span
  | .other _ => none
  | .call _ _ source _ _ => source
  | .sequence _ _ source => source
  | .binding _ _ _ source => source
  | .branch _ _ source => source
  | .selection _ _ source => source

/-- The value of the form is that of another form in it. -/
def isOpen : TailForm → Bool
  | .other _ | .call .. => false
  | _ => true

theorem writeAll_eq_map (recurs : Bool) (branches : List TailForm) :
    writeAll recurs branches = branches.map (·.write recurs) := by
  induction branches with
  | nil => rfl
  | cons form rest ih => rw [writeAll, List.map_cons, ih]

theorem length_writeClauses (recurs : Bool) (clauses : List (Value × TailForm)) :
    (writeClauses recurs clauses).length = 2 * clauses.length := by
  induction clauses with
  | nil => rfl
  | cons clause rest ih =>
      obtain ⟨pattern, result⟩ := clause
      simp only [writeClauses, List.length_cons, ih]
      omega

end TailForm

namespace Machine

variable (m : Machine)

/-! ### Steps to the tail -/

/-- Evaluates forms in order. -/
def inOrder (frame : FrameId) : List Value → Eval Unit
  | [] => return ()
  | form :: rest => do
    let _ ← m.value frame form
    inOrder frame rest

/-- A body evaluates its forms in order, the last one in tail position. -/
theorem body_append (frame : FrameId) (forms : List Value) (last : Value) :
    m.body frame (forms ++ [last]) = m.inOrder frame forms >>= fun _ => m.eval frame last := by
  induction forms with
  | nil => rfl
  | cons form rest ih =>
      have hmore : rest ++ [last] ≠ [] :=
        List.append_ne_nil_of_right_ne_nil _ (List.cons_ne_nil _ _)
      have hbody : m.body frame (form :: (rest ++ [last])) =
          m.value frame form >>= fun _ => m.body frame (rest ++ [last]) := by
        rw [Machine.body]
        exact hmore
      rw [List.cons_append, hbody, ih, inOrder]
      rw [bind_assoc]

/-- The clause of a `match` that takes the value. -/
def clauseTail (frame : FrameId) (v : Value) :
    List (Value × TailForm) → Eval (Option (FrameId × TailForm))
  | [] => Eval.failShowing v .noPatternMatched
  | (pattern, result) :: rest => do
    let inner ← Eval.extend frame "match"
    if ← m.destructure .test inner pattern v then return some (inner, result)
    else clauseTail frame v rest

/-- The form whose value is that of the given one, and the frame it is evaluated in;
none for the branch that an `if` does not have. -/
def tailStep (frame : FrameId) : TailForm → Eval (Option (FrameId × TailForm))
  | .other _ | .call .. => return none
  | .sequence forms last _ => do
    m.inOrder frame forms
    return some (frame, last)
  | .binding (.list bindings _) forms last _ =>
    if bindings.length % 2 = 0 then do
      let inner ← Eval.extend frame "let"
      m.bindPairs inner bindings
      m.inOrder inner forms
      return some (inner, last)
    else Eval.fail .unpairedBindings
  | .binding other _ _ _ =>
    Eval.failShowing other (.expectsGot "let expects a list of bindings")
  | .branch test branches _ =>
    if branches.length ≤ 2 then do
      let chosen ← m.toBool (← m.value frame test)
      return (if chosen then branches[0]? else branches[1]?).map (frame, ·)
    else Eval.fail (.operandCount "if" (.between 0 3) (branches.length + 1))
  | .selection subject clauses _ => do
    let v ← m.value frame subject
    m.clauseTail frame v clauses

/-- Goes on with the form in tail position. -/
def finish (recurs : Bool) : Option (FrameId × TailForm) → Eval Value
  | none => return .nil
  | some (frame, tail) => m.eval frame (tail.write recurs)

/-- A special form is entered and evaluated. -/
theorem evalStep_special (frame : FrameId) (form : SpecialForm) (ops : List Value)
    (source : Option Span) :
    m.evalStep frame (form.write ops source) =
      Eval.nested (Eval.inForm source (m.special frame form ops)) := by
  have hhead : Value.headForm? [.sym form.symbol] = some form := SpecialForm.ofSymbol?_symbol form
  unfold SpecialForm.write Machine.evalStep
  dsimp only
  unfold Machine.evalList
  rw [hhead]

/-- A `match` tries its clauses in order, up to one whose result is in tail
position. -/
theorem selectClause_write (frame : FrameId) (v : Value) (recurs : Bool)
    (clauses : List (Value × TailForm)) :
    m.selectClause frame v (TailForm.writeClauses recurs clauses) =
      m.clauseTail frame v clauses >>= m.finish recurs := by
  induction clauses with
  | nil => rfl
  | cons clause rest ih =>
      obtain ⟨pattern, result⟩ := clause
      rw [TailForm.writeClauses, selectClause, clauseTail, bind_assoc]
      congr
      funext inner
      rw [bind_assoc]
      congr
      funext fits
      cases fits with
      | true => rfl
      | false => exact ih

/-- The number of operands decides whether they are accepted. -/
theorem expectOperands_bind {α : Type} {form : SpecialForm} {arity : Arity} {ops : List Value}
    (h : arity.accepts ops.length = true) (k : Unit → Eval α) :
    expectOperands form arity ops >>= k = k () := by
  unfold expectOperands
  rw [if_pos h]
  rfl

/-- Form `do` steps to its last form. -/
theorem special_sequence (frame : FrameId) (recurs : Bool) (forms : List Value) (last : TailForm)
    (source : Option Span) :
    m.special frame .sequence (forms ++ [last.write recurs]) =
      m.tailStep frame (.sequence forms last source) >>= m.finish recurs := by
  rw [tailStep, bind_assoc]
  exact m.body_append frame forms (last.write recurs)

/-- Form `let` steps to its last form, in a frame with its bindings. -/
theorem special_binding (frame : FrameId) (recurs : Bool) (bindings : Value) (forms : List Value)
    (last : TailForm) (source : Option Span) :
    m.special frame .binding (bindings :: (forms ++ [last.write recurs])) =
      m.tailStep frame (.binding bindings forms last source) >>= m.finish recurs := by
  show m.evalBinding frame _ = _
  unfold evalBinding
  rw [expectOperands_bind (by simp [Arity.accepts, Arity.atLeast])]
  cases bindings with
  | list bindings _ =>
      rw [tailStep]
      dsimp only
      split
      · simp only [m.body_append, bind_assoc, pure_bind]
        rfl
      · rfl
  | _ => rfl

/-- Form `if` steps to the branch that the test selects. -/
theorem special_branch (frame : FrameId) (recurs : Bool) (test : Value) (branches : List TailForm)
    (source : Option Span) :
    m.special frame .branch (test :: TailForm.writeAll recurs branches) =
      m.tailStep frame (.branch test branches source) >>= m.finish recurs := by
  show m.evalBranch frame _ = _
  have hlength : (test :: branches.map (·.write recurs)).length = branches.length + 1 := by
    rw [List.length_cons, List.length_map]
  unfold evalBranch
  rw [tailStep, TailForm.writeAll_eq_map]
  by_cases hfew : branches.length ≤ 2
  · have haccepts : (Arity.between 0 3).accepts (branches.length + 1) = true := by
      have hmost : branches.length + 1 ≤ 3 := Nat.succ_le_succ hfew
      exact Bool.and_eq_true_iff.mpr ⟨decide_eq_true (Nat.zero_le _), decide_eq_true hmost⟩
    rw [expectOperands_bind (hlength ▸ haccepts), if_pos hfew]
    simp only [bind_assoc, pure_bind, List.getElem?_map]
    congr
    funext v
    congr
    funext chosen
    cases chosen with
    | true => cases branches[0]? <;> rfl
    | false => cases branches[1]? <;> rfl
  · have hrejects : ¬ (Arity.between 0 3).accepts (branches.length + 1) = true := by
      simp only [Arity.accepts, Arity.between, Bool.and_eq_true, decide_eq_true_eq]
      omega
    unfold expectOperands
    rw [hlength, if_neg hrejects, if_neg hfew]
    rfl

/-- Form `match` steps to the result of the clause that takes the value. -/
theorem special_selection (frame : FrameId) (recurs : Bool) (subject : Value)
    (clauses : List (Value × TailForm)) (source : Option Span) :
    m.special frame .selection (subject :: TailForm.writeClauses recurs clauses) =
      m.tailStep frame (.selection subject clauses source) >>= m.finish recurs := by
  show m.evalSelection frame _ = _
  unfold evalSelection
  rw [expectOperands_bind (by simp [Arity.accepts, Arity.atLeast])]
  simp only [tailStep, TailForm.length_writeClauses, Nat.mul_mod_right, if_true,
    m.selectClause_write, bind_assoc]

/-- The value of a form with forms in tail position is that of one of them. -/
theorem evalStep_write (frame : FrameId) (recurs : Bool) {form : TailForm}
    (hopen : form.isOpen = true) :
    m.evalStep frame (form.write recurs) =
      Eval.nested (Eval.inForm form.source (m.tailStep frame form >>= m.finish recurs)) := by
  cases form with
  | other form => cases hopen
  | call head operands source place isCall => cases hopen
  | sequence forms last source =>
      rw [TailForm.write, m.evalStep_special, m.special_sequence frame recurs forms last source]
      rfl
  | binding bindings forms last source =>
      rw [TailForm.write, m.evalStep_special,
        m.special_binding frame recurs bindings forms last source]
      rfl
  | branch test branches source =>
      rw [TailForm.write, m.evalStep_special, m.special_branch frame recurs test branches source]
      rfl
  | selection subject clauses source =>
      rw [TailForm.write, m.evalStep_special,
        m.special_selection frame recurs subject clauses source]
      rfl

/-- What a call does with the value of its head. -/
def callWith (frame : FrameId) (operands : List Value) (source : Option Span) (callee : Value) :
    Eval Value := do
  match ← expander? callee with
  | some id =>
    let expansion ← m.expand id operands source
    m.eval frame expansion
  | none =>
    let args ← m.operands frame operands
    m (.apply source callee args)

/-- A marked call that is written as it is. -/
theorem evalStep_call (frame : FrameId) {head : Value} (operands : List Value)
    (source : Option Span) (isCall : Value.headForm? [head] = none) :
    m.evalStep frame (.list (head :: operands) source) =
      Eval.nested (Eval.inForm source
        (m.value frame head >>= m.callWith frame operands source)) := by
  unfold Machine.evalStep
  dsimp only
  unfold Machine.evalList
  rw [isCall]
  rfl

/-- A marked call inside a `recur`: the head and the operands are evaluated as those
of the call, which is then left to the procedure around it. -/
theorem evalStep_recur (frame : FrameId) (head : Value) (operands : List Value)
    (source place : Option Span) :
    m.evalStep frame (SpecialForm.recurring.write [.list (head :: operands) source] place) =
      Eval.nested (Eval.inForm place do
        let target ← m.value frame head
        let args ← m.operands frame operands
        Eval.fail { cause := .recur target args }) := by
  rw [m.evalStep_special]
  rfl

/-! ### Marked calls that are reached -/

/-- From the first world, the evaluation of the form gets to a marked call whose
head has the value `callee`, in the second world. -/
inductive Reaches : FrameId → TailForm → World → Value → World → Prop
  | call {frame head operands source place isCall} {w w' : World} {callee : Value}
      (hhead : m.value frame head { w with depth := w.depth + 1 } = (.ok callee, w')) :
      Reaches frame (.call head operands source place isCall) w callee w'
  | inside {frame form inner tail} {w w₁ w' : World} {callee : Value}
      (hstep : m.tailStep frame form { w with depth := w.depth + 1 } =
        (.ok (some (inner, tail)), w₁))
      (hrest : Reaches inner tail w₁ callee w') : Reaches frame form w callee w'

/-- The frame of a call of a closure, with the parameters bound and the first forms
of its body evaluated. -/
def enter (c : Closure) (receiver : Option Value) (args forms : List Value) : Eval FrameId := do
  let frame ← Eval.extend c.frame (if c.expands then "macro" else "proc")
  if let some v := receiver then Eval.define frame (.intern "this") v
  let _ ← m.destructureSequence .bind frame c.params args
  m.inOrder frame forms
  return frame

/-- A closure evaluates the last form of its body in tail position. -/
theorem runClosure_append (c : Closure) (receiver : Option Value) (args forms : List Value)
    (last : Value) (hbody : c.body = forms ++ [last]) :
    m.runClosure c receiver args =
      m.enter c receiver args forms >>= fun frame => m.eval frame last := by
  unfold runClosure enter
  rw [hbody]
  cases receiver <;> simp only [m.body_append, bind_assoc, pure_bind]

end Machine

namespace Congruence.Machines

variable {C : Congruence} {e : Option FrameId} {t : Bool} {m n : Machine} (h : C.Machines m n)
include h

/-- Forms in order. -/
theorem inOrder (frame : FrameId) (forms : List Value) :
    C.rel (some frame) t (m.inOrder frame forms) (n.inOrder frame forms) := by
  induction forms with
  | nil => exact C.pure _
  | cons form rest ih => exact C.seq (h.value frame form) fun _ => ih

/-- The clause that takes a value. -/
theorem clauseTail (frame : FrameId) (v : Value) (clauses : List (Value × TailForm)) :
    C.rel e t (m.clauseTail frame v clauses) (n.clauseTail frame v clauses) := by
  induction clauses generalizing e with
  | nil => exact C.showing v fun _ => ⟨rfl, rfl⟩
  | cons clause rest ih =>
      refine C.extend _ _ fun inner => C.seq (h.destructure .test inner clause.1 v) fun fits => ?_
      cases fits with
      | true => exact C.pure _
      | false => exact ih

/-- A step to the form in tail position. -/
theorem tailStep (frame : FrameId) (form : TailForm) :
    C.rel (some frame) t (m.tailStep frame form) (n.tailStep frame form) := by
  cases form with
  | other form => exact C.pure _
  | call head operands source place isCall => exact C.pure _
  | sequence forms last source => exact C.map _ (h.inOrder frame forms)
  | binding bindings forms last source =>
      cases bindings with
      | list bindings _ =>
          rw [Machine.tailStep, Machine.tailStep]
          split
          · exact C.extend _ _ fun inner =>
              C.seq (h.bindPairs inner bindings) fun _ => C.map _ (h.inOrder inner forms)
          · exact C.fail ⟨rfl, rfl⟩
      | _ => exact C.showing _ fun _ => ⟨rfl, rfl⟩
  | branch test branches source =>
      rw [Machine.tailStep, Machine.tailStep]
      split
      · exact C.seq (h.value frame test) fun v => C.map _ (h.toBool v)
      · exact C.fail ⟨rfl, rfl⟩
  | selection subject clauses source =>
      exact C.seq (h.value frame subject) fun v => h.clauseTail frame v clauses

/-- A call, from the value of its head on. -/
theorem callWith (frame : FrameId) (operands : List Value) (source : Option Span)
    (callee : Value) :
    C.rel (some frame) true (m.callWith frame operands source callee)
      (n.callWith frame operands source callee) := by
  refine C.seq (C.ask fun _ _ => rfl) fun found => ?_
  cases found with
  | some id => exact C.seq (h.expand id operands source) fun expansion => h.eval frame expansion
  | none => exact C.seq (h.operands frame operands) fun args => h.apply source callee args

/-- The way to the last form of a closure's body. -/
theorem enter (c : Closure) (receiver : Option Value) (args forms : List Value) :
    C.rel e t (m.enter c receiver args forms) (n.enter c receiver args forms) := by
  refine C.extend _ _ fun frame => ?_
  have hrest : C.rel (some frame) t
      (m.destructureSequence .bind frame c.params args >>= fun _ =>
        m.inOrder frame forms >>= fun _ => Pure.pure frame)
      (n.destructureSequence .bind frame c.params args >>= fun _ =>
        n.inOrder frame forms >>= fun _ => Pure.pure frame) :=
    C.seq (h.destructureSequence .bind frame _ args) fun _ => C.map _ (h.inOrder frame forms)
  cases receiver with
  | none => exact hrest
  | some v => exact C.seq (C.define frame _ v) fun _ => hrest

end Congruence.Machines

end Lisp
