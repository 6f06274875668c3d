import Lisp.Proofs.Congruence.Builtins
import Lisp.Proofs.Patterns

/-!
# Patterns, templates and special forms under related machines

The parts of the evaluator that know a frame.  A pattern binds names in the
frame it is given, and so do `def`, `def-type` and `def-interface`; every other
form that binds names makes a frame for them first (`Congruence.extend`), and
is related in *every* scope: `let`, the handler of `try`, the clauses of `match`
and the body of a closure.

A recur may leave a form only from its tail positions, so the forms are related
under the flag that allows it, and their other parts under both.
-/

namespace Lisp

/-- A test takes a type mismatch of an iteration for a no. -/
def Mode.excuses : Mode → Cause → Bool
  | .test, .complaint .typeMismatch _ => true
  | _, _ => false

/-- What is excused is tame, and no recur. -/
theorem Mode.isTame_of_excuses {mode : Mode} {c : Cause} (h : mode.excuses c = true) :
    c.isTame = true := by
  unfold Mode.excuses at h
  split at h
  · rfl
  · cases h

/-- The elements of a value, with the excuse of a test. -/
theorem Machine.elements_eq_rescue (m : Machine) (mode : Mode) (value : Value) :
    m.elements mode value = (m.iterate value >>= fun items => pure (some items)).rescue
      (fun f => mode.excuses f.cause) fun _ => pure none := by
  funext w
  show _ = Eval.rescue (Eval.bind _ _) _ _ w
  unfold Machine.elements Eval.rescue Eval.bind
  rcases m.iterate value w with ⟨answer, w'⟩
  cases answer with
  | ok items => rfl
  | outOfFuel => rfl
  | failed f =>
      obtain ⟨cause, context⟩ := f
      cases mode with
      | bind => rfl
      | test =>
          cases cause with
          | complaint kind message => cases kind <;> rfl
          | _ => rfl

/-- Form `try`: a handler takes every failure but a recur. -/
theorem Machine.evalAttempt_eq_rescue (m : Machine) (frame : FrameId)
    {ops forms handler : List Value} (hops : handlerOf? ops = some (forms, handler)) :
    m.evalAttempt frame ops =
      (m.body frame forms).rescue (fun f => !f.cause.isRecur) (m.handle frame handler) := by
  funext w
  unfold Machine.evalAttempt Eval.rescue
  rw [hops]
  dsimp only
  rcases m.body frame forms w with ⟨answer, w'⟩
  cases answer with
  | ok v => rfl
  | outOfFuel => rfl
  | failed f =>
      cases hrecur : f.cause.isRecur with
      | true => simp [hrecur]
      | false => simp [hrecur]

/-- What a `catch` clause does with what happened, in the frame made for it. -/
def Machine.handlerBody? (m : Machine) : List Value → Option (Value → FrameId → Eval Value)
  | [] => none
  | pattern :: forms => some fun caught inner => do
    let _ ← m.destructure .bind inner pattern caught
    m.body inner forms

/-- Form `try` with a handler. -/
theorem Machine.evalAttempt_eq_attempt (m : Machine) (frame : FrameId)
    {ops forms handler : List Value} (hops : handlerOf? ops = some (forms, handler)) :
    m.evalAttempt frame ops = (m.body frame forms).attempt frame (m.handlerBody? handler) := by
  rw [m.evalAttempt_eq_rescue frame hops]
  unfold Eval.attempt
  congr
  funext f
  cases handler <;> rfl

/-- The call of a hook that a program gave to its interface. -/
def Machine.callHook (m : Machine) (hook : Option Hook) (key : List TypeTag) (imp : Value) :
    Eval Unit :=
  match hook with
  | some (.procedure p) => do
    let _ ← m.call p [.ofList (key.map .type), imp]
  | _ => return ()

/-- A hook is an override of a record type and then a call. -/
theorem Machine.runHook_eq (m : Machine) (hook : Option Hook) (key : List TypeTag) (imp : Value) :
    m.runHook hook key imp = (do
      Eval.changeHeap (·.override hook key imp)
      m.callHook hook key imp) := by
  funext w
  show m.runHook hook key imp w =
    m.callHook hook key imp { w with heap := w.heap.override hook key imp }
  unfold Machine.runHook
  split
  · rfl
  · next a b =>
      by_cases hab : a = b
      · simp only [hab, Heap.override, if_true]
        rfl
      · simp only [hab, Heap.override, if_false]
        rfl
  · rfl
  · next hprocedure hhash hequality =>
      have hcall : m.callHook hook key imp = pure () := by
        unfold Machine.callHook
        split
        · exact absurd rfl (hprocedure _)
        · rfl
      have hkeep : w.heap.override hook key imp = w.heap := by
        unfold Heap.override
        split
        · exact absurd rfl (hhash _ rfl)
        · exact absurd rfl (hequality _ _ rfl)
        · rfl
      rw [hcall, hkeep]

/-- Registering an implementation is one change of the heap, with the override of
a record type in it, and then the call of a hook. -/
theorem Machine.implement_eq (m : Machine) (id : InterfaceId) (key : List TypeTag) (imp : Value) :
    m.implement id key imp = (do
      match ← Eval.interface? id with
      | none => return ()
      | some interface =>
        if key.length = interface.arity then
          Eval.changeHeap (·.implement id key imp)
          m.callHook interface.hook key imp
        else
          let described ← Eval.ask fun w => w.heap.describeKey interface.name key
          Eval.fail (.nonconformingKey described interface.signature)) := by
  funext w
  unfold Machine.implement
  rw [Eval.bind_run, Eval.bind_run]
  simp only [Eval.interface?, Eval.ask]
  cases hfound : w.heap.interfaces[id]? with
  | none => rfl
  | some interface =>
      dsimp only
      split
      · next hlength =>
          have himplement : w.heap.implement id key imp =
              (w.heap.register id key imp).override interface.hook key imp := by
            simp only [Heap.implement, hfound, hlength, if_true]
          rw [m.runHook_eq, Eval.bind_run, Eval.bind_run]
          simp only [Eval.changeHeap, himplement]
          rfl
      · rfl

namespace Congruence

variable {C : Congruence} {e : Option FrameId} {t : Bool}

/-- A value that does not fit. -/
theorem misfit (mode : Mode) {complaint : Eval Failure}
    (hcomplaint : C.rel e t complaint complaint) (hfresh : ∀ f, complaint.Gives f → f.IsFresh) :
    C.rel e t (Machine.misfit mode complaint) (Machine.misfit mode complaint) := by
  cases mode with
  | test => exact C.pure _
  | bind => exact C.bind hcomplaint fun f hf => C.fail (hfresh f hf)

namespace Machines

variable {m n : Machine} (h : C.Machines m n)
include h

/-! ### Patterns -/

/-- A literal pattern. -/
theorem takeLiteral (mode : Mode) (literal value : Value) (wording : String → String → Failure)
    (hfresh : ∀ v l, (wording v l).IsFresh) :
    C.rel e t (m.takeLiteral mode literal value wording)
      (n.takeLiteral mode literal value wording) := by
  refine C.seq (h.equal literal value) fun same => ?_
  split
  · exact C.pure _
  · refine C.misfit mode ?_ ?_
    · exact C.seq (C.ask fun _ _ => rfl) fun _ => C.map _ (C.ask fun _ _ => rfl)
    · rintro f ⟨w, w', hgives⟩
      cases hgives
      exact hfresh _ _

/-- The elements that a sequence pattern takes apart. -/
theorem elements (mode : Mode) (value : Value) :
    C.rel e t (m.elements mode value) (n.elements mode value) := by
  rw [Machine.elements_eq_rescue, Machine.elements_eq_rescue]
  refine C.recover (s := false) mode.excuses (h := fun _ => Pure.pure none)
    (l := fun _ => Pure.pure none) (C.map _ (h.iterate value)) ?_ ?_
  · exact fun c hc => ⟨Mode.isTame_of_excuses hc, C.pure _⟩
  · intro hs
    cases hs

/-- Hands on the elements of a value. -/
theorem withElements (mode : Mode) (value : Value) {next next' : List Value → Eval Bool}
    (hnext : ∀ values, C.rel e t (next values) (next' values)) :
    C.rel e t (m.withElements mode value next) (n.withElements mode value next') := by
  refine C.seq (h.elements mode value) fun values => ?_
  cases values with
  | none => exact C.pure _
  | some values => exact hnext values

/-- The type that the head of a pattern denotes. -/
theorem headType (frame : FrameId) (head : Value) :
    C.rel (some frame) t (m.headType frame head) (n.headType frame head) := by
  refine C.seq (h.value frame head) fun v => ?_
  split
  · exact C.pure _
  · exact C.seq (C.ask fun _ _ => rfl) fun _ => C.showing _ fun _ => ⟨rfl, rfl⟩

/-- Goes on if a value has the type that a head denotes. -/
theorem withType (mode : Mode) (frame : FrameId) (head value : Value) {next next' : Eval Bool}
    (hnext : C.rel (some frame) t next next') :
    C.rel (some frame) t (m.withType mode frame head value next)
      (n.withType mode frame head value next') := by
  refine C.seq (h.headType frame head) fun tag => ?_
  split
  · exact hnext
  · refine C.misfit mode ?_ ?_
    · exact C.seq (C.ask fun _ _ => rfl) fun _ => C.map _ (C.ask fun _ _ => rfl)
    · rintro f ⟨w, w', hgives⟩
      cases hgives
      exact ⟨rfl, rfl⟩

/-- The relation of a scope is compatible with the patterns that bind names there. -/
theorem compatible (mode : Mode) (frame : FrameId) :
    Machine.Compatible (C.rel (some frame) t) m n mode mode frame where
  name s value := C.seq (C.define frame s value) fun _ => C.pure _
  fail hfresh := C.fail hfresh
  finished values := C.pure _
  missing hxy := by
    cases mode with
    | test => exact C.pure _
    | bind => exact hxy
  both hxy hkl := by
    refine C.seq hxy fun fits => ?_
    split
    · exact hkl
    · exact C.pure _
  literal hfresh := h.takeLiteral mode _ _ _ hfresh
  elements value _ _ hnext := h.withElements mode value hnext
  type head value _ _ hnext := h.withType mode frame head value hnext
  membered hxy := by
    split
    · exact hxy
    · exact C.pure _
  member hnext := C.seq (h.value frame _) fun key => C.seq (h.get _ key) hnext

/-- Patterns bind names in their own frame only. -/
theorem destructuring (mode : Mode) (frame : FrameId) :
    (∀ pattern value, C.rel (some frame) t (m.destructure mode frame pattern value)
      (n.destructure mode frame pattern value)) ∧
    (∀ patterns values, C.rel (some frame) t (m.destructureSequence mode frame patterns values)
      (n.destructureSequence mode frame patterns values)) ∧
    ∀ parts value, C.rel (some frame) t (m.destructureMembers mode frame parts value)
      (n.destructureMembers mode frame parts value) :=
  (h.compatible mode frame).destructuring

/-- A pattern. -/
theorem destructure (mode : Mode) (frame : FrameId) (pattern value : Value) :
    C.rel (some frame) t (m.destructure mode frame pattern value)
      (n.destructure mode frame pattern value) :=
  (h.destructuring mode frame).1 pattern value

/-- A row of patterns. -/
theorem destructureSequence (mode : Mode) (frame : FrameId) (patterns values : List Value) :
    C.rel (some frame) t (m.destructureSequence mode frame patterns values)
      (n.destructureSequence mode frame patterns values) :=
  (h.destructuring mode frame).2.1 patterns values

/-! ### Bodies, operands, expansions and templates -/

/-- A body, whose last form is in tail position. -/
theorem body (frame : FrameId) (forms : List Value) :
    C.rel (some frame) true (m.body frame forms) (n.body frame forms) := by
  fun_induction m.body frame forms with
  | case1 => exact C.pure _
  | case2 last => exact h.eval frame last
  | case3 form rest hrest ih =>
      rw [Machine.body] <;> try assumption
      exact C.seq (h.value frame form) fun _ => ih

/-- Operands, spreads included. -/
theorem operands (frame : FrameId) (forms : List Value) :
    C.rel (some frame) t (m.operands frame forms) (n.operands frame forms) := by
  fun_induction m.operands frame forms with
  | case1 => exact C.pure _
  | case2 form rest inner hspread ih =>
      rw [Machine.operands.eq_def n frame (form :: rest)]
      simp only [hspread]
      refine C.seq (h.value frame inner) fun v => C.seq (h.iterate v) fun items => ?_
      exact C.map _ ih
  | case3 form hspread hmarker =>
      rw [Machine.operands]
      simp only [hspread, hmarker, if_true]
      exact C.fail ⟨rfl, rfl⟩
  | case4 form hspread hmarker inner rest ih =>
      rw [Machine.operands]
      simp only [hspread, hmarker, if_true]
      refine C.seq (h.value frame inner) fun v => C.seq (h.iterate v) fun items => ?_
      exact C.map _ ih
  | case5 form rest hspread hmarker ih =>
      rw [Machine.operands.eq_def n frame (form :: rest)]
      simp only [hspread, hmarker]
      exact C.seq (h.value frame form) fun v => C.map _ ih

/-- The expansion of a macro call. -/
theorem expand (id : ClosureId) (operands : List Value) (source : Option Span) :
    C.rel e t (m.expand id operands source) (n.expand id operands source) := by
  obtain ⟨fuel, rfl⟩ := h.isRun
  exact C.memoize fuel source id operands (h.answers source id operands) (h.apply _ _ _)

/-- The operand of an unquoting form. -/
theorem hole (frame : FrameId) (form : SpecialForm) (ops : List Value) :
    C.rel (some frame) t (m.hole frame form ops) (n.hole frame form ops) := by
  unfold Machine.hole
  split
  · exact h.value frame _
  · exact C.fail ⟨rfl, rfl⟩

/-- The elements of a template, if each of them can be filled. -/
theorem fillItems_of_items (frame : FrameId) {items : List Value}
    (hitems : ∀ x ∈ items, C.rel (some frame) t (m.fill frame x) (n.fill frame x)) :
    C.rel (some frame) t (m.fillItems frame items) (n.fillItems frame items) := by
  induction items with
  | nil => exact C.pure _
  | cons item rest ih =>
      have hrest := ih fun x hx => hitems x (List.mem_cons_of_mem item hx)
      have hone := C.seq (hitems item List.mem_cons_self) fun filled => C.map (filled :: ·) hrest
      unfold Machine.fillItems
      split
      · split
        · refine C.seq (h.hole frame _ _) fun v => C.seq (h.iterate v) fun spliced => ?_
          exact C.map _ hrest
        · exact hone
      · exact hone

/-- The form that a template stands for. -/
theorem fill (frame : FrameId) (template : Value) :
    C.rel (some frame) t (m.fill frame template) (n.fill frame template) := by
  induction template using Value.part_induction with
  | h template ih =>
      cases template with
      | list items source =>
          unfold Machine.fill
          split
          · exact h.hole frame _ _
          · exact C.fail ⟨rfl, rfl⟩
          · exact C.map _ (h.fillItems_of_items frame fun x hx => ih x (.item hx))
      | _ => exact C.pure _

/-! ### Special forms -/

end Machines

/-- A failure as the value that a handler binds. -/
theorem reify (f : Failure) : C.rel e t (Eval.reify f) (Eval.reify f) := by
  unfold Eval.reify
  split
  · exact C.pure _
  · exact C.seq (C.ask fun _ _ => rfl) fun message => C.newError _ _ _ _

/-- The number of operands of a special form. -/
theorem expectOperands (form : SpecialForm) (arity : Arity) (ops : List Value) :
    C.rel e t (Machine.expectOperands form arity ops) (Machine.expectOperands form arity ops) := by
  unfold Machine.expectOperands
  split
  · exact C.pure _
  · exact C.fail ⟨rfl, rfl⟩

/-- A new closure over a frame. -/
theorem evalClosure (frame : FrameId) (form : SpecialForm) (expands : Bool) (ops : List Value) :
    C.rel e t (Machine.evalClosure frame form expands ops)
      (Machine.evalClosure frame form expands ops) := by
  refine C.seq (C.expectOperands _ _ _) fun _ => ?_
  cases ops with
  | nil => exact C.pure _
  | cons first body =>
      cases first with
      | list params source =>
          exact C.editHeapAs (.newClosure { params, body, frame, expands })
            fun h => Value.closure h.closures.size
      | _ => exact C.showing _ fun _ => ⟨rfl, rfl⟩

/-- The symbols of a list of symbols. -/
theorem symbolsOf (form : SpecialForm) (items : List Value) :
    C.rel e t (Machine.symbolsOf form items) (Machine.symbolsOf form items) := by
  fun_induction Machine.symbolsOf form items with
  | case1 => exact C.pure _
  | case2 s rest ih => exact C.map _ ih
  | case3 other rest hsym =>
      exact C.showing other fun _ => ⟨rfl, rfl⟩

/-- The symbols of a form that must be a list of symbols. -/
theorem symbolList (form : SpecialForm) (v : Value) :
    C.rel e t (Machine.symbolList form v) (Machine.symbolList form v) := by
  unfold Machine.symbolList
  split
  · exact C.symbolsOf _ _
  · exact C.showing _ fun _ => ⟨rfl, rfl⟩

/-- Form `def-type`. -/
theorem evalRecordType (frame : FrameId) (ops : List Value) :
    C.rel (some frame) t (Machine.evalRecordType frame ops)
      (Machine.evalRecordType frame ops) := by
  refine C.seq (C.expectOperands _ _ _) fun _ => C.seq (C.symbolList _ _) fun names => ?_
  cases names with
  | nil => exact C.fail ⟨rfl, rfl⟩
  | cons name fields =>
      refine C.seq (C.ask fun _ _ => rfl) fun id => ?_
      refine C.seq (C.editHeap (.newRecordType name fields)) fun _ => ?_
      exact C.seq (C.define frame name _) fun _ => C.pure _

namespace Machines

variable {m n : Machine} (h : C.Machines m n)
include h

/-- Form `def`. -/
theorem evalDefine (frame : FrameId) (ops : List Value) :
    C.rel (some frame) t (m.evalDefine frame ops) (n.evalDefine frame ops) := by
  unfold Machine.evalDefine
  split
  · next name form =>
      refine C.seq (h.value frame form) fun v => ?_
      have hbind : C.rel (some frame) t (Eval.define frame name v >>= fun _ => Pure.pure v)
          (Eval.define frame name v >>= fun _ => Pure.pure v) :=
        C.seq (C.define frame name v) fun _ => C.pure v
      dsimp only
      split
      · exact C.seq (C.editHeap (.nameClosure _ _)) fun _ => hbind
      · exact hbind
  · exact C.showing _ fun _ => ⟨rfl, rfl⟩
  · exact C.fail ⟨rfl, rfl⟩

/-- Form `if`. -/
theorem evalBranch (frame : FrameId) (ops : List Value) :
    C.rel (some frame) true (m.evalBranch frame ops) (n.evalBranch frame ops) := by
  refine C.seq (C.expectOperands _ _ _) fun _ => ?_
  cases ops with
  | nil => exact C.pure _
  | cons test branches =>
      refine C.seq (h.value frame test) fun v => C.seq (h.toBool v) fun chosen => ?_
      split
      · exact h.eval frame _
      · exact C.pure _

/-- The bindings of a `let`, made in its own frame. -/
theorem bindPairs (inner : FrameId) (bindings : List Value) :
    C.rel (some inner) t (m.bindPairs inner bindings) (n.bindPairs inner bindings) := by
  fun_induction m.bindPairs inner bindings with
  | case1 pattern form rest ih =>
      refine C.seq (h.value inner form) fun v => ?_
      exact C.seq (h.destructure .bind inner pattern v) fun _ => ih
  | case2 bindings hpair =>
      rw [Machine.bindPairs] <;> try assumption
      exact C.pure _

/-- Form `let`. -/
theorem evalBinding (frame : FrameId) (ops : List Value) :
    C.rel e true (m.evalBinding frame ops) (n.evalBinding frame ops) := by
  refine C.seq (C.expectOperands _ _ _) fun _ => ?_
  split
  · split
    · refine C.extend _ _ fun inner => ?_
      exact C.seq (h.bindPairs inner _) fun _ => h.body inner _
    · exact C.fail ⟨rfl, rfl⟩
  · exact C.showing _ fun _ => ⟨rfl, rfl⟩
  · exact C.pure _

/-- Form `macro-expand`. -/
theorem evalExpand (frame : FrameId) (ops : List Value) :
    C.rel (some frame) t (m.evalExpand frame ops) (n.evalExpand frame ops) := by
  refine C.seq (C.expectOperands _ _ _) fun _ => ?_
  split
  · refine C.seq (h.value frame _) fun callee => C.seq (C.ask fun _ _ => rfl) fun found => ?_
    cases found with
    | some id => exact h.expand id _ _
    | none => exact C.showing _ fun _ => ⟨rfl, rfl⟩
  · exact C.showing _ fun _ => ⟨rfl, rfl⟩
  · exact C.pure _

/-- The handler of a `try`. -/
theorem handle (frame : FrameId) (handler : List Value) (f : Failure) :
    C.rel e true (m.handle frame handler f) (n.handle frame handler f) := by
  refine C.seq (C.reify f) fun caught => ?_
  cases handler with
  | nil => exact C.fail ⟨rfl, rfl⟩
  | cons pattern forms =>
      refine C.extend _ _ fun inner => ?_
      exact C.seq (h.destructure .bind inner pattern caught) fun _ => h.body inner forms

/-- Form `try`. -/
theorem evalAttempt (frame : FrameId) (ops : List Value) :
    C.rel (some frame) true (m.evalAttempt frame ops) (n.evalAttempt frame ops) := by
  cases hops : Machine.handlerOf? ops with
  | none =>
      unfold Machine.evalAttempt
      rw [hops]
      exact h.body frame ops
  | some clause =>
      obtain ⟨forms, handler⟩ := clause
      rw [m.evalAttempt_eq_attempt frame hops, n.evalAttempt_eq_attempt frame hops]
      refine C.attempt frame (h.body frame forms) ?_
      cases handler with
      | nil => exact .none
      | cons pattern forms =>
          refine .some fun caught inner => ?_
          exact C.seq (h.destructure .bind inner pattern caught) fun _ => h.body inner forms

/-- Form `throw`. -/
theorem evalThrow (frame : FrameId) (ops : List Value) :
    C.rel (some frame) t (m.evalThrow frame ops) (n.evalThrow frame ops) := by
  refine C.seq (C.expectOperands _ _ _) fun _ => ?_
  exact C.seq (h.value frame _) fun v => C.raise v

/-- Form `recur`. -/
theorem evalRecur (frame : FrameId) (ops : List Value) :
    C.rel (some frame) true (m.evalRecur frame ops) (n.evalRecur frame ops) := by
  refine C.seq (C.expectOperands _ _ _) fun _ => ?_
  split
  · refine C.seq (h.value frame _) fun target => ?_
    exact C.seq (h.operands frame _) fun args => C.recur target args
  · exact C.showing _ fun _ => ⟨rfl, rfl⟩
  · exact C.pure _

/-- The clauses of a `match`, each in a frame of its own. -/
theorem selectClause (frame : FrameId) (v : Value) (clauses : List Value) :
    C.rel e true (m.selectClause frame v clauses) (n.selectClause frame v clauses) := by
  fun_induction m.selectClause frame v clauses generalizing e with
  | case1 pattern result rest ih =>
      refine C.extend _ _ fun inner => ?_
      refine C.seq (h.destructure .test inner pattern v) fun fits => ?_
      split
      · exact h.eval inner result
      · exact ih
  | case2 clauses hpair =>
      rw [Machine.selectClause] <;> try assumption
      exact C.showing _ fun _ => ⟨rfl, rfl⟩

/-- Form `match`. -/
theorem evalSelection (frame : FrameId) (ops : List Value) :
    C.rel (some frame) true (m.evalSelection frame ops) (n.evalSelection frame ops) := by
  refine C.seq (C.expectOperands _ _ _) fun _ => ?_
  cases ops with
  | nil => exact C.pure _
  | cons subject clauses =>
      refine C.seq (h.value frame subject) fun v => ?_
      split
      · exact h.selectClause frame v clauses
      · exact C.fail ⟨rfl, rfl⟩

/-- An operand that may be left out. -/
theorem optional (frame : FrameId) (form : Option Value) :
    C.rel (some frame) t (m.optional frame form) (n.optional frame form) := by
  cases form with
  | none => exact C.pure _
  | some form =>
      refine C.seq (h.value frame form) fun v => ?_
      split <;> exact C.pure _

/-- Form `def-interface`. -/
theorem evalInterface (frame : FrameId) (ops : List Value) :
    C.rel (some frame) t (m.evalInterface frame ops) (n.evalInterface frame ops) := by
  refine C.seq (C.expectOperands _ _ _) fun _ => C.seq (C.symbolList _ _) fun names => ?_
  cases names with
  | nil => exact C.fail ⟨rfl, rfl⟩
  | cons name params =>
      dsimp only
      split
      · exact C.fail ⟨rfl, rfl⟩
      · refine C.seq (h.optional frame _) fun fallback => ?_
        refine C.seq (h.optional frame _) fun hook => C.seq (C.ask fun _ _ => rfl) fun id => ?_
        refine C.seq (C.editHeap (.newInterface name params fallback hook)) fun _ => ?_
        exact C.seq (C.define frame name _) fun _ => C.pure _

/-- The tags that type forms denote. -/
theorem typesOf (frame : FrameId) (forms : List Value) :
    C.rel (some frame) t (m.typesOf frame forms) (n.typesOf frame forms) := by
  induction forms with
  | nil => exact C.pure _
  | cons form rest ih =>
      refine C.seq (h.value frame form) fun v => ?_
      split
      · exact C.map _ ih
      · exact C.showing _ fun _ => ⟨rfl, rfl⟩

/-- Form `.` along a chain of keys. -/
theorem memberChain (frame : FrameId) (target : Value) (receiver : Option Value)
    (keys : List Value) :
    C.rel (some frame) t (m.memberChain frame target receiver keys)
      (n.memberChain frame target receiver keys) := by
  induction keys generalizing target receiver with
  | nil => exact C.pure _
  | cons keyForm rest ih =>
      have hnext : ∀ key, C.rel (some frame) t
          (m.member target key >>= fun next => m.memberChain frame next (some target) rest)
          (n.member target key >>= fun next => n.memberChain frame next (some target) rest) :=
        fun key => C.seq (h.member target key) fun next => ih next (some target)
      cases keyForm with
      | list items source => exact C.seq (h.value frame _) hnext
      | _ => exact C.seq (C.pure _) hnext

/-- Form `.`. -/
theorem evalMember (frame : FrameId) (ops : List Value) :
    C.rel (some frame) t (m.evalMember frame ops) (n.evalMember frame ops) := by
  refine C.seq (C.expectOperands _ _ _) fun _ => ?_
  cases ops with
  | nil => exact C.pure _
  | cons first keys =>
      refine C.seq (h.value frame first) fun start => ?_
      refine C.seq (h.memberChain frame start none keys) fun last => ?_
      obtain ⟨target, receiver⟩ := last
      dsimp only
      split <;> exact C.pure _

/-- The call of a hook. -/
theorem callHook (hook : Option Hook) (key : List TypeTag) (imp : Value) :
    C.rel e t (m.callHook hook key imp) (n.callHook hook key imp) := by
  unfold Machine.callHook
  split
  · exact C.map _ (h.call _ _)
  · exact C.pure _

/-- The registration of an implementation. -/
theorem implement (id : InterfaceId) (key : List TypeTag) (imp : Value) :
    C.rel e t (m.implement id key imp) (n.implement id key imp) := by
  rw [Machine.implement_eq, Machine.implement_eq]
  refine C.seq (C.ask fun _ _ => rfl) fun found => ?_
  cases found with
  | none => exact C.pure _
  | some interface =>
      dsimp only
      split
      · exact C.seq (C.editHeap (.implement id key imp)) fun _ => h.callHook _ key imp
      · exact C.seq (C.ask fun _ _ => rfl) fun _ => C.fail ⟨rfl, rfl⟩

/-- Form `def-impl`. -/
theorem evalImplementation (frame : FrameId) (ops : List Value) :
    C.rel (some frame) t (m.evalImplementation frame ops) (n.evalImplementation frame ops) := by
  refine C.seq (C.expectOperands _ _ _) fun _ => ?_
  split
  · refine C.seq (h.value frame _) fun target => ?_
    split
    · split
      · refine C.seq (h.typesOf frame _) fun key => C.seq (h.value frame _) fun imp => ?_
        exact C.map _ (h.implement _ key imp)
      · exact C.showing _ fun _ => ⟨rfl, rfl⟩
    · exact C.showing _ fun _ => ⟨rfl, rfl⟩
  · exact C.pure _

/-- A special form, where a recur may leave it. -/
theorem special (frame : FrameId) (form : SpecialForm) (ops : List Value) :
    C.rel (some frame) true (m.special frame form ops) (n.special frame form ops) := by
  cases form with
  | define => exact h.evalDefine frame ops
  | branch => exact h.evalBranch frame ops
  | sequence => exact h.body frame ops
  | binding => exact h.evalBinding frame ops
  | procedure => exact C.evalClosure frame _ _ ops
  | expander => exact C.evalClosure frame _ _ ops
  | expand => exact h.evalExpand frame ops
  | quote => exact C.seq (C.expectOperands _ _ _) fun _ => C.pure _
  | quasiQuote => exact C.seq (C.expectOperands _ _ _) fun _ => h.fill frame _
  | unquote => exact C.fail ⟨rfl, rfl⟩
  | unquoteSplice => exact C.fail ⟨rfl, rfl⟩
  | splice => exact C.fail ⟨rfl, rfl⟩
  | attempt => exact h.evalAttempt frame ops
  | handler => exact C.fail ⟨rfl, rfl⟩
  | throwing => exact h.evalThrow frame ops
  | recurring => exact h.evalRecur frame ops
  | selection => exact h.evalSelection frame ops
  | recordType => exact C.evalRecordType frame ops
  | interface => exact h.evalInterface frame ops
  | implementation => exact h.evalImplementation frame ops
  | member => exact h.evalMember frame ops

end Machines

end Congruence

end Lisp
