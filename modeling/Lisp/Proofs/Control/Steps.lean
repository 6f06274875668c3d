import Lisp.Proofs.Control.Meaning
import Lisp.Proofs.Frames
import Lisp.Proofs.Patterns
import Lisp.Proofs.TailCall.Marked

/-!
# Evaluations that take one world to another

The text of a macro is known, so what its evaluation does can be worked out from the
text, form by form.  An evaluation **takes** one world to another if it settles on its
value there, from whatever calls and at whatever depth it is made (`TakesTo`).  There is a
rule for each kind of form that such texts consist of: names and constants
(`TakesTo.name`, `TakesTo.constant`), calls of procedures and of core interfaces
(`TakesTo.call`, `TakesTo.core`), branches (`TakesTo.branch`), a `let` with one binding
(`TakesTo.binding`) and templates (`TakesTo.quasiQuote`).
-/

namespace Lisp

variable {α β : Type}

/-! ### Frames that stay -/

namespace Frames

variable {fs gs : Frames}

theorem Within.refl (fs : Frames) : fs.Within fs :=
  ⟨Nat.le_refl _, fun _ _ => rfl⟩

theorem Within.trans {hs : Frames} (hfg : fs.Within gs) (hgh : gs.Within hs) : fs.Within hs :=
  ⟨Nat.le_trans hfg.size_le hgh.size_le, fun id hid =>
    (hgh.get? id (Nat.lt_of_lt_of_le hid hfg.size_le)).trans (hfg.get? id hid)⟩

/-- A new frame leaves the others where they are. -/
theorem Within.extend (h : fs.Within gs) (outer : FrameId) (label : String) :
    fs.Within (gs.extend outer label) where
  size_le := by
    rw [size_extend]
    exact Nat.le_succ_of_le h.size_le
  get? id hid :=
    (gs.get?_extend_of_lt outer label id (Nat.lt_of_lt_of_le hid h.size_le)).trans (h.get? id hid)

/-- So does a definition in a new frame. -/
theorem Within.define (h : fs.Within gs) {frame : FrameId} (hframe : fs.size ≤ frame)
    (s : Symbol) (v : Value) : fs.Within (gs.define frame s v) where
  size_le := by
    rw [size_define]
    exact h.size_le
  get? id hid :=
    (gs.get?_define_of_ne frame id s v (Nat.ne_of_lt (Nat.lt_of_lt_of_le hid hframe))).trans
      (h.get? id hid)

/-- A lookup depends on the frames from there outwards, which are older. -/
theorem lookup_congr {id : FrameId} (s : Symbol) (h : ∀ i ≤ id, gs.get? i = fs.get? i) :
    gs.lookup id s = fs.lookup id s := by
  induction id using Nat.strongRecOn with
  | ind id ih =>
      rw [lookup, lookup, h id (Nat.le_refl id)]
      cases fs.get? id with
      | none => rfl
      | some frame =>
          dsimp only
          cases frame.get? s with
          | some v => rfl
          | none =>
              cases frame.outer with
              | none => rfl
              | some outer =>
                  dsimp only
                  split
                  · next hlt => exact ih outer hlt fun i hi => h i (Nat.le_trans hi (Nat.le_of_lt hlt))
                  · rfl

theorem Within.lookup_eq (h : fs.Within gs) {id : FrameId} (hid : id < fs.size) (s : Symbol) :
    gs.lookup id s = fs.lookup id s :=
  lookup_congr s fun i hi => h.get? i (Nat.lt_of_le_of_lt hi hid)

/-- A frame that binds no symbol sees what its outer frame sees. -/
theorem lookup_of_empty {frame outer : FrameId} {label : String}
    (hframe : fs.get? frame = some { outer := some outer, label }) (houter : outer < frame)
    (s : Symbol) : fs.lookup frame s = fs.lookup outer s := by
  rw [lookup, hframe]
  exact if_pos houter

/-- The new frame is the last one. -/
theorem get?_extend_size (fs : Frames) (outer : FrameId) (label : String) :
    (fs.extend outer label).get? fs.size = some { outer := some outer, label } := by
  simp [Frames.get?, extend, size]

/-- A new frame sees what the frame around it sees. -/
theorem lookup_extend (fs : Frames) {outer : FrameId} (houter : outer < fs.size) (label : String)
    (s : Symbol) : (fs.extend outer label).lookup fs.size s = fs.lookup outer s :=
  (lookup_of_empty (fs.get?_extend_size outer label) houter s).trans
    (((Within.refl fs).extend outer label).lookup_eq houter s)

/-- A frame that sees anything has been made. -/
theorem lt_size_of_lookup {frame : FrameId} {s : Symbol} {v : Value}
    (h : fs.lookup frame s = some v) : frame < fs.size := by
  rw [lookup] at h
  cases hframe : fs.get? frame with
  | none =>
      rw [hframe] at h
      cases h
  | some found => exact lt_size_of_get? hframe

end Frames

namespace Machine

variable (m : Machine) (frame : FrameId)

/-- A name for the rest takes all values. -/
theorem destructureSequence_bind_rest {name : String}
    (hname : Symbol.intern name ≠ SpecialForm.splice.symbol) (source : Option Span)
    (values : List Value) :
    m.destructureSequence .bind frame [.named "..." [.symbol name] source] values =
      Eval.define frame (.intern name) (.ofList values) >>= fun _ => pure true := by
  rw [m.destructureSequence_cons]
  show m.destructure .bind frame (.sym (.intern name)) (.ofList values) = _
  rw [m.destructure_name .bind frame hname]

/-- Form `if` with two branches goes on with one of them. -/
theorem special_if (test yes no : Value) :
    m.special frame .branch [test, yes, no] =
      m.value frame test >>= fun v => m.toBool v >>= fun chosen =>
        m.eval frame (if chosen then yes else no) := by
  show m.evalBranch frame _ = _
  unfold evalBranch
  rw [expectOperands_bind rfl]
  dsimp only
  congr
  funext v
  congr
  funext chosen
  cases chosen <;> rfl

/-- Form `let` with one binding goes on with its body, in a frame with the binding. -/
theorem special_let (pattern form body : Value) (pairs : Option Span) :
    m.special frame .binding [.list [pattern, form] pairs, body] =
      Eval.extend frame "let" >>= fun inner => m.value inner form >>= fun v =>
        m.destructure .bind inner pattern v >>= fun _ => m.eval inner body := by
  have heven : [pattern, form].length % 2 = 0 := Nat.mod_self 2
  show m.evalBinding frame _ = _
  unfold evalBinding
  rw [expectOperands_bind rfl]
  dsimp only
  rw [if_pos heven]
  simp only [bindPairs, bind_assoc, pure_bind]
  rfl

/-- A row in a list pattern takes the elements of a list. -/
theorem destructure_bind_list (parts values : List Value) (source : Option Span) :
    m.destructure .bind frame (.named "List" parts source) (.ofList values) =
      m.destructureSequence .bind frame parts values := by
  unfold Value.named Value.symbol
  rw [destructure, if_neg (by decide), if_pos rfl]
  rfl

end Machine

namespace World

/-- The world with one more frame. -/
def opened (w : World) (outer : FrameId) (label : String) : World :=
  { w with heap := { w.heap with frames := w.heap.frames.extend outer label } }

/-- The world with one more definition. -/
def bound (w : World) (frame : FrameId) (s : Symbol) (v : Value) : World :=
  { w with heap := { w.heap with frames := w.heap.frames.define frame s v } }

/-- The same world for an evaluation that other calls have led to, at another depth. -/
def under (w : World) (calls : List Call) (depth : Nat) : World :=
  { w with calls, depth }

end World

/-! ### The relation -/

/-- The evaluation takes the first world to the second one and has this value, from
whatever calls it is made and at whatever depth, or a form is nested too deep. -/
def TakesTo (x : Machine → Eval α) (w : World) (a : α) (u : World) : Prop :=
  ∀ calls depth, Settles x (w.under calls depth) a (u.under calls depth)

namespace TakesTo

variable {x : Machine → Eval α} {k : Machine → α → Eval β} {w u w' : World} {a : α} {b : β}
  {frame : FrameId}

/-- What the machine has no part in, nor the place where the evaluation stands. -/
theorem of_run (h : ∀ m calls depth, x m (w.under calls depth) = (.ok a, u.under calls depth)) :
    TakesTo x w a u :=
  fun calls depth => .of_run fun m => h m calls depth

theorem pure (a : α) (w : World) : TakesTo (fun _ => Pure.pure a) w a w :=
  of_run fun _ _ _ => rfl

/-- The same evaluation in other words. -/
theorem congr {y : Machine → Eval α} (h : TakesTo y w a u) (heq : ∀ m, x m = y m) :
    TakesTo x w a u :=
  fun calls depth => (h calls depth).congr fun m => congrFun (heq m) _

theorem bind (hx : TakesTo x w a u) (hk : TakesTo (fun m => k m a) u b w') :
    TakesTo (fun m => x m >>= k m) w b w' :=
  fun calls depth => (hx calls depth).bind (hk calls depth)

theorem inCall (call : Call) (hx : TakesTo x w a u) :
    TakesTo (fun m => Eval.inCall call (x m)) w a u :=
  fun calls depth => Settles.inCall (w := w.under calls depth) call (hx (call :: calls) depth)

theorem form {x : Machine → Eval Value} {v : Value} (source : Option Span)
    (hx : TakesTo x w v u) :
    TakesTo (fun m => Eval.nested (Eval.inForm source (x m))) w v u :=
  fun calls depth => Settles.form (w := w.under calls depth) source (hx calls (depth + 1))

theorem eval {form v : Value} (h : TakesTo (fun m => m.evalStep frame form) w v u) :
    TakesTo (fun m => m.eval frame form) w v u :=
  fun calls depth => (h calls depth).eval

theorem value {form v : Value} (h : TakesTo (fun m => m.eval frame form) w v u) :
    TakesTo (fun m => m.value frame form) w v u :=
  fun calls depth => (h calls depth).value

/-- A call is what its step leads to. -/
theorem apply {source : Option Span} {callee v : Value} {args : List Value} {next : Next}
    (hstep : TakesTo (fun m => m.applyStep source callee args) w next u)
    (hnext : TakesTo (fun m => m.follow next) u v w') :
    TakesTo (fun m => m (.apply source callee args)) w v w' :=
  fun calls depth => .apply (hstep.bind hnext calls depth)

/-! ### Names and constants -/

/-- A form that is its own value. -/
theorem constant {form : Value} (h : ∀ m : Machine, m.evalStep frame form = Pure.pure form) :
    TakesTo (fun m => m.eval frame form) w form w :=
  .eval ((pure form w).congr h)

theorem name {s : Symbol} {v : Value} (h : w.heap.frames.lookup frame s = some v) :
    TakesTo (fun m => m.eval frame (.sym s)) w v w := by
  refine .eval (of_run fun m calls depth => ?_)
  have hlookup : (w.under calls depth).heap.frames.lookup frame s = some v := h
  unfold Machine.evalStep
  dsimp only
  rw [Eval.bind_ask, hlookup]
  rfl

/-! ### Calls -/

/-- The operands of a call that are no spreads, one by one. -/
theorem operands_cons {form v : Value} {forms args : List Value}
    (hspread : form.spreadOperand? = none) (hmarker : form.isSpliceMarker = false)
    (hform : TakesTo (fun m => m.eval frame form) w v u)
    (hrest : TakesTo (fun m => m.operands frame forms) u args w') :
    TakesTo (fun m => m.operands frame (form :: forms)) w (v :: args) w' := by
  have heq : ∀ m : Machine, m.operands frame (form :: forms) =
      m.value frame form >>= fun v => m.operands frame forms >>= fun args =>
        Pure.pure (v :: args) := by
    intro m
    rw [Machine.operands.eq_def]
    dsimp only
    rw [hspread]
    dsimp only
    rw [hmarker]
    rfl
  exact (hform.value.bind (hrest.bind (pure (v :: args) w'))).congr heq

theorem operands_nil : TakesTo (fun m => m.operands frame []) w [] w :=
  (pure [] w).congr fun m => by rw [Machine.operands]

/-- The call of a builtin that the head names. -/
theorem call {head : String} {callee v : Value} {forms args : List Value} {source : Option Span}
    (isCall : Value.headForm? [.symbol head] = none)
    (hhead : w.Sees frame head callee)
    (hcallee : ∀ id, callee ≠ .closure id)
    (hargs : TakesTo (fun m => m.operands frame forms) w args u)
    (happly : TakesTo (fun m => m (.apply source callee args)) u v w') :
    TakesTo (fun m => m.eval frame (.named head forms source)) w v w' := by
  have hwith : TakesTo (fun m => m.callWith frame forms source callee) w v w' := by
    have heq : ∀ m : Machine, m.callWith frame forms source callee =
        m.operands frame forms >>= fun args => m (.apply source callee args) := by
      intro m
      unfold Machine.callWith Machine.expander?
      cases callee with
      | closure id => exact absurd rfl (hcallee id)
      | _ => rfl
    exact (hargs.bind happly).congr heq
  exact .eval (((name hhead).value.bind hwith |>.form source).congr fun m =>
    m.evalStep_call frame forms source isCall)

/-- The call of a builtin on arguments. -/
theorem builtin {b : Builtin} {v : Value} {args : List Value} {source : Option Span}
    (h : TakesTo (fun m => m.callBuiltin b args) w v u) :
    TakesTo (fun m => m (.apply source (.builtin b) args)) w v u :=
  .apply ((h.inCall ⟨b.name, source⟩).bind (pure (Next.done v) u)) (pure v u)

/-- The call of a core interface that has its core implementation for the arguments. -/
theorem interface {i : CoreInterface} {op : CoreOp} {v : Value} {args : List Value}
    {source : Option Span} (himp : w.Implements i (args.map Value.tag) op)
    (h : TakesTo (fun m => m.callBuiltin (.core op) args) w v u) :
    TakesTo (fun m => m (.apply source (.interface i.id) args)) w v u := by
  obtain ⟨interface, hfound, harity, himplementation⟩ := himp
  rw [List.length_map] at harity
  have hselect : TakesTo (fun m => Machine.implementationFor i.id args) w
      (.builtin (.core op)) w := by
    refine of_run fun m calls depth => ?_
    have hinterface : (w.under calls depth).heap.interfaces[i.id]? = some interface := hfound
    unfold Machine.implementationFor
    simp only [hinterface]
    rw [if_neg (by omega), harity, List.take_length, himplementation]
  exact .apply (hselect.bind (pure (Next.again (.apply none _ args)) w)) (builtin h)

/-- The call by name of a core interface on one operand. -/
theorem core {i : CoreInterface} {op : CoreOp} {head : String} {form v result : Value}
    {source : Option Span} (isCall : Value.headForm? [.symbol head] = none)
    (hhead : w.Sees frame head (.interface i.id))
    (himp : w.Implements i [v.tag] op) (hspread : form.spreadOperand? = none)
    (hmarker : form.isSpliceMarker = false) (hform : TakesTo (fun m => m.eval frame form) w v w)
    (hop : ∀ m : Machine, m.callBuiltin (.core op) [v] = Pure.pure result) :
    TakesTo (fun m => m.eval frame (.named head [form] source)) w result w :=
  call isCall hhead (fun _ => nofun) (operands_cons hspread hmarker hform operands_nil)
    (interface himp ((pure result w).congr hop))

/-! ### Special forms -/

theorem special {f : SpecialForm} {ops : List Value} {v : Value} {source : Option Span}
    (h : TakesTo (fun m => m.special frame f ops) w v u) :
    TakesTo (fun m => m.eval frame (f.write ops source)) w v u :=
  .eval ((h.form source).congr fun m => m.evalStep_special frame f ops source)

/-- Form `if` with a test that has a truth value. -/
theorem branch {test yes no v : Value} {chosen : Bool} {source : Option Span}
    (htest : TakesTo (fun m => m.eval frame test) w (.bool chosen) u)
    (hchosen : TakesTo (fun m => m.eval frame (if chosen then yes else no)) u v w') :
    TakesTo (fun m => m.eval frame (.named "if" [test, yes, no] source)) w v w' :=
  special (f := .branch) ((htest.value.bind ((pure chosen u).bind hchosen)).congr fun m =>
    m.special_if frame test yes no)

/-- Form `let` with one binding and one form. -/
theorem binding {pattern form body v v' : Value} {pairs source : Option Span}
    (hform : TakesTo (fun m => m.eval w.heap.frames.size form) (w.opened frame "let") v u)
    {u' : World} {fits : Bool}
    (hpattern : TakesTo (fun m => m.destructure .bind w.heap.frames.size pattern v) u fits u')
    (hbody : TakesTo (fun m => m.eval w.heap.frames.size body) u' v' w') :
    TakesTo (fun m => m.eval frame (.named "let" [.list [pattern, form] pairs, body] source))
      w v' w' := by
  have hframe : TakesTo (fun _ => Eval.extend frame "let") w w.heap.frames.size
      (w.opened frame "let") := of_run fun _ _ _ => rfl
  exact special (f := .binding)
    ((hframe.bind (hform.value.bind (hpattern.bind hbody))).congr fun m =>
      m.special_let frame pattern form body pairs)

/-! ### Templates -/

/-- Form `quasi-quote`: a template, filled in. -/
theorem quasiQuote {template v : Value} {source : Option Span}
    (h : TakesTo (fun m => m.fill frame template) w v u) :
    TakesTo (fun m => m.eval frame (.named "quasi-quote" [template] source)) w v u :=
  special (f := .quasiQuote) (h.congr fun _ => Machine.expectOperands_bind rfl _)

/-- A hole. -/
theorem fill_unquote {form v : Value} {source : Option Span}
    (h : TakesTo (fun m => m.eval frame form) w v u) :
    TakesTo (fun m => m.fill frame (.named "unquote" [form] source)) w v u :=
  h.value.congr fun m => by
    unfold Value.named
    rw [Machine.fill]
    rfl

/-- What is no list stands for itself. -/
theorem fill_literal {v : Value} (h : ∀ m : Machine, m.fill frame v = Pure.pure v) :
    TakesTo (fun m => m.fill frame v) w v w :=
  (pure v w).congr h

theorem fill_list {items forms : List Value} {source : Option Span}
    (hvalue : Value.headForm? items ≠ some .unquote)
    (helements : Value.headForm? items ≠ some .unquoteSplice)
    (hitems : TakesTo (fun m => m.fillItems frame items) w forms u) :
    TakesTo (fun m => m.fill frame (.list items source)) w (.list forms source) u := by
  have heq : ∀ m : Machine, m.fill frame (.list items source) =
      m.fillItems frame items >>= fun forms => Pure.pure (.list forms source) := by
    intro m
    rw [Machine.fill]
    split
    · exact absurd ‹_› hvalue
    · exact absurd ‹_› helements
    · rfl
  exact (hitems.bind (pure (Value.list forms source) u)).congr heq

theorem fillItems_nil : TakesTo (fun m => m.fillItems frame []) w [] w :=
  (pure [] w).congr fun m => by rw [Machine.fillItems]

theorem fillItems_cons {item form : Value} {items forms : List Value}
    (hplain : ∀ operands source, item ≠ .named "unquote-splice" operands source)
    (hitem : TakesTo (fun m => m.fill frame item) w form u)
    (hitems : TakesTo (fun m => m.fillItems frame items) u forms w') :
    TakesTo (fun m => m.fillItems frame (item :: items)) w (form :: forms) w' := by
  have heq : ∀ m : Machine, m.fillItems frame (item :: items) =
      m.fill frame item >>= fun form => m.fillItems frame items >>= fun forms =>
        Pure.pure (form :: forms) := by
    intro m
    rw [Machine.fillItems.eq_def]
    dsimp only
    split
    · next s operands source =>
        split
        · next hs => exact absurd (hs ▸ rfl) (hplain operands source)
        · rfl
    · rfl
  exact (hitem.bind (hitems.bind (pure (form :: forms) w'))).congr heq

/-- A call of what a name stands for. -/
theorem fill_named {head : String} {items forms : List Value} {source : Option Span}
    (hvalue : Value.headForm? [.symbol head] ≠ some .unquote)
    (helements : Value.headForm? [.symbol head] ≠ some .unquoteSplice)
    (hitems : TakesTo (fun m => m.fillItems frame items) w forms u) :
    TakesTo (fun m => m.fill frame (.named head items source)) w (.named head forms source) u :=
  fill_list hvalue helements (fillItems_cons (fun _ _ => nofun) (fill_literal fun _ => rfl) hitems)

/-- The elements of a list are put in the place of the last hole. -/
theorem fillItems_splice {form : Value} {spliced : List Value} {source span : Option Span}
    (h : TakesTo (fun m => m.eval frame form) w (.list spliced span) u) :
    TakesTo (fun m => m.fillItems frame [.named "unquote-splice" [form] source]) w spliced u := by
  have heq : ∀ m : Machine, m.fillItems frame [.named "unquote-splice" [form] source] =
      m.value frame form >>= fun v => m.iterate v := by
    intro m
    have hrest : m.fillItems frame [] = Pure.pure [] := by rw [Machine.fillItems]
    have hsplice : m.fillItems frame [.named "unquote-splice" [form] source] =
        m.value frame form >>= fun v => m.iterate v >>= fun spliced =>
          m.fillItems frame [] >>= fun rest => Pure.pure (spliced ++ rest) := by
      unfold Value.named Value.symbol
      rw [Machine.fillItems]
      rfl
    rw [hsplice, hrest]
    simp only [pure_bind, List.append_nil, bind_pure]
  have hiterate : TakesTo (fun m => m.iterate (.list spliced span)) u spliced u :=
    pure spliced u
  exact (h.value.bind hiterate).congr heq

/-! ### Macro calls -/

/-- A macro with a parameter for all operands evaluates its only form where the parameter
is bound to them. -/
theorem closure {id : ClosureId} {c : Closure} {name : String} {body v : Value}
    {operands : List Value} {source span : Option Span}
    (hid : w.heap.closures[id]? = some c)
    (hname : Symbol.intern name ≠ SpecialForm.splice.symbol)
    (hparams : c.params = [.named "..." [.symbol name] span]) (hbody : c.body = [body])
    (hexpands : c.expands = true)
    (h : TakesTo (fun m => m.eval w.heap.frames.size body)
      ((w.opened c.frame "macro").bound w.heap.frames.size (.intern name) (.ofList operands))
      v u) :
    TakesTo (fun m => m (.apply source (.closure id) operands)) w v u := by
  have hframe : TakesTo (fun _ => Eval.extend c.frame "macro") w w.heap.frames.size
      (w.opened c.frame "macro") := of_run fun _ _ _ => rfl
  have hdefine : TakesTo (fun _ => Eval.define w.heap.frames.size (.intern name)
      (.ofList operands)) (w.opened c.frame "macro") ()
      ((w.opened c.frame "macro").bound w.heap.frames.size (.intern name) (.ofList operands)) :=
    of_run fun _ _ _ => rfl
  have heq : ∀ m : Machine, m.runClosure c none operands =
      Eval.extend c.frame "macro" >>= fun frame =>
        Eval.define frame (.intern name) (.ofList operands) >>= fun _ => m.eval frame body := by
    intro m
    unfold Machine.runClosure
    rw [hparams, hbody, hexpands]
    simp only [m.destructureSequence_bind_rest _ hname, bind_assoc, pure_bind]
    rfl
  have hrun := (hframe.bind (hdefine.bind h)).congr heq
  have hcall : TakesTo (fun m => m.callClosure source id none operands) w (.done v) u := by
    intro calls depth
    obtain ⟨i, hi⟩ := hrun.inCall ⟨c.displayName, source⟩ calls depth
    refine ⟨i, fun n hn => ?_⟩
    have hclosure : (w.under calls depth).heap.closures[id]? = some c := hid
    have hanswer := hi n hn
    dsimp only at hanswer ⊢
    unfold Machine.callClosure
    simp only [hclosure]
    rcases hcalled : Eval.inCall ⟨c.displayName, source⟩ ((run n).runClosure c none operands)
      (w.under calls depth) with ⟨answer, u'⟩
    rw [hcalled] at hanswer
    rcases hanswer with hvalue | hdeep
    · cases hvalue
      exact .inl rfl
    · cases answer with
      | failed f =>
          obtain ⟨limit, hlimit⟩ := hdeep
          dsimp only
          rw [hlimit]
          exact .inr ⟨limit, hlimit⟩
      | _ => exact hdeep.elim
  exact .apply hcall (pure v u)

end TakesTo

end Lisp
