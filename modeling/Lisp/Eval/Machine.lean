import Lisp.Eval.Builtin.Core
import Lisp.Eval.Builtin.Number
import Lisp.Eval.Builtin.Sequence
import Lisp.Eval.Builtin.System
import Lisp.Eval.Special

/-!
# The machine with fuel

`Machine.step` answers a request by means of a machine for the requests inside
it.  It either has the value at once or names a request whose value is the
answer: that is how a recur becomes a loop, and calls through interfaces and
conversions cost no room.  `run` is the machine whose requests have `fuel` turns
left; running out of fuel is an answer of its own, neither value nor failure.
-/

namespace Lisp

/-- What one step comes to: a value, or the request to go on with. -/
inductive Next where
  | done (v : Value)
  | again (r : Request)
  deriving Inhabited

namespace Machine

variable (m : Machine)

/-- The value of a builtin on arguments whose number it accepts. -/
def callBuiltin (b : Builtin) (args : List Value) : Eval Value :=
  if b.arity.accepts args.length then
    match b with
    | .type op => callType op args
    | .number op => m.callNumber op args
    | .sequence op => m.callSequence op args
    | .error op => m.callError op args
    | .reflection op => m.callReflection op args
    | .system op => m.callSystem op args
    | .core op => m.callCore op args
  else Eval.fail (.argumentCount b.name b.arity args.length)

/-- The value of a closure's body, in a new frame with the parameters bound and
`this` bound to a receiver. -/
def runClosure (c : Closure) (receiver : Option Value) (args : List Value) : Eval Value := do
  let frame ← Eval.extend c.frame (if c.expands then "macro" else "proc")
  if let some v := receiver then Eval.define frame (.intern "this") v
  let _ ← m.destructureSequence .bind frame c.params args
  m.body frame c.body

/-- Applies a closure.  A recur out of its body is the call to go on with. -/
def callClosure (source : Option Span) (id : ClosureId) (receiver : Option Value)
    (args : List Value) : Eval Next := fun w =>
  match w.heap.closures[id]? with
  | none => (.ok (.done .nil), w)
  | some c =>
    match Eval.inCall ⟨c.displayName, source⟩ (m.runClosure c receiver args) w with
    | (.ok v, w) => (.ok (.done v), w)
    | (.failed f, w) =>
      match f.cause with
      | .recur target args => (.ok (.again (.apply source target args)), w)
      | _ => (.failed f, w)
    | (.outOfFuel, w) => (.outOfFuel, w)

/-- The implementation that an interface selects for arguments. -/
def implementationFor (id : InterfaceId) (args : List Value) : Eval Value := fun w =>
  match w.heap.interfaces[id]? with
  | none => (.ok .nil, w)
  | some i =>
    if args.length < i.arity then
      (.failed (.dispatchArguments i.name.name i.arity i.signature args.length), w)
    else
      let leading := args.take i.arity
      let key := leading.map Value.tag
      match i.implementation? key with
      | some imp => (.ok imp, w)
      | none =>
        let known := (w.heap.implementedKeys i).map (w.heap.describeKey i.name)
        (.failed (.notImplemented (w.heap.describeKey i.name key)
          (" ".intercalate (leading.map (·.print w.heap))) i.name.name
          (" ".intercalate (key.map w.heap.typeName)) known), w)

/-- One step of a call. -/
def applyStep (source : Option Span) (callee : Value) (args : List Value) : Eval Next := do
  match callee with
  | .closure id => m.callClosure source id none args
  | .builtin b => return .done (← Eval.inCall ⟨b.name, source⟩ (m.callBuiltin b args))
  | .accessor _ way subject =>
    return .done (← Eval.inCall ⟨way.name, source⟩ (m.callAccessor way subject args))
  | .bound receiver target =>
    match target with
    | .closure id => m.callClosure source id (some receiver) args
    | .builtin b =>
      return .done (← Eval.inCall ⟨b.name, source⟩ (m.callBuiltin b (receiver :: args)))
    | .accessor _ way subject =>
      return .done
        (← Eval.inCall ⟨way.name, source⟩ (m.callAccessor way subject (receiver :: args)))
    | other => return .again (.apply source other args)
  | .type tag => return .done (← m.construct tag args)
  | .interface id => return .again (.apply none (← implementationFor id args) args)
  | other => return .again (.apply source (← m.toCallable other) args)

/-- One turn through a sequence that a program defines. -/
def unfoldStep (sequence : Value) (taken : List Value) : Eval Next := do
  if ← m.dispatchBool .isEmpty [sequence] then return .done (.ofList taken.reverse)
  else
    let item ← m.dispatch .first [sequence]
    match ← m.dispatch .rest [sequence] with
    | .nil => return .done (.ofList (item :: taken).reverse)
    | rest => return .again (.unfold rest (item :: taken))

/-- The value of a list form: a special form, a macro call or a call. -/
def evalList (frame : FrameId) (head : Value) (rest : List Value) (source : Option Span) :
    Eval Value := do
  match Value.headForm? [head] with
  | some form => m.special frame form rest
  | none =>
    let callee ← m.value frame head
    match ← expander? callee with
    | some id =>
      let expansion ← m.expand id rest source
      m.eval frame expansion
    | none =>
      let args ← m.operands frame rest
      m (.apply source callee args)

/-- The value of a form: symbols are looked up, non-empty lists are calls, and
everything else is its own value. -/
def evalStep (frame : FrameId) (form : Value) : Eval Value := do
  match form with
  | .sym s =>
    match ← Eval.ask fun w => w.heap.frames.lookup frame s with
    | some v => return v
    | none => Eval.fail (.unboundSymbol s.name)
  | .list (head :: rest) source =>
    Eval.nested (Eval.inForm source (m.evalList frame head rest source))
  | other => return other

/-- Answers a request by means of a machine for the requests inside it. -/
def step : Request → Eval Next
  | .eval frame form => do return .done (← m.evalStep frame form)
  | .apply source callee args => m.applyStep source callee args
  | .unfold sequence taken => m.unfoldStep sequence taken

end Machine

/-- The machine whose requests have `fuel` turns left. -/
def run : (fuel : Nat) → Machine
  | 0, _ => fun w => (.outOfFuel, w)
  | fuel + 1, request => fun w =>
    match Machine.step (run fuel) request w with
    | (.ok (.done v), w) => (.ok v, w)
    | (.ok (.again next), w) => run fuel next w
    | (.failed f, w) => (.failed f, w)
    | (.outOfFuel, w) => (.outOfFuel, w)

end Lisp
