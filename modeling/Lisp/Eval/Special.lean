import Lisp.Eval.Construct
import Lisp.Eval.Template

/-!
# Special forms

One definition per special form, each given its operands and the frame it is
evaluated in.  A form that binds names for its own body makes a new frame for
them; only `def`, `def-type` and `def-interface` change the frame they stand
in.
-/

namespace Lisp

/-- A failure as the value that a handler binds: the thrown value itself, or an
error value that tells what happened. -/
def Eval.reify (f : Failure) : Eval Value :=
  match f.cause with
  | .thrown value => pure value
  | cause => do
    let message ← Eval.ask fun w => f.message w.heap
    Eval.newError message .nil (some cause.name) (some (f.context.calls.map Call.describe))

namespace Machine

variable (m : Machine) (frame : FrameId)

/-- A special form takes a number of operands. -/
def expectOperands (form : SpecialForm) (arity : Arity) (ops : List Value) : Eval Unit :=
  if arity.accepts ops.length then pure ()
  else Eval.fail (.operandCount form.name arity ops.length)

/-- Form `def`: binds a name in this frame, and names a closure that has none. -/
def evalDefine : List Value → Eval Value
  | [.sym name, form] => do
    let v ← m.value frame form
    if let .closure id := v then Eval.changeHeap (·.nameClosure id name)
    Eval.define frame name v
    return v
  | [other, _] => Eval.failShowing other (.expectsGot "def expects a symbol name")
  | ops => Eval.fail (.operandCount "def" (.exactly 2) ops.length)

/-- Form `if`: the branch that the truth of the test selects, nil if it is not
there. -/
def evalBranch (ops : List Value) : Eval Value := do
  expectOperands .branch (.between 0 3) ops
  match ops with
  | [] => return .nil
  | test :: branches =>
    let chosen ← m.toBool (← m.value frame test)
    match (if chosen then branches[0]? else branches[1]?) with
    | some form => m.eval frame form
    | none => return .nil

/-- Binds the patterns of a `let` one after another, each seeing those before
it. -/
def bindPairs (inner : FrameId) : List Value → Eval Unit
  | pattern :: form :: rest => do
    let v ← m.value inner form
    let _ ← m.destructure .bind inner pattern v
    bindPairs inner rest
  | _ => return ()

/-- Form `let`: a body in a new frame with the bindings made first. -/
def evalBinding (ops : List Value) : Eval Value := do
  expectOperands .binding (.atLeast 1) ops
  match ops with
  | .list bindings _ :: forms =>
    if bindings.length % 2 = 0 then
      let inner ← Eval.extend frame "let"
      m.bindPairs inner bindings
      m.body inner forms
    else Eval.fail .unpairedBindings
  | other :: _ => Eval.failShowing other (.expectsGot "let expects a list of bindings")
  | [] => return .nil

/-- Forms `proc` and `macro`: a new closure over this frame. -/
def evalClosure (form : SpecialForm) (expands : Bool) (ops : List Value) : Eval Value := do
  expectOperands form (.atLeast 1) ops
  match ops with
  | .list params _ :: body => fun w =>
    let closure : Closure := { params, body, frame, expands }
    (.ok (.closure w.heap.closures.size),
      { w with heap := { w.heap with closures := w.heap.closures.push closure } })
  | other :: _ =>
    Eval.failShowing other (.expectsGot (form.name ++ " expects a parameter list"))
  | [] => return .nil

/-- Form `macro-expand`: the expansion of a macro call, not evaluated. -/
def evalExpand (ops : List Value) : Eval Value := do
  expectOperands .expand (.exactly 1) ops
  match ops with
  | .list (head :: operands) source :: _ =>
    let callee ← m.value frame head
    match ← expander? callee with
    | some id => m.expand id operands source
    | none => Eval.failShowing callee .notAMacro
  | other :: _ => Eval.failShowing other (.expectsGot "macro-expand expects a macro call")
  | [] => return .nil

/-- The operands of the `catch` clause that ends a `try`, and the forms before
it. -/
def handlerOf? (ops : List Value) : Option (List Value × List Value) :=
  match ops.getLast? with
  | some (.list (.sym s :: handler) _) =>
    if s = SpecialForm.handler.symbol then some (ops.dropLast, handler) else none
  | _ => none

/-- Runs a handler on a failure: binds what happened and evaluates its body in a
new frame. -/
def handle (handler : List Value) (f : Failure) : Eval Value := do
  let caught ← Eval.reify f
  match handler with
  | [] => Eval.fail .handlerWithoutPattern
  | pattern :: forms =>
    let inner ← Eval.extend frame "catch"
    let _ ← m.destructure .bind inner pattern caught
    m.body inner forms

/-- Form `try`: a body whose failure a handler may take.  A recur passes by. -/
def evalAttempt (ops : List Value) : Eval Value :=
  match handlerOf? ops with
  | none => m.body frame ops
  | some (forms, handler) => fun w =>
    match m.body frame forms w with
    | (.failed f, w) =>
      if f.cause.isRecur then (.failed f, w) else m.handle frame handler f w
    | other => other

/-- Form `throw`: fails with a value.  An error value keeps the call stack of its
first throw. -/
def evalThrow (ops : List Value) : Eval Value := do
  expectOperands .throwing (.exactly 1) ops
  let v ← m.value frame (ops.headD .nil)
  let calls ← Eval.ask (·.calls)
  if let .error serial .. := v then
    Eval.changeHeap (·.attachStack serial (calls.map Call.describe))
  Eval.fail { cause := .thrown v, context := { calls } }

/-- Form `recur`: a call handed to the procedure application around it. -/
def evalRecur (ops : List Value) : Eval Value := do
  expectOperands .recurring (.exactly 1) ops
  match ops with
  | .list (head :: operands) _ :: _ =>
    let target ← m.value frame head
    let args ← m.operands frame operands
    Eval.fail { cause := .recur target args }
  | other :: _ => Eval.failShowing other .recurNeedsCall
  | [] => return .nil

/-- The result of the first clause whose pattern takes the value. -/
def selectClause (v : Value) : List Value → Eval Value
  | pattern :: result :: rest => do
    let inner ← Eval.extend frame "match"
    if ← m.destructure .test inner pattern v then m.eval inner result
    else selectClause v rest
  | _ => Eval.failShowing v .noPatternMatched

/-- Form `match`: the result of the first clause that fits, in a frame of its own. -/
def evalSelection (ops : List Value) : Eval Value := do
  expectOperands .selection (.atLeast 1) ops
  match ops with
  | [] => return .nil
  | subject :: clauses =>
    let v ← m.value frame subject
    if clauses.length % 2 = 0 then m.selectClause frame v clauses
    else Eval.fail .unpairedClauses

/-- The symbols of a list of symbols. -/
def symbolsOf (form : SpecialForm) : List Value → Eval (List Symbol)
  | [] => return []
  | .sym s :: rest => do
    let others ← symbolsOf form rest
    return s :: others
  | other :: _ => Eval.failShowing other (.expectsGot (form.name ++ " expects symbols"))

/-- The symbols of a form that must be a list of symbols. -/
def symbolList (form : SpecialForm) : Value → Eval (List Symbol)
  | .list items _ => symbolsOf form items
  | other => Eval.failShowing other (.expectsGot (form.name ++ " expects a list of symbols"))

/-- Form `def-type`: declares a new record type. -/
def evalRecordType (ops : List Value) : Eval Value := do
  expectOperands .recordType (.exactly 1) ops
  match ← symbolList .recordType (ops.headD .nil) with
  | [] => Eval.fail .namelessType
  | name :: fields =>
    let id ← Eval.ask (·.heap.recordTypes.size)
    Eval.changeHeap fun h => { h with recordTypes := h.recordTypes.push { name, fields } }
    Eval.define frame name (.type (.record id))
    return .type (.record id)

/-- The value of an operand that may be left out or be nil. -/
def optional : Option Value → Eval (Option Value)
  | none => return none
  | some form => do
    match ← m.value frame form with
    | .nil => return none
    | v => return some v

/-- Form `def-interface`: declares a new interface, with an optional default and an
optional hook. -/
def evalInterface (ops : List Value) : Eval Value := do
  expectOperands .interface (.between 1 3) ops
  match ← symbolList .interface (ops.headD .nil) with
  | [] => Eval.fail .namelessInterface
  | name :: params =>
    if params.isEmpty then Eval.fail (.interfaceWithoutParams name.name)
    else
      let fallback ← m.optional frame ops[1]?
      let hook ← m.optional frame ops[2]?
      let id ← Eval.ask (·.heap.interfaces.size)
      let interface : Interface :=
        { name, params, fallback, hook := hook.map .procedure }
      Eval.changeHeap fun h => { h with interfaces := h.interfaces.push interface }
      Eval.define frame name (.interface id)
      return .interface id

/-- The tags that a list of type forms denotes. -/
def typesOf : List Value → Eval (List TypeTag)
  | [] => return []
  | form :: rest => do
    match ← m.value frame form with
    | .type tag => return tag :: (← typesOf rest)
    | other => Eval.failShowing other (.expectsGot "def-impl expects types")

/-- What follows the registration of an implementation. -/
def runHook (hook : Option Hook) (key : List TypeTag) (imp : Value) : Eval Unit := do
  match hook, key with
  | some .recordHash, [.record ty] => Eval.changeHeap (·.setHash ty imp)
  | some .recordEquality, [.record a, .record b] =>
    if a = b then Eval.changeHeap (·.setEquality a imp)
  | some (.procedure p), key =>
    let _ ← m.call p [.ofList (key.map .type), imp]
  | _, _ => return ()

/-- Registers an implementation and runs the hook of its interface. -/
def implement (id : InterfaceId) (key : List TypeTag) (imp : Value) : Eval Unit := do
  match ← Eval.interface? id with
  | none => return ()
  | some interface =>
    if key.length = interface.arity then
      Eval.changeHeap (·.register id key imp)
      m.runHook interface.hook key imp
    else
      let described ← Eval.ask fun w => w.heap.describeKey interface.name key
      Eval.fail (.nonconformingKey described interface.signature)

/-- Form `def-impl`: an implementation of an interface for a tuple of types. -/
def evalImplementation (ops : List Value) : Eval Value := do
  expectOperands .implementation (.exactly 3) ops
  match ops with
  | [interfaceForm, typeForms, form] =>
    match ← m.value frame interfaceForm with
    | .interface id =>
      match typeForms with
      | .list types _ =>
        let key ← m.typesOf frame types
        let imp ← m.value frame form
        m.implement id key imp
        return imp
      | other => Eval.failShowing other (.expectsGot "def-impl expects a list of types")
    | other => Eval.failShowing other (.expectsGot "def-impl expects an interface")
  | _ => return .nil

/-- The last member of a chain of keys together with the value it was taken
from. -/
def memberChain (target : Value) (receiver : Option Value) :
    List Value → Eval (Value × Option Value)
  | [] => return (target, receiver)
  | keyForm :: rest => do
    let key ← match keyForm with
      | .list .. => m.value frame keyForm
      | literal => pure literal
    let next ← m.member target key
    memberChain next (some target) rest

/-- Form `.`: a member reached through a chain of keys.  A procedure is bound to the
value it was taken from. -/
def evalMember (ops : List Value) : Eval Value := do
  expectOperands .member (.atLeast 1) ops
  match ops with
  | [] => return .nil
  | first :: keys =>
    let start ← m.value frame first
    let (target, receiver) ← m.memberChain frame start none keys
    match receiver, target with
    | some receiver, .closure _ => return .bound receiver target
    | some receiver, .builtin _ => return .bound receiver target
    | some receiver, .accessor .. => return .bound receiver target
    | _, _ => return target

/-- The value of a special form with the given operands. -/
def special (form : SpecialForm) (ops : List Value) : Eval Value :=
  match form with
  | .define => m.evalDefine frame ops
  | .branch => m.evalBranch frame ops
  | .sequence => m.body frame ops
  | .binding => m.evalBinding frame ops
  | .procedure => evalClosure frame .procedure false ops
  | .expander => evalClosure frame .expander true ops
  | .expand => m.evalExpand frame ops
  | .quote => do
    expectOperands .quote (.exactly 1) ops
    return ops.headD .nil
  | .quasiQuote => do
    expectOperands .quasiQuote (.exactly 1) ops
    m.fill frame (ops.headD .nil)
  | .unquote => Eval.fail (.strayUnquote "unquote")
  | .unquoteSplice => Eval.fail (.strayUnquote "unquote-splice")
  | .splice => Eval.fail .straySplice
  | .attempt => m.evalAttempt frame ops
  | .handler => Eval.fail .strayHandler
  | .throwing => m.evalThrow frame ops
  | .recurring => m.evalRecur frame ops
  | .selection => m.evalSelection frame ops
  | .recordType => evalRecordType frame ops
  | .interface => m.evalInterface frame ops
  | .implementation => m.evalImplementation frame ops
  | .member => m.evalMember frame ops

end Machine

end Lisp
