import Lisp.Eval.Construct

/-!
# Builtins on types, interfaces and errors, and the core implementations

The core implementations give the core interfaces a meaning for builtin types:
truth, numbers from truth values and texts, keywords, maps and lists as
procedures, and the sequence interfaces of lists and nil.
-/

namespace Lisp

namespace Machine

variable (m : Machine)

/-- The tags of values that must all be types. -/
def typeArguments : List Value → Eval (List TypeTag)
  | [] => return []
  | .type tag :: rest => do
    let others ← typeArguments rest
    return tag :: others
  | other :: _ => Eval.failShowing other (.expectsGot "impl? expects types")

/-- The value of a builtin on types and interfaces. -/
def callType (op : TypeOp) (args : List Value) : Eval Value := do
  match op, args with
  | .typeOf, [v] => return .type v.tag
  | .typeName, [.type tag] => return .str (← Eval.typeName tag)
  | .typeName, [other] => Eval.failShowing other .notATypeName
  | .assertType, [.type expected, v] =>
    if v.tag = expected then return v
    else
      let type ← Eval.typeName expected
      Eval.failShowing v (.assertionFailed type)
  | .assertType, [other, _] =>
    Eval.failShowing other (.expectsGot "assert-type expects a type")
  | .isImplemented, .interface id :: types =>
    let key ← typeArguments types
    let interface ← Eval.interface? id
    return .bool (interface.bind (·.registered? key)).isSome
  | .isImplemented, other :: _ =>
    Eval.failShowing other (.expectsGot "impl? expects an interface")
  | .interfaceName, [.interface id] =>
    let interface ← Eval.interface? id
    return .str ((interface.map (·.name.name)).getD "")
  | .interfaceName, [other] =>
    Eval.failShowing other (.expectsGot "interface-name expects an interface")
  | .interfaceSignature, [.interface id] =>
    let interface ← Eval.interface? id
    return .ofList ((interface.map fun i => (i.name :: i.params).map .sym).getD [])
  | .interfaceSignature, [other] =>
    Eval.failShowing other (.expectsGot "interface-signature expects an interface")
  | op, args => Eval.fail (.argumentCount op.name op.arity args.length)

/-- The kind of an error value, from an optional argument. -/
def errorKind : Option Value → Eval (Option String)
  | none => return none
  | some v => do return some (← Eval.toKeyword v)

/-- The value of a builtin on error values. -/
def callError (op : ErrorOp) (args : List Value) : Eval Value := do
  match op, args with
  | .make, args =>
    let message ← m.errorMessage args
    let kind ← errorKind args[2]?
    Eval.newError message ((args[1]?).getD .nil) kind none
  | .isError, [v] => return .bool (v.tag == .error)
  | .message, [.error _ message _ _] => return .str message
  | .data, [.error _ _ data _] => return data
  | .stack, [.error serial _ _ _] =>
    Eval.ask fun w => .ofList (((w.heap.stack? serial).getD []).map .str)
  | .kind, [.error _ _ _ kind] => return (kind.map Value.keyword).getD .nil
  | op, [other] => Eval.failShowing other (.expectsGot (op.name ++ " expects an Error"))
  | op, args => Eval.fail (.argumentCount op.name op.arity args.length)

/-- A procedure that looks something up with or in a value. -/
def accessorOf (way : Access) (subject : Value) : Eval Value := do
  return .accessor (← Eval.serial) way subject

/-- The value of a core implementation. -/
def callCore (op : CoreOp) (args : List Value) : Eval Value := do
  match op, args with
  | .print, [v] => return .str (← Eval.shown v)
  | .hash, [v] => return hashNumber (← m.hashOf v)
  | .equals, [a, b] => return .bool (← m.equal a b)
  | .nilToBool, [_] => return .bool false
  | .numToBool, [.num n] => return .bool (!(Number.same n 0.0) && !n.isNaN)
  | .numToBool, [_] => return .bool false
  | .strToBool, [.str text] => return .bool (!text.isEmpty)
  | .strToBool, [_] => return .bool false
  | .listToBool, [.list items _] => return .bool (!items.isEmpty)
  | .listToBool, [_] => return .bool false
  | .mapToBool, [.map entries] => return .bool (!entries.isEmpty)
  | .mapToBool, [_] => return .bool false
  | .boolToNum, [.bool true] => return .num 1.0
  | .boolToNum, [_] => return .num 0.0
  | .strToNum, [.str text] =>
    match Number.ofText? text with
    | some n => return .num n
    | none => Eval.fail (.notANumeral (Text.display text))
  | .strToNum, [_] => return .nil
  | .keywordToProc, [v] => accessorOf .byKeyword v
  | .mapToProc, [v] => accessorOf .intoMap v
  | .listToProc, [v] => accessorOf .intoList v
  | .listFirst, [.list (item :: _) _] => return item
  | .listFirst, [_] => return .nil
  | .listRest, [.list items _] => return .ofList items.tail
  | .listRest, [_] => return .ofList []
  | .listIsEmpty, [.list items _] => return .bool items.isEmpty
  | .listIsEmpty, [_] => return .bool true
  | .nilFirst, [_] => return .nil
  | .nilRest, [_] => return .ofList []
  | .nilIsEmpty, [_] => return .bool true
  | .mapIsEmpty, [.map entries] => return .bool entries.isEmpty
  | .mapIsEmpty, [_] => return .bool false
  | .alwaysTrue, [_] => return .bool true
  | op, args => Eval.fail (.argumentCount op.name op.arity args.length)

/-- The value of an access procedure. -/
def callAccessor (way : Access) (subject : Value) : List Value → Eval Value
  | [v] =>
    match way with
    | .byKeyword => m.get v subject
    | .intoMap | .intoList => m.get subject v
  | args => Eval.fail (.argumentCount way.name (.exactly 1) args.length)

end Machine

end Lisp
