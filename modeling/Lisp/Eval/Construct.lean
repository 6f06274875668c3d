import Lisp.Eval.Sequence

/-!
# Types as constructors

Applying a type to arguments makes a value of it: the conversion types convert
one argument, `Str` joins texts, `List`, `Map` and `Error` collect their
arguments, and a record type takes one value per field.
-/

namespace Lisp

namespace Machine

variable (m : Machine)

/-- The only argument of a conversion. -/
def single (tag : TypeTag) : List Value → Eval Value
  | [v] => return v
  | args => do
    let type ← Eval.typeName tag
    Eval.fail (.singleArgument type args.length)

/-- The message of an error value: the text of its first argument. -/
def errorMessage : List Value → Eval String
  | [] => return ""
  | message :: _ => m.toStr message

/-- Applies a type to arguments. -/
def construct (tag : TypeTag) (args : List Value) : Eval Value := do
  match tag with
  | .nil => return .nil
  | .bool => return .bool (← m.toBool (← single tag args))
  | .num => return .num (← m.toNum (← single tag args))
  | .str => return .str (String.join (← m.toStrs args))
  | .sym => return .sym (← Eval.toSymbol (← single tag args))
  | .keyword => return .keyword (← Eval.toKeyword (← single tag args))
  | .list => return .ofList args
  | .map =>
    if args.length % 2 = 0 then return .map (← m.mapInsertAll [] args)
    else Eval.fail (.mapArguments args.length)
  | .proc => m.toProc (← single tag args)
  | .interface => Eval.fail .interfaceNotConstructed
  | .type => return .type (← single tag args).tag
  | .error =>
    let message ← m.errorMessage args
    Eval.newError message ((args[1]?).getD .nil) none none
  | .record ty =>
    let fields ← Eval.ask fun w => ((w.heap.recordTypes[ty]?.map (·.fields.length)).getD 0)
    if args.length = fields then return .record ty args
    else
      let type ← Eval.typeName tag
      Eval.fail (.fieldCount type fields args.length)

end Machine

end Lisp
