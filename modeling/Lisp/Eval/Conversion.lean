import Lisp.Eval.Basic
import Lisp.Text.Escaped

/-!
# Conversions

A value that is not yet of the type wanted is converted through the interface
of that type, so programs can add conversions.  A missing implementation and an
implementation that answers with the wrong type are both complaints.
-/

namespace Lisp

namespace Machine

variable (m : Machine)

/-- Converts a value through the interface `i`; `target` names the type. -/
def convert (i : CoreInterface) (target : String) (v : Value) : Eval Value := do
  match ← Eval.interface? i.id with
  | none => Eval.fail (.mismatch "")
  | some interface =>
    match interface.implementation? [v.tag] with
    | some imp => m.call imp [v]
    | none =>
      let type ← Eval.typeName v.tag
      Eval.failShowing v fun shown => .notConvertible shown target interface.name.name type

/-- The complaint that a conversion gave a value of another type. -/
def wrongConversion (v converted : Value) (target : String) : Eval α := do
  let shownConverted ← Eval.shown converted
  Eval.failShowing v fun shown => .wrongConversion shown shownConverted target

/-- The truth of a value, as `if` tests it. -/
def toBool (v : Value) : Eval Bool := do
  match v with
  | .bool b => return b
  | _ =>
    match ← m.convert .toBool "Bool" v with
    | .bool b => return b
    | other => wrongConversion v other "Bool"

/-- The number of a value. -/
def toNum (v : Value) : Eval Float := do
  match v with
  | .num n => return n
  | _ =>
    match ← m.convert .toNum "Num" v with
    | .num n => return n
    | other => wrongConversion v other "Num"

/-- The text of a value. -/
def toStr (v : Value) : Eval String := do
  match v with
  | .str text => return text
  | _ =>
    match ← m.convert .toStr "Str" v with
    | .str text => return text
    | other => wrongConversion v other "Str"

/-- The procedure of a value. -/
def toProc (v : Value) : Eval Value := do
  if v.isCallable then return v
  else
    let converted ← m.convert .toProc "Proc" v
    if converted.isCallable then return converted
    else wrongConversion v converted "Proc"

/-- The procedure of a value in call position, where a type without an
implementation of its own is not callable. -/
def toCallable (v : Value) : Eval Value := do
  match ← Eval.ask fun w => w.heap.coreImplementation? .toProc [v.tag] with
  | none =>
    let type ← Eval.typeName v.tag
    Eval.failShowing v fun shown => .notCallable shown type
  | some _ => m.toProc v

/-- The texts of several values, in order. -/
def toStrs : List Value → Eval (List String)
  | [] => return []
  | v :: rest => do
    let text ← m.toStr v
    let texts ← toStrs rest
    return text :: texts

/-- The numbers of several values, in order. -/
def toNums : List Value → Eval (List Float)
  | [] => return []
  | v :: rest => do
    let n ← m.toNum v
    let ns ← toNums rest
    return n :: ns

/-- The truth of what an interface answers. -/
def dispatchBool (i : CoreInterface) (args : List Value) : Eval Bool := do
  let answer ← m.dispatch i args
  m.toBool answer

end Machine

namespace Eval

/-- The symbol of a value: itself, or the interned one of a text that is not
reserved for fresh symbols. -/
def toSymbol (v : Value) : Eval Symbol :=
  match v with
  | .sym s => pure s
  | .str name =>
    if name.startsWith "#" then fail (.reservedName (Text.display name))
    else pure (.intern name)
  | other => failShowing other fun shown => .noConversion shown "Sym"

/-- The name of the keyword of a value. -/
def toKeyword (v : Value) : Eval String :=
  match v with
  | .keyword name => pure name
  | .str name => pure name
  | .sym s => pure s.name
  | other => failShowing other fun shown => .noConversion shown "Keyword"

end Eval

end Lisp
