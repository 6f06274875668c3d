import Lisp.Eval.Sequence

/-!
# Arithmetic, comparison and equality

Sums, differences, products and quotients fold over any number of arguments;
comparisons and equality hold between all neighbours.  Texts are added by
joining them and compared by their characters; every other argument is
converted to a number.
-/

namespace Lisp

namespace Machine

variable (m : Machine)

/-- Folds an operation over numbers: the unit for none of them and `lone` for
one. -/
def fold (unit : Float) (lone : Float → Float) (op : Float → Float → Float)
    (args : List Value) : Eval Value := do
  match ← m.toNums args with
  | [] => return .num unit
  | [n] => return .num (lone n)
  | first :: rest => return .num (rest.foldl op first)

/-- The order of two values, if there is one. -/
def compareValues (a b : Value) : Eval (Option Ordering) := do
  match a, b with
  | .str x, .str y => return some (compare x y)
  | a, b =>
    let x ← m.toNum a
    let y ← m.toNum b
    return if x < y then some .lt else if y < x then some .gt else if x == y then some .eq else none

/-- The order of all neighbours is accepted. -/
def chain (accept : Ordering → Bool) : List Value → Eval Bool
  | a :: b :: rest => do
    match ← m.compareValues a b with
    | some o => if accept o then chain accept (b :: rest) else return false
    | none => return false
  | _ => return true

/-- All neighbours are equal, as the equality interface says. -/
def allEqual : List Value → Eval Bool
  | a :: b :: rest => do
    if ← m.dispatchBool .equals [a, b] then allEqual (b :: rest) else return false
  | _ => return true

/-- The value of a number builtin. -/
def callNumber (op : NumberOp) (args : List Value) : Eval Value := do
  match op, args with
  | .add, .str text :: rest => return .str (String.join (text :: (← m.toStrs rest)))
  | .add, args => m.fold 0.0 id (· + ·) args
  | .subtract, args => m.fold 0.0 (- ·) (· - ·) args
  | .multiply, args => m.fold 1.0 id (· * ·) args
  | .divide, args => m.fold 1.0 (1.0 / ·) (· / ·) args
  | .remainder, [a, b] =>
    let x ← m.toNum a
    let y ← m.toNum b
    return .num (Number.remainder x y)
  | .power, [a, b] =>
    let x ← m.toNum a
    let y ← m.toNum b
    return .num (Float.pow x y)
  | .floor, [a] => return .num (← m.toNum a).floor
  | .less, args => return .bool (← m.chain (· == .lt) args)
  | .lessEqual, args => return .bool (← m.chain (· != .gt) args)
  | .greater, args => return .bool (← m.chain (· == .gt) args)
  | .greaterEqual, args => return .bool (← m.chain (· != .lt) args)
  | .equal, args => return .bool (← m.allEqual args)
  | .notEqual, args => return .bool (!(← m.allEqual args))
  | .negate, [a] => return .bool (!(← m.toBool a))
  | .isNumber, [a] => return .bool (a.tag == .num)
  | .isInteger, [.num n] => return .bool (Number.isWhole n)
  | .isInteger, [_] => Eval.fail (.mismatch "integer? expects a Num")
  | op, args => Eval.fail (.argumentCount op.name op.arity args.length)

end Machine

end Lisp
