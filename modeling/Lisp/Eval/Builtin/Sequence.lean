import Lisp.Eval.Sequence

/-!
# Builtins on sequences and maps

Reading, building and updating lists and maps, and the procedures that apply
another procedure to each element.
-/

namespace Lisp

namespace Machine

variable (m : Machine)

/-- The whole number that an index argument denotes. -/
def toIndex (name : String) (v : Value) : Eval Nat :=
  match v with
  | .num n =>
    if Number.isWhole n && !(n < 0.0) then pure n.toUInt64.toNat
    else Eval.failShowing v (.notAnIndex name)
  | other => Eval.failShowing other (.notAnIndex name)

/-- The entries of a map argument, where nil stands for no map. -/
def toEntries? (name : String) : Value → Eval (Option Entries)
  | .map entries => return some entries
  | .nil => return none
  | other => Eval.failShowing other (.expectsGot (name ++ " expects a Map"))

/-- The number of elements of a value. -/
def countOf : Value → Eval Nat
  | .nil => return 0
  | .list items _ => return items.length
  | .map entries => return entries.length
  | .str text => return text.length
  | other => do return (← m.iterate other).length

/-- A list with elements replaced or appended, given indices and values in
turn. -/
def assocList (items : List Value) : List Value → Eval (List Value)
  | indexForm :: v :: rest => do
    let i ← toIndex "assoc" indexForm
    if i < items.length then assocList (items.set i v) rest
    else if i = items.length then assocList (items ++ [v]) rest
    else Eval.fail (.assocOutOfRange i items.length)
  | _ => return items

/-- A map or list with more entries. -/
def assoc (target : Value) (pairs : List Value) : Eval Value := do
  if pairs.length % 2 = 0 then
    match target with
    | .nil => return .map (← m.mapInsertAll [] pairs)
    | .map entries => return .map (← m.mapInsertAll entries pairs)
    | .list items _ => return .ofList (← assocList items pairs)
    | other => Eval.failShowing other (.expectsGot "assoc expects a Map or List")
  else Eval.fail (.mismatch "assoc expects key/value pairs")

/-- The values of a procedure on each element. -/
def mapEach (p : Value) : List Value → Eval (List Value)
  | [] => return []
  | item :: rest => do
    let v ← m.call p [item]
    let others ← mapEach p rest
    return v :: others

/-- The elements on which a procedure is true. -/
def filterEach (p : Value) : List Value → Eval (List Value)
  | [] => return []
  | item :: rest => do
    let keep ← m.toBool (← m.call p [item])
    let others ← filterEach p rest
    return if keep then item :: others else others

/-- A procedure folded over elements from the left. -/
def reduceEach (p acc : Value) : List Value → Eval Value
  | [] => return acc
  | item :: rest => do
    let acc ← m.call p [acc, item]
    reduceEach p acc rest

/-- The value of a procedure on the last element, after all others. -/
def forEach (p last : Value) : List Value → Eval Value
  | [] => return last
  | item :: rest => do
    let last ← m.call p [item]
    forEach p last rest

/-- A sequence cut into parts of `size` elements, the last one possibly
shorter. -/
def chunks (size : Nat) : Nat → List Value → List (List Value)
  | _, [] => []
  | 0, _ => []
  | turns + 1, items => items.take size :: chunks size turns (items.drop size)

/-- The value of a sequence builtin. -/
def callSequence (op : SequenceOp) (args : List Value) : Eval Value := do
  match op, args with
  | .get, [target, key] => m.get target key
  | .get, [target, key, fallback] =>
    match ← m.get target key with
    | .nil => return fallback
    | found => return found
  | .count, [v] => return .num (Float.ofNat (← m.countOf v))
  | .cons, [item, v] => return .ofList (item :: (← m.iterate v))
  | .conj, .map entries :: more => return .map (← m.mapInsertPairs entries more)
  | .conj, .nil :: more => return .ofList more
  | .conj, v :: more => return .ofList ((← m.iterate v) ++ more)
  | .concat, args => return .ofList (← m.iterateAll args)
  | .assoc, target :: pairs => m.assoc target pairs
  | .dissoc, v :: keys =>
    match ← toEntries? "dissoc" v with
    | none => return .nil
    | some entries => return .map (← m.mapRemoveAll entries keys)
  | .keys, [v] => return .ofList (((← toEntries? "keys" v).getD []).map Prod.fst)
  | .vals, [v] => return .ofList (((← toEntries? "vals" v).getD []).map Prod.snd)
  | .contains, [.map entries, needle] => return .bool (← m.mapContains entries needle)
  | .contains, [v, needle] => return .bool (← m.anyEqual needle (← m.iterate v))
  | .nth, v :: index :: fallback =>
    let i ← toIndex "nth" index
    let items ← m.iterate v
    match items[i]?, fallback with
    | some item, _ => return item
    | none, [other] => return other
    | none, _ => Eval.failShowing v (.nthOutOfRange i)
  | .apply, f :: args =>
    let p ← m.toProc f
    match args.getLast? with
    | none => m.call p []
    | some spread =>
      let items ← m.iterate spread
      m.call p (args.dropLast ++ items)
  | .map, [f, v] =>
    let p ← m.toProc f
    return .ofList (← m.mapEach p (← m.iterate v))
  | .filter, [f, v] =>
    let p ← m.toProc f
    return .ofList (← m.filterEach p (← m.iterate v))
  | .reduce, [f, start, v] =>
    let p ← m.toProc f
    m.reduceEach p start (← m.iterate v)
  | .forEach, [f, v] =>
    let p ← m.toProc f
    m.forEach p .nil (← m.iterate v)
  | .chunk, [size, v] =>
    let n ← toIndex "chunk" size
    if n = 0 then Eval.fail (.mismatch "chunk size must be positive")
    else
      let items ← m.iterate v
      return .ofList ((chunks n items.length items).map .ofList)
  | .flatten, [v] => return .ofList (← m.iterateAll (← m.iterate v))
  | op, args => Eval.fail (.argumentCount op.name op.arity args.length)

end Machine

end Lisp
