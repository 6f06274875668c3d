import Lisp.Eval.Equality

/-!
# Elements and members

`Machine.iterate` gives the elements of a value: those of a list, the entries of
a map as two-element lists, the characters of a text, none for nil, and the
fields of a record unless its type implements `empty?`.  Every other value goes
through the interfaces `empty?`, `first` and `rest`, one element per turn.

`Machine.get` reads one member of a value by a key.
-/

namespace Lisp

/-- The whole number that indexes a sequence of the given length. -/
def indexWithin? (n : Float) (length : Nat) : Option Nat :=
  if Number.isWhole n && !(n < 0.0) then
    let i := n.toUInt64.toNat
    if i < length then some i else none
  else none

/-- One character as a text value. -/
def Value.ofChar (c : Char) : Value := .str (String.singleton c)

namespace Machine

variable (m : Machine)

/-- The elements of a value that its type's interfaces produce. -/
def iterateByInterface (v : Value) : Eval (List Value) := do
  let implemented ← Eval.ask fun w =>
    [CoreInterface.isEmpty, .first, .rest].all fun i =>
      (w.heap.interfaces[i.id]?.bind (·.implementation? [v.tag])).isSome
  if implemented then
    match ← m (.unfold v []) with
    | .list items _ => return items
    | _ => return []
  else
    let type ← Eval.typeName v.tag
    Eval.failShowing v fun shown => .notIterable shown type

/-- The elements of a value. -/
def iterate (v : Value) : Eval (List Value) := do
  match v with
  | .nil => return []
  | .list items _ => return items
  | .map entries => return entries.map fun (key, value) => .ofList [key, value]
  | .str text => return text.toList.map Value.ofChar
  | .record ty fields =>
    match ← Eval.ask fun w => w.heap.coreImplementation? .isEmpty [.record ty] with
    | none => return fields
    | some _ => m.iterateByInterface v
  | other => m.iterateByInterface other

/-- The elements of several values, in order. -/
def iterateAll : List Value → Eval (List Value)
  | [] => return []
  | v :: rest => do
    let items ← m.iterate v
    let others ← iterateAll rest
    return items ++ others

/-- A part of an error value. -/
def errorPart (serial : Nat) (message : String) (data : Value) (kind : Option String)
    (name : Option String) : Eval Value :=
  match name with
  | some "message" => return .str message
  | some "data" => return data
  | some "kind" => return (kind.map Value.keyword).getD .nil
  | some "stack" => Eval.ask fun w =>
    match w.heap.stack? serial with
    | some frames => .ofList (frames.map .str)
    | none => .nil
  | _ => return .nil

/-- The field of a record that a name selects, nil if there is none. -/
def recordField (ty : RecordTypeId) (fields : List Value) (name : String) : Eval Value :=
  Eval.ask fun w =>
    ((w.heap.recordTypes[ty]?.bind (·.fieldIndex? name)).bind fun i => fields[i]?).getD .nil

/-- The complaint that a value has no such member. -/
def noMember (target key : Value) : Eval Value := do
  let type ← Eval.typeName target.tag
  Eval.failShowing key fun shown => .noMember shown type

/-- The member of a value under a key, nil if there is none. -/
def get (target key : Value) : Eval Value := do
  match target, key with
  | .nil, _ => return .nil
  | .map entries, key => return (← m.mapGet? entries key).getD .nil
  | .list items _, .num n =>
    return ((indexWithin? n items.length).bind fun i => items[i]?).getD .nil
  | .str text, .num n =>
    let cs := text.toList
    return ((indexWithin? n cs.length).bind fun i => cs[i]?.map Value.ofChar).getD .nil
  | .record ty fields, .sym s => recordField ty fields s.name
  | .record ty fields, .keyword name => recordField ty fields name
  | .record ty fields, .str name => recordField ty fields name
  | .record _ fields, .num n =>
    return ((indexWithin? n fields.length).bind fun i => fields[i]?).getD .nil
  | .error serial message data kind, key =>
    errorPart serial message data kind key.fieldName?
  | .type (.record ty), key =>
    if key.fieldName? = some "fields" then
      Eval.ask fun w => .ofList (((w.heap.recordTypes[ty]?.map (·.fields)).getD []).map .sym)
    else noMember target key
  | target, key => noMember target key

/-- One step of a member access.  In a map, a symbol stands for the keyword, the
text or the symbol of its name, whichever is stored. -/
def member (target key : Value) : Eval Value := do
  match target, key with
  | .map entries, .sym s =>
    let candidates := [Value.keyword s.name, .str s.name, .sym s]
    return (candidates.findSome? fun k => (Value.entry? k entries).map Prod.snd).getD .nil
  | target, key => m.get target key

end Machine

end Lisp
