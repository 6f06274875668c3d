import Lisp.Eval.Pattern

/-!
# Bodies, operands and expansions

The parts that several forms share: a body evaluates its forms in order and only
its last one is in tail position; operands evaluate from left to right, a spread
contributing all elements of its value; and a macro is expanded by applying it
to the operand forms, once per macro and operands while the cache is on.
-/

namespace Lisp

namespace Machine

variable (m : Machine)

/-- The value of the last form of a body, nil for an empty one. -/
def body (frame : FrameId) : List Value → Eval Value
  | [] => return .nil
  | [last] => m.eval frame last
  | form :: rest => do
    let _ ← m.value frame form
    body frame rest

/-- The values of operands, spreads replaced by their elements. -/
def operands (frame : FrameId) : List Value → Eval (List Value)
  | [] => return []
  | form :: rest =>
    match form.spreadOperand? with
    | some inner => do
      let items ← m.iterate (← m.value frame inner)
      let others ← operands frame rest
      return items ++ others
    | none =>
      if form.isSpliceMarker then
        match rest with
        | [] => Eval.fail .spreadOfNothing
        | inner :: rest => do
          let items ← m.iterate (← m.value frame inner)
          let others ← operands frame rest
          return items ++ others
      else do
        let v ← m.value frame form
        let others ← operands frame rest
        return v :: others

/-- The expansion remembered for a macro and operands. -/
def remembered? (id : ClosureId) (operands : List Value) (known : List Expansion) :
    Option Value :=
  (known.find? fun e => e.closure == id && Value.sameItems e.operands operands).map (·.result)

/-- Remembers an expansion, in place of one for the same macro and operands. -/
def remember (id : ClosureId) (operands : List Value) (result : Value) :
    List Expansion → List Expansion
  | [] => [⟨id, operands, result⟩]
  | e :: rest =>
    if e.closure == id && Value.sameItems e.operands operands then
      { e with result } :: rest
    else e :: remember id operands result rest

/-- The expansion of a macro call made at `source`. -/
def expand (id : ClosureId) (operands : List Value) (source : Option Span) : Eval Value := do
  if ← Eval.ask fun w => w.options.expansionCache then
    match ← Eval.ask fun w => remembered? id operands w.expansions with
    | some result => return result
    | none =>
      let result ← m (.apply source (.closure id) operands)
      Eval.change fun w => { w with expansions := remember id operands result w.expansions }
      return result
  else m (.apply source (.closure id) operands)

/-- The closure of a value, if it is a macro. -/
def expander? (v : Value) : Eval (Option ClosureId) :=
  Eval.ask fun w =>
    match v with
    | .closure id => if (w.heap.closures[id]?.map (·.expands)).getD false then some id else none
    | _ => none

end Machine

end Lisp
