import Lisp.Eval.Body

/-!
# Quasi-quoted templates

A template is a form with holes.  `(unquote x)` is replaced by the value of `x`,
`(unquote-splice x)` inside a list by the elements of the value of `x`, and
everything else stands for itself.  Holes are filled from left to right.
-/

namespace Lisp

namespace Machine

variable (m : Machine) (frame : FrameId)

/-- The value of the only operand of an unquoting form. -/
def hole (form : SpecialForm) : List Value → Eval Value
  | [inner] => m.value frame inner
  | _ => Eval.fail (.unquoteOperands form.name)

mutual

/-- The form that a template stands for. -/
def fill (template : Value) : Eval Value :=
  match template with
  | .list items source =>
    match Value.headForm? items with
    | some .unquote => m.hole frame .unquote items.tail
    | some .unquoteSplice => Eval.fail .spliceOutsideList
    | _ => do
      let filled ← fillItems items
      return .list filled source
  | literal => return literal
termination_by structural template

/-- The forms that the elements of a template stand for. -/
def fillItems (items : List Value) : Eval (List Value) :=
  match items with
  | [] => return []
  | item :: rest =>
    let one : Eval (List Value) := do
      let filled ← fill item
      let others ← fillItems rest
      return filled :: others
    match item with
    | .list (.sym s :: operands) _ =>
      if s = SpecialForm.unquoteSplice.symbol then do
        let spliced ← m.iterate (← m.hole frame .unquoteSplice operands)
        let others ← fillItems rest
        return spliced ++ others
      else one
    | _ => one
termination_by structural items

end

end Machine

end Lisp
