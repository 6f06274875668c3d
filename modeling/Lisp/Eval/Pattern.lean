import Lisp.Eval.Sequence

/-!
# Patterns

A pattern takes a value apart and binds names in a frame.  A symbol takes any
value; a list headed by `List` takes the elements of a value, with an optional
rest pattern at its end; one headed by `Map` takes members by key; one headed
by another form takes a value of the type that form denotes and its elements;
a quoted form and any other literal take an equal value.

The binder has two modes.  To **bind** is to insist: a missing element is nil, a
surplus one is ignored, and a value that does not fit is a complaint.  To
**test** is to ask: the number of elements must be right, and a value that does
not fit gives the answer no.
-/

namespace Lisp

/-- Whether a pattern insists or asks. -/
inductive Mode where
  | bind
  | test
  deriving DecidableEq, Repr

namespace Machine

variable (m : Machine) (mode : Mode) (frame : FrameId)

/-- A value does not fit: no to a test, and a complaint otherwise. -/
def misfit (complaint : Eval Failure) : Eval Bool := do
  match mode with
  | .test => return false
  | .bind => Eval.fail (← complaint)

/-- Takes a value equal to a literal. -/
def takeLiteral (literal value : Value) (wording : String → String → Failure) : Eval Bool := do
  if ← m.equal literal value then return true
  else
    misfit mode do
      let shownValue ← Eval.shown value
      let shownLiteral ← Eval.shown literal
      return wording shownValue shownLiteral

/-- The elements that a sequence pattern takes apart; `none` when a test finds
that there are none to be had. -/
def elements (value : Value) : Eval (Option (List Value)) := fun w =>
  match m.iterate value w with
  | (.ok items, w) => (.ok (some items), w)
  | (.failed f, w) =>
    match mode, f.cause with
    | .test, .complaint .typeMismatch _ => (.ok none, w)
    | _, _ => (.failed f, w)
  | (.outOfFuel, w) => (.outOfFuel, w)

/-- The type that the head of a pattern denotes. -/
def headType (head : Value) : Eval TypeTag := do
  match ← m.value frame head with
  | .type tag => return tag
  | other =>
    let shownHead ← Eval.shown head
    Eval.failShowing other fun shown => .headNotType shownHead shown

/-- A test looks for members only in maps and records. -/
def hasMembers (value : Value) : Bool :=
  match mode, value with
  | .bind, _ => true
  | .test, .map _ => true
  | .test, .record .. => true
  | .test, _ => false

/-- Hands the elements of a value to `next`. -/
def withElements (value : Value) (next : List Value → Eval Bool) : Eval Bool := do
  match ← m.elements mode value with
  | none => return false
  | some values => next values

/-- Goes on to `next` if a value has the type that `head` denotes. -/
def withType (head value : Value) (next : Eval Bool) : Eval Bool := do
  let tag ← m.headType frame head
  if value.tag = tag then next
  else
    misfit mode do
      let type ← Eval.typeName tag
      let shown ← Eval.shown value
      return .wrongType type shown

mutual

/-- Takes a value apart by a pattern, binding names in the frame. -/
def destructure (pattern value : Value) : Eval Bool :=
  match pattern with
  | .sym s =>
    if s.isSplice then Eval.fail .restOfNothing
    else do
      Eval.define frame s value
      return true
  | .list (head :: parts) _ =>
    let typed := m.withType mode frame head value
      (m.withElements mode value fun values => destructureSequence parts values)
    match head with
    | .sym s =>
      if s.isSplice then Eval.fail .strayRest
      else if s = .intern "List" then
        m.withElements mode value fun values => destructureSequence parts values
      else if s = .intern "Map" then
        if parts.length % 2 = 0 then
          if hasMembers mode value then destructureMembers parts value else return false
        else Eval.fail .unpairedMapPattern
      else if s = SpecialForm.quote.symbol then
        m.takeLiteral mode (parts.headD .nil) value .quotedMismatch
      else typed
    | _ => typed
  | literal => m.takeLiteral mode literal value .valueMismatch
termination_by structural pattern

/-- Takes apart a sequence of values, element by element up to a rest
pattern. -/
def destructureSequence (patterns values : List Value) : Eval Bool :=
  match patterns with
  | [] => return mode = .bind || values.isEmpty
  | pattern :: rest =>
    let each : Eval Bool :=
      match values with
      | v :: others => do
        if ← destructure pattern v then destructureSequence rest others else return false
      | [] =>
        match mode with
        | .test => return false
        | .bind => do
          if ← destructure pattern .nil then destructureSequence rest [] else return false
    match pattern with
    | .list [.sym s, inner] _ =>
      if s.isSplice then destructure inner (.ofList values) else each
    | .sym s =>
      if s.isSplice then
        match rest with
        | [] => Eval.fail .restOfNothing
        | inner :: _ => destructure inner (.ofList values)
      else each
    | _ => each
termination_by structural patterns

/-- Takes apart the members of a value, given keys and patterns in turn. -/
def destructureMembers (parts : List Value) (value : Value) : Eval Bool :=
  match parts with
  | keyForm :: pattern :: rest => do
    let key ← m.value frame keyForm
    let entry ← m.get value key
    if ← destructure pattern entry then destructureMembers rest value else return false
  | _ => return true
termination_by structural parts

end

end Machine

end Lisp
