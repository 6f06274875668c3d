import Lisp.Value.Printer

/-!
# Failures

An evaluation that gives no value gives a **failure**: a cause, and the context
in which it arose.  The context holds the innermost source span and the call
stack at the moment of the failure; both are filled in while the failure
travels outwards, and whichever is set first stays.

One cause is no error of the program: `recur` carries a tail call to the
procedure application that encloses it, and takes no context.
-/

namespace Lisp

/-- A call in progress: the procedure's name and the call's span. -/
structure Call where
  name : String
  source : Option Span
  deriving DecidableEq, Inhabited

/-- A call as a line of a call stack. -/
def Call.describe (c : Call) : String :=
  match c.source with
  | some span => s!"{c.name} ({span.location})"
  | none => c.name

/-- The kinds of complaint that carry a message. -/
inductive Complaint where
  | malformed
  | incomplete
  | typeMismatch
  | arity
  | signature
  | notCallable
  | controlFlow
  | matchExhausted
  | runtime
  deriving DecidableEq, Repr

/-- Why an evaluation gave no value. -/
inductive Cause where
  | complaint (kind : Complaint) (message : String)
  | unbound (name : String)
  | thrown (value : Value)
  | tooDeep (limit : Nat)
  | recur (target : Value) (args : List Value)
  deriving Inhabited

/-- Where a failure arose; `calls` has the innermost call first. -/
structure Context where
  source : Option Span := none
  calls : List Call := []
  deriving Inhabited

/-- A cause and its context. -/
structure Failure where
  cause : Cause
  context : Context := {}
  deriving Inhabited

namespace Complaint

/-- The keyword that names a kind of complaint. -/
def name : Complaint → String
  | .malformed => "syntax"
  | .incomplete => "incomplete-input"
  | .typeMismatch => "type-mismatch"
  | .arity => "arity"
  | .signature => "signature"
  | .notCallable => "not-callable"
  | .controlFlow => "control-flow"
  | .matchExhausted => "match-exhausted"
  | .runtime => "runtime"

/-- What stands before the message in a headline. -/
def heading : Complaint → String
  | .malformed => "Syntax error: "
  | .incomplete => "Incomplete input: "
  | .typeMismatch => "Type mismatch: "
  | .arity => "Arity mismatch: "
  | .signature => ""
  | .notCallable => "Not callable: "
  | .controlFlow => "Control flow misuse: "
  | .matchExhausted => "Match exhausted: "
  | .runtime => "Runtime error: "

/-- Complaints about the text itself, whose message already says where. -/
def isAboutText : Complaint → Bool
  | .malformed | .incomplete => true
  | _ => false

end Complaint

namespace Cause

/-- The keyword that names a kind of failure. -/
def name : Cause → String
  | .complaint kind _ => kind.name
  | .unbound _ => "unbound-symbol"
  | .thrown _ => "thrown"
  | .tooDeep _ => "stack-exhausted"
  | .recur .. => "recur"

/-- A tail call on its way, which is no error of the program. -/
def isRecur : Cause → Bool
  | .recur .. => true
  | _ => false

/-- A failure for want of text, which more text may mend. -/
def isIncomplete : Cause → Bool
  | .complaint .incomplete _ => true
  | _ => false

end Cause

namespace Failure

/-- A complaint without context. -/
def ofComplaint (kind : Complaint) (message : String) : Failure :=
  { cause := .complaint kind message }

/-- A complaint about the text at a span. -/
def atSpan (kind : Complaint) (message : String) (span : Span) : Failure :=
  { cause := .complaint kind message, context := { source := some span } }

/-- Gives a failure its source span, unless it has one. -/
def withSource (f : Failure) (source : Option Span) : Failure :=
  if f.cause.isRecur then f
  else { f with context := { f.context with source := f.context.source <|> source } }

/-- A call stack is still wanted. -/
def wantsCalls (f : Failure) : Bool :=
  !f.cause.isRecur && f.context.calls.isEmpty

/-- Gives a failure its call stack, unless it has one. -/
def withCalls (f : Failure) (calls : List Call) : Failure :=
  if f.wantsCalls then { f with context := { f.context with calls } } else f

/-- The text of a failure with its heading and, for a complaint, its place. -/
def headline (h : Heap) (f : Failure) : String :=
  match f.cause with
  | .complaint kind message =>
    let place := match f.context.source with
      | some span => " at " ++ span.location
      | none => ""
    kind.heading ++ message ++ place
  | .unbound name => s!"Symbol {name} is not defined!"
  | .thrown value => "Thrown: " ++ value.print h
  | .tooDeep limit => s!"Stack exhausted: evaluation nested deeper than {limit} levels"
  | .recur .. => "internal recur signal"

/-- The text of a failure without heading and place. -/
def message (h : Heap) (f : Failure) : String :=
  match f.cause with
  | .complaint _ message => message
  | .thrown (.error _ message _ _) => message
  | _ => f.headline h

/-- The mark of an error line on a terminal. -/
def errorMark : String := "\x1b[31m[ERROR]\x1b[0m"

/-- Whether a report says where the failure arose on a line of its own. -/
def namesPlace (f : Failure) : Bool :=
  match f.cause with
  | .complaint kind _ => !kind.isAboutText
  | _ => true

/-- A failure as lines for a terminal: headline, place with snippet, and the
call stack from the innermost call outwards. -/
def report (h : Heap) (f : Failure) : List String :=
  let place := match f.context.source with
    | some span =>
      (if f.namesPlace then ["  --> " ++ span.location] else []) ++ span.snippet 2
    | none => []
  (errorMark ++ " " ++ f.headline h) :: place ++
    f.context.calls.map fun call => "    at " ++ call.describe

end Failure

end Lisp
