import Lisp.Failure

/-!
# The wording of complaints

Every complaint that the reader, the evaluator and the builtins make, by what
it is about.  Values appear in a message as they print at that moment, so these
take printed texts.
-/

namespace Lisp.Failure

/-! ### Text that cannot be read -/

/-- Brackets and marks that nest past the limit. -/
def nestedTooDeep (limit : Nat) (at_ : Span) : Failure :=
  .atSpan .malformed s!"Forms nest deeper than {limit} levels" at_

/-- A character that starts no form, such as a closing bracket without its partner. -/
def unexpectedCharacter (c : Char) (at_ : Span) : Failure :=
  .atSpan .malformed ("Unexpected character '" ++ String.singleton c ++ "'") at_

/-- A numeral with digits of another script. -/
def invalidNumber (image : String) (at_ : Span) : Failure :=
  .atSpan .malformed s!"Invalid number {image}: invalid float literal" at_

/-- A text literal that is no sequence of items. -/
def invalidText (flaw : Text.FlawAt) (at_ : Span) : Failure :=
  .atSpan .malformed
    s!"Invalid string literal: {flaw.flaw.message} at line 1 column {flaw.column}" at_

/-- A mark with no form after it. -/
def unexpectedEnd (at_ : Span) : Failure :=
  .atSpan .incomplete "Unexpected end of input" at_

/-- A bracket that the end of the text leaves open; the message says where it was opened. -/
def neverClosed (bracket : String) (opened at_ : Span) : Failure :=
  .atSpan .incomplete
    s!"Unexpected end of input, {bracket} opened at {opened.location} is never closed" at_

/-- A text literal that the end of the text leaves open. -/
def unterminatedText (at_ : Span) : Failure :=
  .atSpan .incomplete "Unterminated string literal" at_

/-! ### Symbols and control flow -/

/-- A symbol that no frame on the way outwards binds. -/
def unboundSymbol (name : String) : Failure := { cause := .unbound name }

/-- Evaluation nested past the limit of the interpreter. -/
def tooDeep (limit : Nat) : Failure := { cause := .tooDeep limit }

/-- A recur that no procedure application encloses. -/
def recurOutsideProcedure : Failure :=
  .ofComplaint .controlFlow "recur used outside of a procedure body"

/-- A recur whose form is used in place. -/
def recurOutsideTail : Failure :=
  .ofComplaint .controlFlow "recur may only appear in tail position of a procedure body"

/-- A bare `...` at the end of the operands of a call. -/
def spreadOfNothing : Failure :=
  .ofComplaint .controlFlow "... must be followed by the expression to spread"

/-- An unquoting form outside a template. -/
def strayUnquote (form : String) : Failure :=
  .ofComplaint .controlFlow s!"{form} may only appear inside quasi-quote"

/-- A `...` form that is evaluated. -/
def straySplice : Failure :=
  .ofComplaint .controlFlow
    "... may only appear among call operands or inside a binding pattern"

/-- A `catch` form that is evaluated. -/
def strayHandler : Failure :=
  .ofComplaint .controlFlow "catch may only appear as the last operand of try"

/-- A template that is itself an `unquote-splice` form. -/
def spliceOutsideList : Failure :=
  .ofComplaint .controlFlow "unquote-splice must appear inside a quasi-quoted list"

/-- A recur whose operand is no call. -/
def recurNeedsCall (shown : String) : Failure :=
  .ofComplaint .controlFlow s!"recur expects a call form such as (recur (f x)), got {shown}"

/-- A bare `...` with no pattern after it. -/
def restOfNothing : Failure :=
  .ofComplaint .controlFlow "... in a pattern must be followed by the pattern for the rest"

/-- A rest pattern outside a sequence pattern. -/
def strayRest : Failure :=
  .ofComplaint .controlFlow "...rest may only appear inside a sequence pattern"

/-- A value that no clause of a `match` takes. -/
def noPatternMatched (shown : String) : Failure :=
  .ofComplaint .matchExhausted s!"no pattern matched {shown}"

/-! ### Numbers of arguments -/

/-- A special form with a wrong number of operands. -/
def operandCount (form : String) (arity : Arity) (count : Nat) : Failure :=
  .ofComplaint .arity s!"{form} expects {arity.describe} operand(s), got {count}"

/-- A builtin with a wrong number of arguments. -/
def argumentCount (name : String) (arity : Arity) (count : Nat) : Failure :=
  .ofComplaint .arity s!"{name} expects {arity.describe} argument(s), got {count}"

/-- A conversion type applied to other than one argument. -/
def singleArgument (type : String) (count : Nat) : Failure :=
  .ofComplaint .arity s!"{type} expects 1 argument, got {count}"

/-- A record type applied to other than one value per field. -/
def fieldCount (type : String) (fields count : Nat) : Failure :=
  .ofComplaint .arity s!"{type} expects {fields} field value(s), got {count}"

/-- The type `Map` applied to a key without a value. -/
def mapArguments (count : Nat) : Failure :=
  .ofComplaint .arity s!"Map expects key/value pairs, got {count} argument(s)"

/-- An unquoting form with other than one operand. -/
def unquoteOperands (form : String) : Failure :=
  .ofComplaint .arity s!"{form} expects exactly one operand"

/-- A `let` with a pattern without a value. -/
def unpairedBindings : Failure :=
  .ofComplaint .arity "let bindings must come in pattern/value pairs"

/-- A `catch` without operands. -/
def handlerWithoutPattern : Failure :=
  .ofComplaint .arity "catch expects a binding pattern"

/-- A `match` with a pattern without a result. -/
def unpairedClauses : Failure :=
  .ofComplaint .arity "match expects pattern/result pairs"

/-- A map pattern with a key without a pattern. -/
def unpairedMapPattern : Failure :=
  .ofComplaint .arity "Map patterns take key/pattern pairs"

/-- A `def-type` of the empty list. -/
def namelessType : Failure :=
  .ofComplaint .arity "def-type expects (Name field...)"

/-- A `def-interface` of the empty list. -/
def namelessInterface : Failure :=
  .ofComplaint .arity "def-interface expects (name param...)"

/-- A `def-interface` of a name alone. -/
def interfaceWithoutParams (name : String) : Failure :=
  .ofComplaint .arity s!"interface {name} needs at least one dispatch parameter"

/-- An interface applied to fewer arguments than it dispatches on. -/
def dispatchArguments (name : String) (arity : Nat) (signature : String) (count : Nat) :
    Failure :=
  .ofComplaint .arity s!"{name} dispatches on {arity} argument(s) {signature}, got {count}"

/-- An implementation for a wrong number of types. -/
def nonconformingKey (key signature : String) : Failure :=
  .ofComplaint .arity
    s!"Cannot define {key} as it does not conform to the signature {signature}"

/-! ### Values of the wrong type -/

/-- A type mismatch with a message of its own. -/
def mismatch (message : String) : Failure :=
  .ofComplaint .typeMismatch message

/-- A type mismatch that shows the value received. -/
def expectsGot (what shown : String) : Failure :=
  mismatch s!"{what}, got {shown}"

/-- A conversion that the type of the value does not implement. -/
def notConvertible (shown target interface type : String) : Failure :=
  mismatch s!"Cannot convert {shown} to {target}! Add (def-impl {interface} ({type}) impl)"

/-- A conversion that answered with a value of another type. -/
def wrongConversion (shown converted target : String) : Failure :=
  mismatch s!"The to-{target} conversion of {shown} produced {converted}, not a {target}!"

/-- A value that is never converted to the type wanted. -/
def noConversion (shown target : String) : Failure :=
  mismatch s!"Cannot convert {shown} to {target}"

/-- A symbol name that only fresh symbols may have. -/
def reservedName (displayed : String) : Failure :=
  mismatch
    s!"Cannot create symbol {displayed}: names starting with # are reserved for unique-sym"

/-- A text that denotes no number. -/
def notANumeral (displayed : String) : Failure :=
  mismatch s!"Cannot parse {displayed} as a Num"

/-- The type of interfaces applied as a constructor. -/
def interfaceNotConstructed : Failure :=
  mismatch "Interfaces are created with (def-interface (name params...))"

/-- A value without elements. -/
def notIterable (shown type : String) : Failure :=
  mismatch s!"{shown} is not iterable! Implement empty?, first and rest for {type}"

/-- A member of a value that has no members, or none under such a key. -/
def noMember (key type : String) : Failure :=
  mismatch s!"Cannot get {key} from {type}"

/-- A value that is not equal to a literal pattern. -/
def valueMismatch (value pattern : String) : Failure :=
  mismatch s!"Cannot bind value {value} to pattern {pattern}"

/-- A value that is not equal to a quoted pattern. -/
def quotedMismatch (value literal : String) : Failure :=
  mismatch s!"Cannot bind value {value} to pattern '{literal}"

/-- A pattern whose head denotes no type. -/
def headNotType (head shown : String) : Failure :=
  mismatch s!"Pattern head {head} must be a type, got {shown}"

/-- A value of another type than its pattern asks for. -/
def wrongType (type shown : String) : Failure :=
  mismatch s!"Expected a {type}, got {shown}"

/-- A value of another type than `assert-type` asks for. -/
def assertionFailed (type shown : String) : Failure :=
  mismatch s!"Expected type: {type}, but received: {shown}!"

/-- The `type-name` of a value that is no type. -/
def notATypeName (shown : String) : Failure :=
  mismatch s!"Cannot find type-name of non type: {shown}!"

/-- A `macro-expand` of a call whose head is no macro. -/
def notAMacro (shown : String) : Failure :=
  mismatch s!"macro-expand expects a macro call, but {shown} is not a macro"

/-- An index argument that is no non-negative whole number. -/
def notAnIndex (name shown : String) : Failure :=
  mismatch s!"{name} expects a non-negative integer index, got {shown}"

/-! ### Calls and files -/

/-- A call of a value that has no procedure. -/
def notCallable (shown type : String) : Failure :=
  .ofComplaint .notCallable
    s!"{shown} is not callable! Add (def-impl to-Proc ({type}) impl) to call it"

/-- An interface without an implementation for the types of its arguments; the message lists
those that there are. -/
def notImplemented (key args name types : String) (known : List String) : Failure :=
  let base := s!"The method {key} is not implemented for arguments: ({args})! " ++
    s!"Add it with (def-impl {name} ({types}) impl)"
  let listed := if known.isEmpty then "" else ". Implemented: " ++ ", ".intercalate known
  .ofComplaint .signature (base ++ listed)

/-- An index past the end of the list that `assoc` changes. -/
def assocOutOfRange (index size : Nat) : Failure :=
  .ofComplaint .runtime
    s!"assoc index {index} is out of range for a list of {size} element(s)"

/-- An index past the end of the sequence that `nth` reads. -/
def nthOutOfRange (index : Nat) (shown : String) : Failure :=
  .ofComplaint .runtime s!"nth index {index} is out of range for {shown}"

/-- A file that cannot be read or written. -/
def fileFailed (name path reason : String) : Failure :=
  .ofComplaint .runtime s!"{name} {path} failed: {reason}"

/-- A command that `exec` cannot start. -/
def commandUnstarted (reason : String) : Failure :=
  .ofComplaint .runtime s!"exec failed to start: {reason}"

/-- A command that `exec` ran and that did not succeed. -/
def commandFailed (line status errors : String) : Failure :=
  .ofComplaint .runtime s!"exec `{line}` exited with {status}: {errors}"

end Lisp.Failure
