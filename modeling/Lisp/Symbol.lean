/-!
# Symbols and special forms

A **symbol** is a name with an identity.  Symbols that come from text are
*interned*: the name alone decides which symbol it is.  A *fresh* symbol is
equal to itself only, whatever its name; it carries the serial number under
which it was made.

A few interned symbols head the **special forms** of the language.  A fresh
symbol of the same name does not.
-/

namespace Lisp

/-- A name with an identity: `serial` is `none` exactly for interned symbols. -/
structure Symbol where
  name : String
  serial : Option Nat := none
  deriving DecidableEq, Inhabited, Repr

namespace Symbol

/-- The interned symbol of a name. -/
def intern (name : String) : Symbol := ⟨name, none⟩

/-- A symbol distinct from all others, under a new serial number. -/
def fresh (serial : Nat) (name : String) : Symbol := ⟨name, some serial⟩

/-- Symbols that come from text. -/
def isInterned (s : Symbol) : Bool := s.serial.isNone

end Symbol

/-- The forms that the evaluator itself gives a meaning. -/
inductive SpecialForm where
  | define
  | branch
  | sequence
  | binding
  | procedure
  | expander
  | expand
  | quote
  | quasiQuote
  | unquote
  | unquoteSplice
  | splice
  | attempt
  | handler
  | throwing
  | recurring
  | selection
  | recordType
  | interface
  | implementation
  | member
  deriving DecidableEq, Repr

namespace SpecialForm

/-- All special forms, in the order in which they are listed. -/
def all : List SpecialForm :=
  [.define, .branch, .sequence, .binding, .procedure, .expander, .expand, .quote,
   .quasiQuote, .unquote, .unquoteSplice, .splice, .attempt, .handler, .throwing,
   .recurring, .selection, .recordType, .interface, .implementation, .member]

/-- The name of the head symbol of a special form. -/
def name : SpecialForm → String
  | .define => "def"
  | .branch => "if"
  | .sequence => "do"
  | .binding => "let"
  | .procedure => "proc"
  | .expander => "macro"
  | .expand => "macro-expand"
  | .quote => "quote"
  | .quasiQuote => "quasi-quote"
  | .unquote => "unquote"
  | .unquoteSplice => "unquote-splice"
  | .splice => "..."
  | .attempt => "try"
  | .handler => "catch"
  | .throwing => "throw"
  | .recurring => "recur"
  | .selection => "match"
  | .recordType => "def-type"
  | .interface => "def-interface"
  | .implementation => "def-impl"
  | .member => "."

/-- The head symbol of a special form. -/
def symbol (form : SpecialForm) : Symbol := .intern form.name

/-- The special form that a name heads. -/
def ofName? : String → Option SpecialForm
  | "def" => some .define
  | "if" => some .branch
  | "do" => some .sequence
  | "let" => some .binding
  | "proc" => some .procedure
  | "macro" => some .expander
  | "macro-expand" => some .expand
  | "quote" => some .quote
  | "quasi-quote" => some .quasiQuote
  | "unquote" => some .unquote
  | "unquote-splice" => some .unquoteSplice
  | "..." => some .splice
  | "try" => some .attempt
  | "catch" => some .handler
  | "throw" => some .throwing
  | "recur" => some .recurring
  | "match" => some .selection
  | "def-type" => some .recordType
  | "def-interface" => some .interface
  | "def-impl" => some .implementation
  | "." => some .member
  | _ => none

/-- The special form that a symbol heads: interned symbols only. -/
def ofSymbol? (s : Symbol) : Option SpecialForm :=
  if s.isInterned then ofName? s.name else none

/-- The name of a special form names that form. -/
theorem ofName?_name (form : SpecialForm) : ofName? form.name = some form := by
  cases form <;> rfl

/-- Each special form is recognised by its own symbol. -/
theorem ofSymbol?_symbol (form : SpecialForm) : ofSymbol? form.symbol = some form := by
  simp [ofSymbol?, symbol, Symbol.intern, Symbol.isInterned, ofName?_name]

end SpecialForm

namespace Symbol

/-- The symbol `...`, which marks a spread or a rest pattern. -/
def isSplice (s : Symbol) : Bool := s == SpecialForm.splice.symbol

end Symbol

end Lisp
