import Lisp.Source.Span

/-!
# Cursors

A **cursor** stands at a character boundary of a text.  Every match is made at
the cursor itself, and only a successful match moves it, always forward:
`scanLiteral` matches a fixed text and `scanRun` the longest non-empty run of a
character class.  Both return the span they covered.
-/

namespace Lisp

/-- A place in a named text: the offset reached and the characters left. -/
structure Cursor where
  file : String
  text : String
  position : Nat
  rest : List Char
  deriving DecidableEq, Inhabited

namespace Cursor

/-- The cursor at the start of a text. -/
def start (text file : String) : Cursor :=
  ⟨file, text, 0, text.toList⟩

/-- Nothing is left. -/
def atEnd (c : Cursor) : Bool :=
  c.rest.isEmpty

/-- The empty span at the cursor. -/
def here (c : Cursor) : Span :=
  ⟨c.file, c.text, c.position, 0⟩

/-- The next character. -/
def peek? (c : Cursor) : Option Char :=
  c.rest.head?

/-- The text left starts with `literal`. -/
def lookahead (c : Cursor) (literal : List Char) : Bool :=
  literal.isPrefixOf c.rest

/-- The cursor moved over `n` characters. -/
def advance (c : Cursor) (n : Nat) : Cursor :=
  { c with
    position := c.position + Text.byteLength (c.rest.take n)
    rest := c.rest.drop n }

/-- The span from one cursor to a later one of the same text. -/
def spanTo (c last : Cursor) : Span :=
  ⟨c.file, c.text, c.position, last.position - c.position⟩

/-- Moves over `n` characters, with the span they take up. -/
def take (c : Cursor) (n : Nat) : Span × Cursor :=
  (c.spanTo (c.advance n), c.advance n)

/-- Matches a fixed text. -/
def scanLiteral (c : Cursor) (literal : List Char) : Option (Span × Cursor) :=
  if c.lookahead literal then some (c.take literal.length) else none

/-- Matches the longest run of a class, which must not be empty. -/
def scanRun (c : Cursor) (member : Char → Bool) : Option (Span × Cursor) :=
  match (c.rest.takeWhile member).length with
  | 0 => none
  | n + 1 => some (c.take (n + 1))

end Cursor

end Lisp
