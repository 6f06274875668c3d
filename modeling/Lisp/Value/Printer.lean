import Lisp.Heap
import Lisp.Number.Decimal
import Lisp.Text.Quoted

/-!
# Printing

A value is laid out as a row of inked **pieces** (`pieces`), and the two
printers only differ in how they set a piece: `print` takes its text, and
`printColored` wraps the text in the colour of its ink.  Blanks between
elements have no ink.

Literals, lists and maps print as text that reads back; closures, builtins,
interfaces and error values print as a tag between `#<` and `>`, and a bound
procedure prints as the procedure.
-/

namespace Lisp

/-- What a piece of printed text is, which decides its colour. -/
inductive Ink where
  | constant
  | number
  | text
  | plain
  | punctuation
  | tag
  deriving DecidableEq, Repr

namespace Ink

/-- The terminal colour of an ink. -/
def color? : Ink → Option String
  | .constant => some "31"
  | .number => some "33"
  | .text => some "32"
  | .punctuation => some "35"
  | .tag => some "34"
  | .plain => none

/-- A text in the colour of its ink; an empty text stays empty. -/
def paint (ink : Ink) (text : String) : String :=
  match ink.color? with
  | none => text
  | some code => if text.isEmpty then text else s!"\x1b[{code}m{text}\x1b[0m"

end Ink

/-- A text and its ink. -/
abbrev Piece := Ink × String

namespace Value

/-- The tag of a value that has no readable text. -/
def tagged (name kind : String) : Piece :=
  (.tag, "#<" ++ name ++ "::" ++ kind ++ ">")

/-- The blank between two elements. -/
def blank : Piece := (.plain, " ")

mutual

/-- The pieces of a value, in order. -/
def pieces (h : Heap) : Value → List Piece
  | .nil => [(.constant, "nil")]
  | .bool b => [(.constant, if b then "true" else "false")]
  | .num n => [(.number, Number.text n)]
  | .str text => [(.text, Text.quote text)]
  | .sym s => [(.plain, s.name)]
  | .keyword name => [(.text, ":" ++ name)]
  | .list [head, operand] _ =>
    if head.isSpliceMarker then (.punctuation, "...") :: pieces h operand
    else
      (.punctuation, "(") :: pieces h head ++ blank :: pieces h operand ++
        [(.punctuation, ")")]
  | .list items _ => (.punctuation, "(") :: spaced h items ++ [(.punctuation, ")")]
  | .map entries =>
    (.punctuation, "\x7b") :: spacedEntries h entries ++ [(.punctuation, "\x7d")]
  | .record ty fields =>
    (.punctuation, "(") :: (.plain, h.typeName (.record ty)) :: prefixed h fields ++
      [(.punctuation, ")")]
  | .type tag => [(.plain, h.typeName tag)]
  | .closure id =>
    match h.closures[id]? with
    | some c => [tagged c.displayName (if c.expands then "macro" else "proc")]
    | none => [tagged "anonymous" "proc"]
  | .builtin b => [tagged b.name "proc"]
  | .accessor _ way _ => [tagged way.name "proc"]
  | .bound _ target => pieces h target
  | .interface id =>
    [tagged ((h.interfaces[id]?.map fun i => i.name.name).getD "") "interface"]
  | .error _ message _ _ => [tagged "Error" (Text.quote message)]

/-- Elements with a blank between neighbours. -/
def spaced (h : Heap) : List Value → List Piece
  | [] => []
  | item :: rest => pieces h item ++ prefixed h rest

/-- Elements with a blank before each. -/
def prefixed (h : Heap) : List Value → List Piece
  | [] => []
  | item :: rest => blank :: pieces h item ++ prefixed h rest

/-- The keys and values of a map in turn, with a blank between neighbours. -/
def spacedEntries (h : Heap) : List (Value × Value) → List Piece
  | [] => []
  | (key, value) :: rest =>
    pieces h key ++ blank :: pieces h value ++ prefixedEntries h rest

/-- The keys and values of a map in turn, with a blank before each. -/
def prefixedEntries (h : Heap) : List (Value × Value) → List Piece
  | [] => []
  | (key, value) :: rest =>
    blank :: pieces h key ++ blank :: pieces h value ++ prefixedEntries h rest

end

/-- The text of a value. -/
def print (h : Heap) (v : Value) : String :=
  String.join ((pieces h v).map Prod.snd)

/-- The text of a value with terminal colours. -/
def printColored (h : Heap) (v : Value) : String :=
  String.join ((pieces h v).map fun piece => piece.1.paint piece.2)

end Value

end Lisp
