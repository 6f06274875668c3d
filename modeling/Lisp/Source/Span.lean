import Lisp.Text.Bytes

/-!
# Spans of a source text

A **span** is a range of a named text.  It keeps the whole text, so that a
diagnostic can name the line and column of its first character (`lineColumn`,
`location`) and draw the surrounding lines with carets under the range
(`snippet`).  Positions and lengths count bytes; lines and columns count
newlines and characters, both from one.
-/

namespace Lisp

/-- A range of a named source text. -/
structure Span where
  file : String
  text : String
  position : Nat
  length : Nat
  deriving DecidableEq, Inhabited

namespace Span

/-- The offset just past the range. -/
def stop (s : Span) : Nat :=
  s.position + s.length

/-- The text of the range. -/
def image (s : Span) : String :=
  String.ofList (Text.takeBytes s.length (Text.dropBytes s.position s.text.toList))

/-- Extends a span so that it ends where `last` ends. -/
def through (s last : Span) : Span :=
  { s with length := max last.stop s.position - s.position }

/-- The characters before the range. -/
def before (s : Span) : List Char :=
  Text.takeBytes s.position s.text.toList

/-- The line of the first character: one more than the newlines before it. -/
def line (s : Span) : Nat :=
  s.before.count '\n' + 1

/-- The column of the first character: one more than the characters between
the last newline and it. -/
def column (s : Span) : Nat :=
  (s.before.reverse.takeWhile (· ≠ '\n')).length + 1

/-- Line and column of the first character. -/
def lineColumn (s : Span) : Nat × Nat :=
  (s.line, s.column)

/-- File, line and column of the first character. -/
def location (s : Span) : String :=
  s!"{s.file}:{s.line}:{s.column}"

/-- The location together with the length, for debugging. -/
def describe (s : Span) : String :=
  s!"SourceRef({s.location} +{s.length})"

/-- One source line after its number. -/
def numbered (number : Nat) (line : List Char) : String :=
  Text.alignRight 5 number ++ " | " ++ String.ofList line

/-- How many carets underline the range: one per byte, at least one, and none
past the end of the line. -/
def carets (s : Span) (line : List Char) : Nat :=
  let remaining := line.length - (s.column - 1)
  max 1 (min s.length (max remaining 1))

/-- The line of the span after at most `context` lines before it, and carets
under the range. -/
def snippet (s : Span) (context : Nat) : List String :=
  let all := Text.lines s.text.toList
  let first := s.line - (context + 1)
  let shown := ((all.drop first).take (s.line - first)).zipIdx (first + 1)
  let own := (all.drop (s.line - 1)).headD []
  shown.map (fun (line, number) => numbered number line) ++
    [String.ofList (List.replicate (7 + s.column) ' ' ++ List.replicate (s.carets own) '^')]

end Span

end Lisp
