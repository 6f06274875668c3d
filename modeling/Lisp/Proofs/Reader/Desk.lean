import Lisp.Proofs.Reader.Spans
import Lisp.Proofs.Source.Scanner

/-!
# A reader that works on a scanner

The reader recurses on the levels of nesting that are left and has a cursor passed around.
Here it is once more, as it works on a scanner with a counter of levels: every look at the
text is an operation of the scanner, the counter goes up and down around every form
(`Reading.oneDeeper`), and all repetition is limited by a number of turns.

* A reading whose operation is refused has **slipped**, and one that is out of turns is
  **unfinished**.  Neither is an answer of the reader.
* An operation of a scanner that stands at a cursor does what the cursor does
  (`Scanner.At`).
-/

namespace Lisp

open Text (Boundary byteLength byteLength_append)

/-- A scanner and a counter of levels. -/
structure Desk where
  scanner : Scanner
  depth : Nat

/-- What a reading comes to. -/
inductive Outcome (α : Type) where
  | read (a : α)
  | refused (f : Failure)
  | slipped
  | unfinished

/-- A reading: from a desk to an outcome and the desk after it. -/
def Reading (α : Type) := Desk → Outcome α × Desk

namespace Reading

variable {α β : Type}

/-- A reading that does nothing. -/
protected def pure (a : α) : Reading α := fun d => (.read a, d)

/-- One reading after another, the second only if the first has a value. -/
protected def bind (x : Reading α) (next : α → Reading β) : Reading β := fun d =>
  match x d with
  | (.read a, d) => next a d
  | (.refused f, d) => (.refused f, d)
  | (.slipped, d) => (.slipped, d)
  | (.unfinished, d) => (.unfinished, d)

instance : Monad Reading where
  pure := Reading.pure
  bind := Reading.bind

/-- Gives up with a failure. -/
def refuse (f : Failure) : Reading α := fun d => (.refused f, d)

/-- Out of turns. -/
def unfinished : Reading α := fun d => (.unfinished, d)

/-- Asks something of the scanner. -/
def ask (op : Operation α) : Reading α := fun d =>
  match d.scanner.perform op with
  | some (reply, s) => (.read reply, { d with scanner := s })
  | none => (.slipped, d)

/-- The counter of levels. -/
def depth : Reading Nat := fun d => (.read d.depth, d)

/-- Reads one level deeper, and comes up again whether or not it fails. -/
def oneDeeper (x : Reading α) : Reading α := fun d =>
  match x { d with depth := d.depth + 1 } with
  | (outcome, d) => (outcome, { d with depth := d.depth - 1 })

end Reading

/-- The outcome that is an answer of the reader. -/
def Outcome.ofExcept {α : Type} : Except Failure α → Outcome α
  | .ok a => .read a
  | .error f => .refused f

/-! ### The reader at work -/

namespace Pattern

/-- A pattern for the first characters of a text. -/
def leading (length : List Char → Nat) : Pattern where
  find cs :=
    if (cs.take (length cs)).isEmpty then none else some (0, byteLength (cs.take (length cs)))
  boundary := by
    intro cs first last hfind
    split at hfind
    · cases hfind
    · cases hfind
      exact ⟨_, cs.drop (length cs), (List.take_append_drop _ cs).symm, rfl⟩

/-- Blanks and comments. -/
def blanks : Pattern :=
  .leading (Reader.blankLength false)

/-- A token. -/
def token : Pattern :=
  .leading fun cs => (cs.takeWhile Reader.isTokenChar).length

/-- The number of characters of the text literal at the start of a text. -/
def literalLength : List Char → Nat
  | '"' :: inside => (Reader.literalLength? inside).elim 0 (· + 1)
  | _ => 0

/-- A text literal. -/
def textLiteral : Pattern :=
  .leading literalLength

end Pattern

/-- What a fixed text at the start of a form announces. -/
inductive Mark where
  | bracket (close : Char) (head : List Value)
  | prefixed (form : SpecialForm)
  | dots

namespace Desk

open Reading (ask refuse)

/-- The fixed texts that a form may start with, in the order in which they are tried. -/
def marks : List (List Char × Mark) :=
  [(['('], .bracket ')' []),
    (['['], .bracket ']' [.symbol "List"]),
    (['\x7b'], .bracket '\x7d' [.symbol "Map"]),
    (['\x27'], .prefixed .quote),
    (['\x60'], .prefixed .quasiQuote),
    ([',', ',', ','], .prefixed .unquoteSplice),
    ([','], .prefixed .unquote),
    (['.', '.', '.'], .dots)]

/-- The first of the fixed texts that the scanner stands at, with the span it took up. -/
def findMark : List (List Char × Mark) → Reading (Option (Span × Mark))
  | [] => return none
  | (text, mark) :: others => do
    match ← ask (.literal text) with
    | some span => return some (span, mark)
    | none => findMark others

/-- Moves over blanks and comments. -/
def skipBlanks : Reading Unit := do
  let _ ← ask (.pattern .blanks)
  return ()

/-- One of several texts comes next. -/
def anyAhead : List (List Char) → Reading Bool
  | [] => return false
  | text :: others => do
    if ← ask (.lookahead text) then return true else anyAhead others

/-- The form after a prefix, wrapped under `form`. -/
def readPrefixed (readForm : Reading Value) (form : SpecialForm) (opened : Span) :
    Reading Value := do
  let inner ← readForm
  let stop ← ask .here
  let source ← ask (.through opened stop)
  return .list [.sym form.symbol, inner] (some source)

/-- What follows `...`. -/
def readDots (readForm : Reading Value) (opened : Span) : Reading Value := do
  skipBlanks
  if ← ask .atEnd then return .sym SpecialForm.splice.symbol
  else if ← anyAhead [[')'], [']'], ['\x7d']] then return .sym SpecialForm.splice.symbol
  else readPrefixed readForm .splice opened

/-- The elements of a list up to its closing bracket, after those in `read`, which are kept
last first. -/
def readSequence (readForm : Reading Value) (opened : Span) (close : Char) :
    Nat → List Value → Reading Value
  | 0, _ => Reading.unfinished
  | turns + 1, read => do
    skipBlanks
    if ← ask .atEnd then
      let image ← ask (.image opened)
      let _ ← ask (.lineColumn opened)
      let stop ← ask .here
      refuse (.neverClosed (String.ofList image) opened stop)
    else
      match ← ask (.literal [close]) with
      | some stop => do
        let source ← ask (.through opened stop)
        return .list read.reverse (some source)
      | none => do
        let v ← readForm
        readSequence readForm opened close turns (v :: read)

/-- The form that a mark announces. -/
def readMarked (readForm : Reading Value) (turns : Nat) (opened : Span) : Mark → Reading Value
  | .bracket close head => readSequence readForm opened close turns head
  | .prefixed form => readPrefixed readForm form opened
  | .dots => readDots readForm opened

/-- A text literal or a token. -/
def readAtom (dots : Bool) : Reading Value := do
  if ← ask (.lookahead ['"']) then
    let start ← ask .here
    match ← ask (.pattern .textLiteral) with
    | some span => do
      let image ← ask (.image span)
      match Text.unquote image with
      | .ok text => return .str text
      | .error flaw => refuse (.invalidText flaw span)
    | none => refuse (.unterminatedText start)
  else
    match ← ask (.pattern .token) with
    | some span => do
      let image ← ask (.image span)
      match Reader.classify dots image span with
      | .ok v => return v
      | .error f => refuse f
    | none => do
      let start ← ask .here
      let next ← ask .peek
      refuse (.unexpectedCharacter (next.getD ' ') start)

/-- One form; `readForm` reads the forms nested in it. -/
def readNested (readForm : Reading Value) (dots : Bool) (turns : Nat) : Reading Value := do
  skipBlanks
  if ← ask .atEnd then
    let start ← ask .here
    refuse (.unexpectedEnd start)
  else
    match ← findMark marks with
    | some (opened, mark) => readMarked readForm turns opened mark
    | none => readAtom dots

/-- One form, unless it is nested too deep. -/
def readForm (dots : Bool) : Nat → Reading Value
  | 0 => Reading.unfinished
  | turns + 1 => do
    if Reader.maxNesting ≤ (← Reading.depth) then
      let start ← ask .here
      refuse (.nestedTooDeep Reader.maxNesting start)
    else Reading.oneDeeper (readNested (readForm dots turns) dots turns)

/-- All forms up to the end of the text, after those in `read`, which are kept last
first. -/
def readForms (dots : Bool) : Nat → List Value → Reading (List Value)
  | 0, _ => Reading.unfinished
  | turns + 1, read => do
    skipBlanks
    if ← ask .atEnd then return read.reverse
    else
      let v ← readForm dots turns
      readForms dots turns (v :: read)

end Desk

/-! ### Scanners and cursors -/

namespace Scanner

/-- The scanner is safe, and stands where the cursor does. -/
structure At (text file : String) (c : Cursor) (s : Scanner) : Prop where
  safe : s.Safe text file
  stands : c.Stands text file
  position : s.position = c.position

variable {text file : String} {s s' : Scanner} {c d : Cursor}

/-- A scanner at the start of a text. -/
theorem at_start (text file : String) : (start text file).At text file (.start text file) :=
  ⟨safe_start text file, Cursor.stands_start text file, rfl⟩

/-- There is a cursor wherever a safe scanner may stand. -/
theorem Safe.exists_at (h : s.Safe text file) : ∃ c, s.At text file c := by
  obtain ⟨before, rest, htext, hposition⟩ := h.place
  exact ⟨⟨file, text, s.position, rest⟩, h, ⟨rfl, rfl, before, htext, hposition⟩, rfl⟩

namespace At

variable (h : s.At text file c)
include h

/-- They have the same text left. -/
theorem rest?_eq : s.rest? = some c.rest := by
  obtain ⟨before, htext, hposition⟩ := h.stands.place
  rw [Scanner.rest?, h.safe.inText, htext, h.position, hposition, Text.cut?_byteLength]
  rfl

/-- They move on together. -/
theorem onward {α : Type} {op : Operation α} {reply : α} (hallows : s.Allows op)
    (hperform : s.perform op = some (reply, s')) (hcd : c.Before d)
    (hposition : s'.position = d.position) : s'.At text file d := by
  obtain ⟨_, _, heq, hsafe⟩ := perform_safe h.safe hallows
  cases heq.symm.trans hperform
  exact ⟨hsafe, h.stands.of_before hcd, hposition⟩

/-- The span that a scanner makes by moving over characters is that of the cursor. -/
theorem advance_eq (n : Nat) :
    s.advance (byteLength (c.rest.take n)) =
      (c.spanTo (c.advance n),
        { s with
          position := (c.advance n).position
          produced := c.spanTo (c.advance n) :: s.produced }) := by
  have hlength : (c.advance n).position - c.position = byteLength (c.rest.take n) :=
    Nat.add_sub_cancel_left _ _
  have hspan : c.spanTo (c.advance n) =
      ⟨s.file, s.text, s.position, byteLength (c.rest.take n)⟩ := by
    rw [Cursor.spanTo, hlength, h.stands.inFile, h.stands.inText, h.position, h.safe.inFile,
      h.safe.inText]
  rw [hspan, Scanner.advance, Scanner.give, h.position]
  rfl

theorem perform_atEnd : s.perform .atEnd = some (c.atEnd, s) := by
  obtain ⟨before, htext, hposition⟩ := h.stands.place
  have hend : byteLength s.text.toList ≤ s.position ↔ c.rest = [] := by
    rw [h.safe.inText, htext, h.position, hposition, byteLength_append,
      ← Text.byteLength_eq_zero]
    omega
  rw [perform, Cursor.atEnd]
  cases hrest : c.rest with
  | nil => rw [decide_eq_true (hend.mpr hrest)]; rfl
  | cons next tail =>
      rw [decide_eq_false (mt hend.mp (by rw [hrest]; exact List.cons_ne_nil _ _))]
      rfl

theorem perform_peek : s.perform .peek = some (c.peek?, s) := by
  rw [perform, h.rest?_eq]
  rfl

theorem perform_lookahead (literal : List Char) :
    s.perform (.lookahead literal) = some (c.lookahead literal, s) := by
  rw [perform, h.rest?_eq]
  rfl

theorem perform_here : s.perform .here = some (s.give c.here) := by
  rw [perform, Cursor.here, h.stands.inFile, h.stands.inText, h.safe.inFile, h.safe.inText,
    h.position]

/-- A scanner matches a fixed text as a cursor does. -/
theorem perform_literal (literal : List Char) :
    s.perform (.literal literal) =
      if c.lookahead literal then
        some ((s.advance (byteLength (c.rest.take literal.length))).map some id)
      else some (none, s) := by
  rw [perform, h.rest?_eq, Option.map_some, Cursor.lookahead]
  split
  · next hprefix =>
      obtain ⟨more, hmore⟩ := List.isPrefixOf_iff_prefix.mp hprefix
      rw [← hmore, List.take_left]
  · rfl

/-- A scanner matches a pattern for the first characters by moving over these. -/
theorem perform_leading (length : List Char → Nat) :
    s.perform (.pattern (.leading length)) =
      if (c.rest.take (length c.rest)).isEmpty then some (none, s)
      else some ((s.advance (byteLength (c.rest.take (length c.rest)))).map some id) := by
  rw [perform, h.rest?_eq, Option.map_some]
  simp only [Pattern.leading]
  by_cases hempty : (c.rest.take (length c.rest)).isEmpty = true
  · rw [if_pos hempty, if_pos hempty]
  · have hpositive : 0 < byteLength (c.rest.take (length c.rest)) := by
      refine Nat.pos_of_ne_zero fun hzero => hempty ?_
      rw [Text.byteLength_eq_zero.mp hzero]
      rfl
    rw [if_neg hempty, if_neg hempty]
    simp only [hpositive, and_self, if_true]

end At

end Scanner

end Lisp
