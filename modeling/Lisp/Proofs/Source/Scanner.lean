import Lisp.Proofs.Text.Slices
import Lisp.Source.Cursor

/-!
# A scanner that counts bytes

A cursor knows the characters that are left.  A scanner knows a position only, and looks at
the text by slicing it there; a slice off a boundary is refused, and so is the operation
that asks for it.  A pattern is a parameter: nothing is known about what it finds, except
that a match ends at a boundary.

No operation is ever refused.  A scanner is **safe** if it stands at a boundary and the
spans that it has produced start and end at boundaries.  From a safe scanner every
operation has a reply and leaves a safe scanner (`perform_safe`) that has not moved back
(`perform_onward`), and so do operations in a row (`Works`).  What may be asked about spans,
or made of them, is limited to spans that the scanner itself has produced.
-/

namespace Lisp

open Text (Boundary byteLength cut? slice? slice?_isSome)

/-- Finds matches in texts. -/
structure Pattern where
  /-- The offsets at which the first match starts and ends. -/
  find : List Char → Option (Nat × Nat)
  /-- A match ends at a boundary of the text. -/
  boundary : ∀ {cs first last}, find cs = some (first, last) → Boundary cs last

/-- A place in a named text, and the spans of it that were produced so far, last first. -/
structure Scanner where
  file : String
  text : String
  position : Nat
  produced : List Span

/-- What can be asked of a scanner, with the type of the reply. -/
inductive Operation : Type → Type where
  /-- Nothing is left. -/
  | atEnd : Operation Bool
  /-- The empty span at the scanner. -/
  | here : Operation Span
  /-- The next character. -/
  | peek : Operation (Option Char)
  /-- The text left starts with a fixed text. -/
  | lookahead (literal : List Char) : Operation Bool
  /-- Matches a fixed text. -/
  | literal (literal : List Char) : Operation (Option Span)
  /-- Matches a pattern, unless the match is empty or starts further on. -/
  | pattern (pattern : Pattern) : Operation (Option Span)
  /-- A span that is extended so that it ends where another one ends. -/
  | through (first last : Span) : Operation Span
  /-- The text of a span. -/
  | image (span : Span) : Operation (List Char)
  /-- The line and the column of a span. -/
  | lineColumn (span : Span) : Operation (Nat × Nat)

namespace Span

/-- The text of the range, sliced out. -/
def image? (s : Span) : Option (List Char) :=
  slice? s.position s.stop s.text.toList

/-- Line and column of the first character, with the slices that it takes: the text before
the range, and the line of that text. -/
def lineColumn? (s : Span) : Option (Nat × Nat) := do
  let before ← slice? 0 s.position s.text.toList
  let line ← slice? (Text.lineStart before) (byteLength before) before
  return (before.count '\n' + 1, line.length + 1)

/-- The span is one of the text, from a boundary to a boundary. -/
structure InText (text file : String) (s : Span) : Prop where
  inFile : s.file = file
  inText : s.text = text
  starts : Boundary text.toList s.position
  stops : Boundary text.toList s.stop

variable {text file : String} {s t : Span}

/-- The image of a span of the text is there to be sliced out. -/
theorem InText.image?_eq (h : s.InText text file) : s.image? = some s.image.toList := by
  have hsome : (slice? s.position s.stop s.text.toList).isSome = true := by
    rw [h.inText]
    exact slice?_isSome.mpr ⟨Nat.le_add_right _ _, h.starts, h.stops⟩
  obtain ⟨found, hfound⟩ := Option.isSome_iff_exists.mp hsome
  have himage := Text.slice?_eq hfound
  rw [stop, Nat.add_sub_cancel_left] at himage
  rw [image?, hfound, image, himage, String.toList_ofList]

/-- So is the text before it, and the line of that text. -/
theorem InText.lineColumn?_eq (h : s.InText text file) : s.lineColumn? = some s.lineColumn := by
  have hsome : (slice? 0 s.position s.text.toList).isSome = true := by
    rw [h.inText]
    exact slice?_isSome.mpr ⟨Nat.zero_le _, .zero _, h.starts⟩
  obtain ⟨before, hbefore⟩ := Option.isSome_iff_exists.mp hsome
  have hfront : s.before = before := by
    obtain ⟨front, rest, htext, hposition⟩ := h.starts
    have hslice := Text.slice?_append [] front rest
    rw [List.nil_append, ← htext, ← hposition, ← h.inText] at hslice
    rw [before_eq (h.inText ▸ htext) hposition]
    exact Option.some.inj (hslice.symm.trans hbefore)
  rw [lineColumn?, hbefore]
  show (slice? (Text.lineStart before) (byteLength before) before).bind _ = _
  rw [Text.slice?_lineStart, lineColumn, line, column_eq, hfront]
  rfl

/-- A span that is extended to the end of another one is a span of the text. -/
theorem InText.through (h : s.InText text file) (ht : t.InText text file) :
    (s.through t).InText text file := by
  refine ⟨h.inFile, h.inText, h.starts, ?_⟩
  show Boundary text.toList (s.position + (max t.stop s.position - s.position))
  rw [Nat.add_sub_cancel' (Nat.le_max_right _ _)]
  rcases Nat.le_total t.stop s.position with hle | hle
  · rw [Nat.max_eq_right hle]
    exact h.starts
  · rw [Nat.max_eq_left hle]
    exact ht.stops

end Span

namespace Scanner

/-- A scanner at the start of a text. -/
def start (text file : String) : Scanner :=
  ⟨file, text, 0, []⟩

/-- The text left. -/
def rest? (s : Scanner) : Option (List Char) :=
  (cut? s.position s.text.toList).map Prod.snd

/-- Produces a span. -/
def give (s : Scanner) (span : Span) : Span × Scanner :=
  (span, { s with produced := span :: s.produced })

/-- Moves over bytes, with the span that they make up. -/
def advance (s : Scanner) (length : Nat) : Span × Scanner :=
  { s with position := s.position + length }.give ⟨s.file, s.text, s.position, length⟩

/-- Does what is asked, unless that takes a slice off a boundary. -/
def perform {α : Type} (s : Scanner) : Operation α → Option (α × Scanner)
  | .atEnd => some (decide (byteLength s.text.toList ≤ s.position), s)
  | .here => some (s.give ⟨s.file, s.text, s.position, 0⟩)
  | .peek => s.rest?.map fun rest => (rest.head?, s)
  | .lookahead literal => s.rest?.map fun rest => (literal.isPrefixOf rest, s)
  | .literal literal =>
    s.rest?.map fun rest =>
      if literal.isPrefixOf rest then (s.advance (byteLength literal)).map some id else (none, s)
  | .pattern pattern =>
    s.rest?.map fun rest =>
      match pattern.find rest with
      | none => (none, s)
      | some (first, last) =>
        if first = 0 ∧ first < last then (s.advance last).map some id else (none, s)
  | .through first last => some (s.give (first.through last))
  | .image span => span.image?.map fun image => (image, s)
  | .lineColumn span => span.lineColumn?.map fun place => (place, s)

/-- The spans that an operation is about were produced by the scanner. -/
def Allows {α : Type} (s : Scanner) : Operation α → Prop
  | .through first last => first ∈ s.produced ∧ last ∈ s.produced
  | .image span => span ∈ s.produced
  | .lineColumn span => span ∈ s.produced
  | _ => True

/-- The scanner stands at a boundary of the text, and has produced spans of the text from
boundaries to boundaries. -/
structure Safe (text file : String) (s : Scanner) : Prop where
  inFile : s.file = file
  inText : s.text = text
  place : Boundary text.toList s.position
  spans : ∀ span ∈ s.produced, span.InText text file

/-- The second scanner is not further back, and no span is forgotten. -/
structure Onward (s s' : Scanner) : Prop where
  position : s.position ≤ s'.position
  produced : s.produced ⊆ s'.produced

namespace Onward

variable {s s' s'' : Scanner}

theorem refl (s : Scanner) : s.Onward s :=
  ⟨Nat.le_refl _, fun _ h => h⟩

theorem trans (h : s.Onward s') (h' : s'.Onward s'') : s.Onward s'' :=
  ⟨Nat.le_trans h.position h'.position, fun _ hspan => h'.produced (h.produced hspan)⟩

end Onward

variable {α : Type} {text file : String} {s s' : Scanner}

/-- A scanner at the start of a text is safe. -/
theorem safe_start (text file : String) : (start text file).Safe text file :=
  ⟨rfl, rfl, .zero _, nofun⟩

/-- A safe scanner has text left, and what it has before it is what it moved over. -/
theorem Safe.rest? (h : s.Safe text file) :
    ∃ before rest, text.toList = before ++ rest ∧ s.position = byteLength before ∧
      s.rest? = some rest := by
  obtain ⟨before, rest, htext, hposition⟩ := h.place
  refine ⟨before, rest, htext, hposition, ?_⟩
  rw [Scanner.rest?, h.inText, htext, hposition, Text.cut?_byteLength]
  rfl

/-- Producing a span of the text leaves a safe scanner. -/
theorem Safe.give (h : s.Safe text file) {span : Span} (hspan : span.InText text file) :
    (s.give span).2.Safe text file :=
  ⟨h.inFile, h.inText, h.place, List.forall_mem_cons.mpr ⟨hspan, h.spans⟩⟩

/-- Moving to a boundary of what is left leaves a safe scanner. -/
theorem Safe.advance (h : s.Safe text file) {before rest : List Char} {length : Nat}
    (htext : text.toList = before ++ rest) (hposition : s.position = byteLength before)
    (hlength : Boundary rest length) : (s.advance length).2.Safe text file := by
  have hplace : Boundary text.toList (s.position + length) := by
    rw [htext, hposition]
    exact hlength.behind
  have hspan : Span.InText text file ⟨s.file, s.text, s.position, length⟩ :=
    ⟨h.inFile, h.inText, h.place, hplace⟩
  have hmoved : Safe text file { s with position := s.position + length } :=
    ⟨h.inFile, h.inText, hplace, h.spans⟩
  exact hmoved.give hspan

/-- A safe scanner does what is asked, and stays safe. -/
theorem perform_safe (h : s.Safe text file) {op : Operation α} (hallows : s.Allows op) :
    ∃ reply s', s.perform op = some (reply, s') ∧ s'.Safe text file := by
  obtain ⟨before, rest, htext, hposition, hrest⟩ := h.rest?
  cases op with
  | atEnd => exact ⟨_, _, rfl, h⟩
  | here => exact ⟨_, _, rfl, h.give ⟨h.inFile, h.inText, h.place, h.place⟩⟩
  | peek => exact ⟨_, _, by rw [perform, hrest]; rfl, h⟩
  | lookahead literal => exact ⟨_, _, by rw [perform, hrest]; rfl, h⟩
  | literal literal =>
      rw [perform, hrest, Option.map_some]
      split
      · next hprefix =>
          obtain ⟨more, rfl⟩ := List.isPrefixOf_iff_prefix.mp hprefix
          exact ⟨_, _, rfl, h.advance htext hposition ⟨literal, more, rfl, rfl⟩⟩
      · exact ⟨_, _, rfl, h⟩
  | pattern pattern =>
      rw [perform, hrest, Option.map_some]
      split
      · exact ⟨_, _, rfl, h⟩
      · next first last hfind =>
          split
          · exact ⟨_, _, rfl, h.advance htext hposition (pattern.boundary hfind)⟩
          · exact ⟨_, _, rfl, h⟩
  | through first last =>
      exact ⟨_, _, rfl, h.give ((h.spans first hallows.1).through (h.spans last hallows.2))⟩
  | image span =>
      rw [perform, (h.spans span hallows).image?_eq]
      exact ⟨_, _, rfl, h⟩
  | lineColumn span =>
      rw [perform, (h.spans span hallows).lineColumn?_eq]
      exact ⟨_, _, rfl, h⟩

/-- No operation moves the scanner back. -/
theorem perform_onward {op : Operation α} {reply : α} (h : s.perform op = some (reply, s')) :
    s.Onward s' := by
  have hgive : ∀ span, s.Onward (s.give span).2 := fun _ =>
    ⟨Nat.le_refl _, List.subset_cons_self _ _⟩
  have hadvance : ∀ length, s.Onward (s.advance length).2 := fun _ =>
    ⟨Nat.le_add_right _ _, List.subset_cons_self _ _⟩
  cases op with
  | atEnd =>
      cases h
      exact .refl s
  | here =>
      cases h
      exact hgive _
  | through first last =>
      cases h
      exact hgive _
  | literal literal =>
      obtain ⟨rest, -, heq⟩ := Option.map_eq_some_iff.mp h
      split at heq
      · cases heq
        exact hadvance _
      · cases heq
        exact .refl s
  | pattern pattern =>
      obtain ⟨rest, -, heq⟩ := Option.map_eq_some_iff.mp h
      repeat' split at heq
      · cases heq
        exact .refl s
      · cases heq
        exact hadvance _
      · cases heq
        exact .refl s
  | _ =>
      obtain ⟨_, -, heq⟩ := Option.map_eq_some_iff.mp h
      cases heq
      exact .refl s

/-! ### Operations in a row -/

/-- Operations in a row, none of which is refused, take the first scanner to the second. -/
inductive Works : Scanner → Scanner → Prop
  | stop (s : Scanner) : Works s s
  | step {α : Type} {op : Operation α} {reply : α} {s middle s' : Scanner}
      (hallows : s.Allows op) (hperform : s.perform op = some (reply, middle))
      (hrest : Works middle s') : Works s s'

namespace Works

variable {s'' : Scanner}

/-- Operations after operations. -/
theorem trans (h : s.Works s') (h' : s'.Works s'') : s.Works s'' := by
  induction h with
  | stop s => exact h'
  | step hallows hperform _ ih => exact .step hallows hperform (ih h')

/-- Operations in a row leave a safe scanner safe. -/
theorem safe (h : s.Works s') (hs : s.Safe text file) : s'.Safe text file := by
  induction h with
  | stop s => exact hs
  | step hallows hperform _ ih =>
      obtain ⟨reply, middle, heq, hmiddle⟩ := perform_safe hs hallows
      cases heq.symm.trans hperform
      exact ih hmiddle

/-- They do not move it back. -/
theorem onward (h : s.Works s') : s.Onward s' := by
  induction h with
  | stop s => exact .refl s
  | step _ hperform _ ih => exact (perform_onward hperform).trans ih

end Works

end Scanner

end Lisp
