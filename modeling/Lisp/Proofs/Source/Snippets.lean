import Lisp.Proofs.Source.Lines

/-!
# Snippets

A snippet shows the line of a span after some lines before it, each behind its number, and
below it a line of carets.  Two numbers in it hold for ordinary texts only.

* The carets start in the column of the span's first character as long as the line number fits
  into its five places; from line 100000 on the source line is shifted to the right and the
  carets are not.
* There are as many carets as the span has bytes, not characters, but none past the end of the
  line.  So there are too many of them if a character of the span takes more than one byte,
  unless the span goes to the end of its line.

Everything else is as it should be, for every text, span and number of lines
(`snippet_underlines`).
-/

namespace Lisp.Span

open Text (firstLine lastLine)

/-! ### The lines shown -/

/-- What stands before a source line. -/
def gutter (number : Nat) : List Char :=
  (Text.alignRight 5 number).toList ++ " | ".toList

/-- A source line behind its number. -/
theorem toList_numbered (number : Nat) (line : List Char) :
    (numbered number line).toList = gutter number ++ line := by
  unfold numbered gutter
  simp only [String.toList_append, String.toList_ofList]

/-- The gutter is eight characters wide as long as the number has five digits at most. -/
theorem length_gutter (number : Nat) : (gutter number).length = 8 ↔ number < 100000 := by
  have hdigits : (Nat.repr number).length ≤ 5 ↔ number < 10 ^ 5 :=
    Nat.length_repr_le_iff (by decide)
  have hwidth : (gutter number).length =
      5 - (Nat.repr number).length + (Nat.repr number).length + 3 := by
    unfold gutter Text.alignRight
    rw [List.length_append, String.toList_ofList, List.length_append, List.length_replicate,
      String.length_toList]
    rfl
  rw [hwidth]
  omega

/-- The numbered lines of a snippet. -/
def shownLines (s : Span) (context : Nat) : List String :=
  let first := s.line - (context + 1)
  ((((Text.lines s.text.toList).drop first).take (s.line - first)).zipIdx (first + 1)).map
    fun (line, number) => numbered number line

/-- The line of a snippet that points at the one above it. -/
def caretLine (indent carets : Nat) : String :=
  String.ofList (List.replicate indent ' ' ++ List.replicate carets '^')

/-- The line of a span is a line of its text. -/
theorem line_le_length_lines (s : Span) : s.line ≤ (Text.lines s.text.toList).length := by
  have hbefore : s.before.count '\n' ≤ s.text.toList.count '\n' := by
    conv => rhs; rw [← Text.takeBytes_append_dropBytes s.position s.text.toList]
    rw [List.count_append]
    exact Nat.le_add_right _ _
  rw [Text.length_lines]
  exact Nat.succ_le_succ hbefore

/-- A snippet is its numbered lines and a line of carets. -/
theorem snippet_eq {s : Span} {own : List Char}
    (hown : (Text.lines s.text.toList)[s.line - 1]? = some own) (context : Nat) :
    s.snippet context = s.shownLines context ++ [caretLine (7 + s.column) (s.carets own)] := by
  have hhead : ((Text.lines s.text.toList).drop (s.line - 1)).headD [] = own := by
    rw [List.headD_eq_head?_getD, List.head?_drop, hown]
    rfl
  unfold snippet
  dsimp only
  rw [hhead]
  rfl

/-- The numbered lines are the last ones up to the line of the span. -/
structure ShowsLines (s : Span) (context : Nat) (shown : List String) : Prop where
  length : shown.length = min s.line (context + 1)
  line : ∀ i < shown.length, ∃ line,
    (s.text.toList.splitOn '\n')[s.line - shown.length + i]? = some line ∧
      shown[i]? = some (numbered (s.line - shown.length + i + 1) line)

/-- A snippet shows the last lines up to the line of the span. -/
theorem shownLines_shows (s : Span) (context : Nat) :
    ShowsLines s context (s.shownLines context) := by
  have hlast := s.line_le_length_lines
  have hlength : (s.shownLines context).length = min s.line (context + 1) := by
    unfold shownLines
    simp only [List.length_map, List.length_zipIdx, List.length_take, List.length_drop]
    omega
  refine ⟨hlength, ?_⟩
  intro i hi
  rw [hlength] at hi ⊢
  have hfirst : s.line - min s.line (context + 1) = s.line - (context + 1) := by omega
  have hindex : s.line - (context + 1) + i < (Text.lines s.text.toList).length := by omega
  refine ⟨(Text.lines s.text.toList)[s.line - (context + 1) + i], ?_, ?_⟩
  · rw [hfirst, ← Text.lines_eq_splitOn, List.getElem?_eq_getElem hindex]
  · unfold shownLines
    dsimp only
    rw [List.getElem?_map, List.getElem?_zipIdx, List.getElem?_take_of_lt (by omega),
      List.getElem?_drop, List.getElem?_eq_getElem hindex, hfirst, Nat.add_right_comm]
    rfl

/-! ### The carets -/

/-- A text has as many bytes as characters if each of these takes one byte. -/
theorem byteLength_eq_length {cs : List Char} :
    Text.byteLength cs = cs.length ↔ ∀ c ∈ cs, c.utf8Size = 1 := by
  induction cs with
  | nil => simp [Text.byteLength]
  | cons c cs ih =>
      have hc := c.utf8Size_pos
      have hle := Text.length_le_byteLength cs
      rw [List.forall_mem_cons, ← ih, Text.byteLength, List.length_cons]
      omega

/-- There are as many carets as the span has bytes, but none past the end of the line. -/
theorem carets_eq {s : Span} {front rest : List Char} (hfront : front.length + 1 = s.column) :
    s.carets (front ++ rest) = max 1 (min s.length rest.length) := by
  unfold carets
  dsimp only
  rw [List.length_append, ← hfront, Nat.add_sub_cancel, Nat.add_sub_cancel_left]
  omega

/-- The bytes of a range, cut at the end of its first line, against the characters that it has
there. -/
theorem bytes_on_line (range after : List Char) :
    (firstLine range).length ≤
        min (Text.byteLength range) (firstLine (range ++ after)).length ∧
      (max 1 (min (Text.byteLength range) (firstLine (range ++ after)).length) =
          max 1 (firstLine range).length ↔
        '\n' ∈ range ∨ firstLine after = [] ∨ ∀ c ∈ range, c.utf8Size = 1) := by
  have hbytes := Text.length_le_byteLength range
  by_cases hline : '\n' ∈ range
  · -- the range goes on behind its first line
    have hprefix : (firstLine range).length ≤ range.length := (List.takeWhile_prefix _).length_le
    obtain ⟨part, rest, rfl, hpart⟩ := List.eq_append_cons_of_mem hline
    have hrange : firstLine (part ++ '\n' :: rest ++ after) = firstLine (part ++ '\n' :: rest) := by
      rw [List.append_assoc, Text.firstLine_append hpart, Text.firstLine_append hpart]
      rfl
    rw [hrange]
    simp only [hline, true_or, iff_true]
    omega
  · have hempty : range.length = 0 → Text.byteLength range = 0 := by
      intro hnone
      rw [List.eq_nil_of_length_eq_zero hnone]
      rfl
    rw [Text.firstLine_of_not_mem hline, Text.firstLine_append hline, ← byteLength_eq_length,
      List.length_append]
    simp only [hline, false_or, ← List.length_eq_zero_iff]
    omega

/-- A snippet shows the last lines up to the line of the span, each behind its number, and
below them a line of carets.  The first of these stands below the first character of the span
if and only if the line has a number of at most five digits.  There are as many as the span has
bytes, but at least one and none past the end of the line: never fewer than the characters that
it has on this line, and as many if and only if it goes to the end of the line or its
characters take one byte each. -/
theorem snippet_underlines {s : Span} {before range after : List Char}
    (htext : s.text.toList = before ++ range ++ after)
    (hposition : s.position = Text.byteLength before)
    (hlength : s.length = Text.byteLength range) (context : Nat) :
    ∃ shown carets, s.snippet context = shown ++ [caretLine (7 + s.column) carets] ∧
      ShowsLines s context shown ∧
      shown.getLast? = some (String.ofList
        (gutter s.line ++ lastLine before ++ firstLine (range ++ after))) ∧
      ((gutter s.line ++ lastLine before).length = 7 + s.column ↔ s.line < 100000) ∧
      carets = max 1 (min s.length (firstLine (range ++ after)).length) ∧
      max 1 (firstLine range).length ≤ carets ∧
      (carets = max 1 (firstLine range).length ↔
        '\n' ∈ range ∨ firstLine after = [] ∨ ∀ c ∈ range, c.utf8Size = 1) := by
  rw [List.append_assoc] at htext
  have hbefore : s.before = before := s.before_eq htext hposition
  have hline : s.line - 1 = before.count '\n' := by
    unfold line
    rw [hbefore, Nat.add_sub_cancel]
  have hcolumn : (lastLine before).length + 1 = s.column := by rw [column_eq, hbefore]
  have hown : (Text.lines s.text.toList)[s.line - 1]? =
      some (lastLine before ++ firstLine (range ++ after)) := by
    rw [htext, hline, Text.getElem?_lines]
  have hshows := s.shownLines_shows context
  have hcarets := @carets_eq s _ (firstLine (range ++ after)) hcolumn
  obtain ⟨hle, hexact⟩ := bytes_on_line range after
  rw [← hlength] at hle hexact
  refine ⟨_, _, snippet_eq hown context, hshows, ?_, ?_, hcarets, ?_, ?_⟩
  · have hcount := hshows.length
    have hpositive : 0 < s.line := Nat.succ_pos _
    obtain ⟨line, hsource, hshown⟩ :=
      hshows.line ((s.shownLines context).length - 1) (by omega)
    have hindex : s.line - (s.shownLines context).length + ((s.shownLines context).length - 1) =
        s.line - 1 := by omega
    rw [hindex, ← Text.lines_eq_splitOn, hown, Option.some.injEq] at hsource
    rw [List.getLast?_eq_getElem?, hshown, hindex, Nat.sub_add_cancel hpositive, ← hsource,
      List.append_assoc, ← toList_numbered, String.ofList_toList]
  · rw [List.length_append, ← length_gutter]
    omega
  · rw [hcarets]
    omega
  · rw [hcarets]
    exact hexact

/-- A span up to the end of the second line, with a character of two bytes: there is one caret
for each of its two characters, below the first of them. -/
theorem snippet_underlines_ended :
    "(f\n é)\nx".toList = "(f\n ".toList ++ "é)".toList ++ "\nx".toList ∧
    4 = Text.byteLength "(f\n ".toList ∧ 3 = Text.byteLength "é)".toList ∧
    ∃ shown, (⟨"sample", "(f\n é)\nx", 4, 3⟩ : Span).snippet 3 = shown ++ [caretLine 9 2] ∧
      shown.length = 2 ∧ shown.getLast? = some "    2 |  é)" ∧ 9 = "    2 |  ".length := by
  have htext : "(f\n é)\nx".toList = "(f\n ".toList ++ "é)".toList ++ "\nx".toList := by decide
  have hposition : 4 = Text.byteLength "(f\n ".toList := by decide
  have hlength : 3 = Text.byteLength "é)".toList := by decide
  obtain ⟨shown, carets, hsnippet, hshows, hlast, -, -, -, hcarets⟩ :=
    @snippet_underlines ⟨"sample", "(f\n é)\nx", 4, 3⟩ _ _ _ htext hposition hlength 3
  have htwo : carets = 2 := hcarets.mpr (.inr (.inl (by decide)))
  rw [htwo] at hsnippet
  exact ⟨htext, hposition, hlength, shown, hsnippet, hshows.length, hlast, by decide⟩

/-- A character of two bytes that does not end its line gets two carets. -/
example : (⟨"sample", "éb", 0, 2⟩ : Span).snippet 0 = ["    1 | éb", "        ^^"] := by
  decide

end Lisp.Span
