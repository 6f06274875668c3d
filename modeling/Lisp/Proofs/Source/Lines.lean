import Lisp.Proofs.Text.Runs
import Lisp.Source.Span

/-!
# Lines and columns

A text is cut into lines at its newlines, of which there is one less than lines
(`length_lines`).  So the newlines before a place count the lines before its own, and its own
line is what stands before it since the last newline (`lastLine`), followed by what comes up to
the next one (`firstLine`): `getElem?_lines`.
-/

namespace Lisp

namespace Text

/-! ### Lines of a text -/

/-- The lines of a text are what its newlines leave of it. -/
theorem lines_eq_splitOn (cs : List Char) : lines cs = cs.splitOn '\n' := by
  induction cs with
  | nil => rfl
  | cons c cs ih =>
      rw [lines, ih, List.splitOn_cons_eq_if_modifyHead]
      obtain ⟨line, rest, hlines⟩ := List.exists_cons_of_ne_nil (List.splitOn_ne_nil '\n' cs)
      rw [hlines]
      by_cases hc : c = '\n'
      · simp [hc]
      · simp [hc]

/-- A newline ends a line. -/
theorem lines_append_newline (earlier rest : List Char) :
    lines (earlier ++ '\n' :: rest) = lines earlier ++ lines rest := by
  simp only [lines_eq_splitOn, List.splitOn_append_cons_self]

/-- There is one more line than newlines. -/
theorem length_lines (cs : List Char) : (lines cs).length = cs.count '\n' + 1 := by
  induction cs with
  | nil => rfl
  | cons c cs ih =>
      obtain ⟨line, rest, hlines⟩ :=
        List.exists_cons_of_ne_nil (lines_eq_splitOn cs ▸ List.splitOn_ne_nil '\n' cs)
      rw [hlines] at ih
      rw [lines, hlines]
      by_cases hc : c = '\n'
      · rw [hc, List.count_cons_self, ← ih]
        rfl
      · rw [List.count_cons_of_ne hc, ← ih]
        simp [hc]

/-- The part of a text on its first line. -/
def firstLine (cs : List Char) : List Char :=
  cs.takeWhile (· ≠ '\n')

/-- The part of a text on its last line. -/
def lastLine (cs : List Char) : List Char :=
  (firstLine cs.reverse).reverse

/-- A first part without newlines is on the first line. -/
theorem firstLine_append {front : List Char} (h : '\n' ∉ front) (rest : List Char) :
    firstLine (front ++ rest) = front ++ firstLine rest := by
  refine List.takeWhile_append_of_pos ?_
  intro c hc
  simpa using ne_of_mem_of_not_mem hc h

/-- A text without newlines is on its first line. -/
theorem firstLine_of_not_mem {cs : List Char} (h : '\n' ∉ cs) : firstLine cs = cs := by
  have hline := firstLine_append h []
  rw [List.append_nil] at hline
  rw [hline]
  exact List.append_nil cs

/-- What has no newline goes on with the last line. -/
theorem lastLine_append (before : List Char) {more : List Char} (h : '\n' ∉ more) :
    lastLine (before ++ more) = lastLine before ++ more := by
  unfold lastLine
  rw [List.reverse_append, firstLine_append (by simpa using h), List.reverse_append,
    List.reverse_reverse]

/-- A text without newlines is on its last line. -/
theorem lastLine_of_not_mem {cs : List Char} (h : '\n' ∉ cs) : lastLine cs = cs :=
  lastLine_append [] h

/-- The last line of a text starts behind its last newline. -/
theorem lastLine_append_newline (earlier : List Char) {front : List Char} (h : '\n' ∉ front) :
    lastLine (earlier ++ '\n' :: front) = front := by
  have hend : lastLine (earlier ++ ['\n']) = [] := by
    unfold lastLine
    rw [List.reverse_append]
    rfl
  rw [List.append_cons, lastLine_append _ h, hend, List.nil_append]

/-- A text is on its last line, or its last line stands behind a newline. -/
theorem lastLine_cases (cs : List Char) :
    '\n' ∉ cs ∧ lastLine cs = cs ∨
      ∃ earlier, cs = earlier ++ '\n' :: lastLine cs ∧ '\n' ∉ lastLine cs := by
  by_cases h : '\n' ∈ cs
  · obtain ⟨front, earlier, hcs, hfront⟩ := List.eq_append_cons_of_mem (List.mem_reverse.mpr h)
    have hcs' : cs = earlier.reverse ++ '\n' :: front.reverse := by
      rw [← List.reverse_reverse cs, hcs]
      simp
    have hlast : lastLine cs = front.reverse := by
      rw [hcs', lastLine_append_newline _ (by simpa using hfront)]
    right
    rw [hlast]
    exact ⟨_, hcs', by simpa using hfront⟩
  · exact .inl ⟨h, lastLine_of_not_mem h⟩

/-- The first of the lines. -/
theorem getElem?_lines_zero (cs : List Char) : (lines cs)[0]? = some (firstLine cs) := by
  by_cases h : '\n' ∈ cs
  · obtain ⟨front, rest, rfl, hfront⟩ := List.eq_append_cons_of_mem h
    have hend : firstLine ('\n' :: rest) = [] := rfl
    rw [lines_eq_splitOn, List.splitOn_append_cons_self_of_not_mem hfront, firstLine_append hfront,
      hend, List.append_nil]
    rfl
  · rw [lines_eq_splitOn, List.splitOn_eq_singleton h, firstLine_of_not_mem h]
    rfl

/-- The line of a place in a text: what stands on it before the place and behind. -/
theorem getElem?_lines (before rest : List Char) :
    (lines (before ++ rest))[before.count '\n']? = some (lastLine before ++ firstLine rest) := by
  rcases lastLine_cases before with ⟨hnone, hlast⟩ | ⟨earlier, hbefore, hlast⟩
  · rw [hlast, List.count_eq_zero_of_not_mem hnone, getElem?_lines_zero, firstLine_append hnone]
  · have hcount : before.count '\n' = (lines earlier).length := by
      rw [hbefore, List.count_append, List.count_cons_self, List.count_eq_zero_of_not_mem hlast,
        length_lines]
    have hlines : lines (before ++ rest) = lines earlier ++ lines (lastLine before ++ rest) := by
      rw [← lines_append_newline, ← List.cons_append, ← List.append_assoc, ← hbefore]
    rw [hcount, hlines, List.getElem?_append_right (Nat.le_refl _), Nat.sub_self,
      getElem?_lines_zero, firstLine_append hlast]

end Text

/-! ### The place of a span -/

namespace Span

/-- The characters before a span. -/
theorem before_eq {s : Span} {before rest : List Char} (htext : s.text.toList = before ++ rest)
    (hposition : s.position = Text.byteLength before) : s.before = before := by
  unfold Span.before
  rw [htext, hposition, Text.takeBytes_byteLength]

/-- The column counts the characters since the last newline. -/
theorem column_eq (s : Span) : s.column = (Text.lastLine s.before).length + 1 := by
  unfold column Text.lastLine
  rw [List.length_reverse]
  rfl

end Span

end Lisp
