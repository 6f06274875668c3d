import Lisp.Proofs.Number.Numerals
import Lisp.Proofs.Text.Slices

/-!
# Locations

A line is counted in newlines, a column in characters and a position in bytes.  Where a text
goes on, either a newline is passed, and the line grows, or the last line does, and with it the
column (`place_lt_append`).  So lines and columns, with the line first, are in the same order as
the boundaries of a text, and each of them is found again from its line and column (`offsetAt`):
it is as many bytes behind the start of the line as the characters before the column take up.

What is written as a location keeps file, line and column apart, whatever the name of the file,
as there is no colon among digits (`location_eq_iff`).
-/

namespace Lisp

namespace Text

/-! ### Places in order -/

/-- Line and column of the end of a text, both from one. -/
def place (before : List Char) : Nat × Nat :=
  (before.count '\n' + 1, (lastLine before).length + 1)

/-- A text that goes on has its end at a later place. -/
theorem place_lt_append (before : List Char) {more : List Char} (h : more ≠ []) :
    toLex (place before) < toLex (place (before ++ more)) := by
  rw [Prod.Lex.toLex_lt_toLex]
  by_cases hline : '\n' ∈ more
  · left
    have hcount : 0 < more.count '\n' := List.count_pos_iff.mpr hline
    show before.count '\n' + 1 < (before ++ more).count '\n' + 1
    rw [List.count_append]
    omega
  · right
    have hlength : 0 < more.length := List.length_pos_of_ne_nil h
    constructor
    · show before.count '\n' + 1 = (before ++ more).count '\n' + 1
      rw [List.count_append, List.count_eq_zero_of_not_mem hline, Nat.add_zero]
    · show (lastLine before).length + 1 < (lastLine (before ++ more)).length + 1
      rw [lastLine_append before hline, List.length_append]
      omega

/-- The places of the boundaries of a text are in the order of the boundaries. -/
theorem place_strictMonoOn (cs : List Char) :
    StrictMonoOn (fun n => toLex (place (takeBytes n cs))) {n | Boundary cs n} := by
  intro m hm n hn hlt
  obtain ⟨before, found, rest, rfl, rfl, rfl⟩ := hm.between hn (Nat.le_of_lt hlt)
  have hfound : found ≠ [] := by
    rintro rfl
    rw [List.append_nil] at hlt
    exact Nat.lt_irrefl _ hlt
  have hbefore : takeBytes (byteLength before) (before ++ found ++ rest) = before := by
    rw [List.append_assoc, takeBytes_byteLength]
  show toLex (place (takeBytes _ _)) < toLex (place (takeBytes _ _))
  rw [hbefore, takeBytes_byteLength]
  exact place_lt_append before hfound

/-! ### The position of a place -/

/-- The offset behind the first `n` newlines of a text, or its end if it has fewer. -/
def behindNewlines : Nat → List Char → Nat
  | 0, _ => 0
  | _ + 1, [] => 0
  | n + 1, c :: cs => c.utf8Size + behindNewlines (if c = '\n' then n else n + 1) cs

/-- The offset of a line and a column, both from one: where the line starts, and the bytes of
the characters before the column from there on. -/
def offsetAt (cs : List Char) (line column : Nat) : Nat :=
  let start := behindNewlines (line - 1) cs
  start + byteLength ((dropBytes start cs).take (column - 1))

/-- Behind all newlines of a first part that ends with one is the rest. -/
theorem behindNewlines_append (earlier rest : List Char) :
    behindNewlines (earlier.count '\n' + 1) (earlier ++ '\n' :: rest) =
      byteLength (earlier ++ ['\n']) := by
  induction earlier with
  | nil =>
      rw [List.count_nil, List.nil_append, behindNewlines, if_pos rfl, behindNewlines]
      rfl
  | cons c earlier ih =>
      by_cases hc : c = '\n'
      · subst hc
        rw [List.count_cons_self, List.cons_append, behindNewlines, if_pos rfl, ih]
        rfl
      · rw [List.count_cons_of_ne hc, List.cons_append, behindNewlines, if_neg hc, ih]
        rfl

/-- The last line of a first part starts behind the newlines of that part. -/
theorem behindNewlines_count (before rest : List Char) :
    behindNewlines (before.count '\n') (before ++ rest) = lineStart before := by
  rcases lastLine_cases before with ⟨hnone, -⟩ | ⟨earlier, hbefore, hlast⟩
  · rw [List.count_eq_zero_of_not_mem hnone, lineStart_of_not_mem hnone, behindNewlines]
  · have hcount : before.count '\n' = earlier.count '\n' + 1 := by
      rw [hbefore, List.count_append, List.count_cons_self, List.count_eq_zero_of_not_mem hlast]
    have htext : before ++ rest = earlier ++ '\n' :: (lastLine before ++ rest) := by
      rw [← List.cons_append, ← List.append_assoc, ← hbefore]
    rw [hcount, htext, behindNewlines_append, ← lineStart_append earlier hlast, ← hbefore]

/-- The end of a first part is found again from its place. -/
theorem offsetAt_place (before rest : List Char) :
    offsetAt (before ++ rest) (place before).1 (place before).2 = byteLength before := by
  obtain ⟨front, hbefore, hstart⟩ := exists_lineStart before
  have hline : dropBytes (byteLength front) (before ++ rest) = lastLine before ++ rest := by
    conv => lhs; rw [hbefore]
    rw [List.append_assoc, dropBytes_byteLength]
  simp only [offsetAt, place, Nat.add_sub_cancel]
  rw [behindNewlines_count, hstart, hline, List.take_left, ← byteLength_append, ← hbefore]

/-! ### Texts behind separators -/

/-- A text is cut at the last separator in one way only. -/
theorem append_separator_inj {separator : Char} {front front' rest rest' : List Char}
    (h : separator ∉ rest) (h' : separator ∉ rest') :
    front ++ separator :: rest = front' ++ separator :: rest' ↔ front = front' ∧ rest = rest' := by
  constructor
  · intro heq
    have hsplit := congrArg (List.splitOn separator) heq
    rw [List.splitOn_append_cons_self, List.splitOn_append_cons_self,
      List.splitOn_eq_singleton h, List.splitOn_eq_singleton h'] at hsplit
    obtain ⟨-, hlast⟩ := List.append_inj' hsplit rfl
    obtain rfl := List.singleton_inj.mp hlast
    exact ⟨List.append_cancel_right heq, rfl⟩
  · rintro ⟨rfl, rfl⟩
    rfl

/-- There is no colon among digits. -/
theorem colon_not_mem_repr (n : Nat) : ':' ∉ n.repr.toList := by
  intro h
  exact absurd (Number.Decimal.isDigit_of_mem_repr h) (by decide)

end Text

namespace Span

open Text (Boundary append_separator_inj colon_not_mem_repr)

variable {s t : Span}

/-! ### Written locations -/

/-- A location is a file, a line and a column behind colons. -/
theorem toList_location (s : Span) :
    s.location.toList =
      (s.file.toList ++ ':' :: s.line.repr.toList) ++ ':' :: s.column.repr.toList := by
  have hcolon : (toString ":").toList = [':'] := rfl
  simp only [location, String.toList_append, hcolon, List.append_assoc, List.cons_append]
  rfl

/-- A location tells the file, the line and the column. -/
theorem location_eq_iff :
    s.location = t.location ↔ s.file = t.file ∧ s.lineColumn = t.lineColumn := by
  rw [← String.toList_inj, toList_location, toList_location,
    append_separator_inj (colon_not_mem_repr _) (colon_not_mem_repr _),
    append_separator_inj (colon_not_mem_repr _) (colon_not_mem_repr _), String.toList_inj,
    String.toList_inj, String.toList_inj, Nat.repr_inj, Nat.repr_inj, lineColumn, lineColumn,
    Prod.mk.injEq, and_assoc]

/-! ### Locations and positions -/

/-- Line and column of a span are the place where the text before it ends. -/
theorem lineColumn_eq (s : Span) :
    s.lineColumn = Text.place (Text.takeBytes s.position s.text.toList) := by
  rw [lineColumn, line, column_eq]
  rfl

/-- Locations identify positions.  Of two spans of a text, both from a boundary on, one starts
before the other if and only if its line and column are smaller, with the line compared first.
They start at the same position if and only if line and column are the same; if the files are
too, and only then, the locations are.  The position is found again as the start of the line,
behind as many newlines as there are lines before it, plus the bytes of the characters before
the column. -/
theorem location_identifies (htext : s.text = t.text) (hs : Boundary s.text.toList s.position)
    (ht : Boundary t.text.toList t.position) :
    (s.position < t.position ↔ toLex s.lineColumn < toLex t.lineColumn) ∧
      (s.position = t.position ↔ s.lineColumn = t.lineColumn) ∧
      (s.file = t.file ∧ s.position = t.position ↔ s.location = t.location) ∧
      s.position = Text.offsetAt s.text.toList s.line s.column := by
  rw [← htext] at ht
  have hmono := Text.place_strictMonoOn s.text.toList
  have hinj : s.position = t.position ↔ s.lineColumn = t.lineColumn := by
    rw [lineColumn_eq, lineColumn_eq, ← htext]
    exact (hmono.injOn.eq_iff hs ht).symm
  refine ⟨?_, hinj, ?_, ?_⟩
  · rw [lineColumn_eq, lineColumn_eq, ← htext]
    exact (hmono.lt_iff_lt hs ht).symm
  · rw [location_eq_iff, hinj]
  · obtain ⟨before, rest, hparts, hposition⟩ := hs
    have hplace : (s.line, s.column) = Text.place before := by
      rw [← lineColumn, lineColumn_eq, hparts, hposition, Text.takeBytes_byteLength]
    have hline : s.line = (Text.place before).1 := congrArg Prod.fst hplace
    have hcolumn : s.column = (Text.place before).2 := congrArg Prod.snd hplace
    rw [hline, hcolumn, hparts, Text.offsetAt_place, hposition]

/-- The end of a line and the start of the next one, behind characters of two bytes. -/
theorem location_identifies_sample :
    Boundary "é\nüx\ny".toList 6 ∧ Boundary "é\nüx\ny".toList 7 ∧
      (⟨"sample", "é\nüx\ny", 6, 1⟩ : Span).lineColumn = (2, 3) ∧
      (⟨"sample", "é\nüx\ny", 7, 1⟩ : Span).lineColumn = (3, 1) ∧
      toLex (2, 3) < toLex (3, 1) ∧ "sample:2:3" ≠ "sample:3:1" ∧
      6 = Text.offsetAt "é\nüx\ny".toList 2 3 := by
  have hs : Boundary "é\nüx\ny".toList 6 := ⟨"é\nüx".toList, "\ny".toList, by decide, by decide⟩
  have ht : Boundary "é\nüx\ny".toList 7 := ⟨"é\nüx\n".toList, "y".toList, by decide, by decide⟩
  obtain ⟨hless, -, hlocation, hoffset⟩ :=
    @location_identifies ⟨"sample", _, 6, 1⟩ ⟨"sample", _, 7, 1⟩ rfl hs ht
  refine ⟨hs, ht, by decide, by decide, hless.mp (by decide), ?_, hoffset⟩
  intro hsame
  exact absurd (hlocation.mpr hsame).2 (by decide)

end Span

end Lisp
