import Lisp.Proofs.Reader.Readable

/-!
# Printing and reading back

The text of a readable form is taken by the reader as that form, up to spans and
the sign of zero, and nothing behind it is touched: `Reads`.  What may stand behind
it is all the context that matters (`Stops`): something that ends a token, and a
closing bracket or the end of the text if the form ends in a bare `...`.

The proof follows the reader.  It recurses on the levels that are left, and each
kind of form is read at one level more than its parts; the elements of a list and
the forms of a whole text stand in rows, which are read one form after the other
(`readItems_row`, `readForms_row`).  Tokens and literals need no recursion.
-/

namespace Lisp.Reader

open Text (EndsRun endsRun_nil endsRun_cons)
open Value (chars row readable readableItems endsBare)

/-! ### Reading one form -/

/-- What may stand behind a form. -/
structure Stops (v : Value) (rest : List Char) : Prop where
  token : EndsRun isTokenChar rest
  bare : v.endsBare = true → EndsRun (fun c => !isCloser c) rest

/-- With `levels` left, the text of `v` is taken as a form equal to `v`. -/
structure Reads (h : Heap) (levels : Nat) (v : Value) : Prop where
  start : ∃ next tail, chars h v = next :: tail ∧ isInk next = true
  form : ∀ (c : Cursor) (rest : List Char), c.rest = chars h v ++ rest → Stops v rest →
    ∃ form after, readForm true levels c = .ok (form, after) ∧ after.rest = rest ∧
      form.same v = true

/-- The end of the text stops every form. -/
theorem stops_nil (v : Value) : Stops v [] where
  token := endsRun_nil isTokenChar
  bare _ := endsRun_nil _

/-- A closing bracket stops every form. -/
theorem stops_closed (v : Value) (rest : List Char) : Stops v (')' :: rest) where
  token := endsRun_cons (by decide) rest
  bare _ := endsRun_cons (by decide) rest

/-- A blank stops a form that does not end in a bare `...`. -/
theorem stops_blank {v : Value} (hbare : v.endsBare = false) (rest : List Char) :
    Stops v (' ' :: rest) where
  token := endsRun_cons (by decide) rest
  bare h := by
    rw [hbare] at h
    cases h

/-- A closing bracket ends a gap. -/
theorem not_isGap_of_isCloser {c : Char} (h : isCloser c = true) : isGap c = false := by
  simp only [isCloser, Bool.or_eq_true, decide_eq_true_eq] at h
  rcases h with (rfl | rfl) | rfl
  all_goals decide

/-- Where nothing but a closing bracket may come, no gap starts. -/
theorem endsRun_isGap_of_closed {cs : List Char} (h : EndsRun (fun c => !isCloser c) cs) :
    EndsRun isGap cs :=
  fun next hnext => not_isGap_of_isCloser (by simpa using h next hnext)

/-- Ink closes nothing. -/
theorem not_isCloser_of_isInk {c : Char} (h : isInk c = true) : isCloser c = false := by
  rw [isInk, Bool.and_eq_true, Bool.not_eq_true', Bool.not_eq_true'] at h
  exact h.2

/-- The text of a form starts where no gap does. -/
theorem Reads.endsRun {h : Heap} {levels : Nat} {v : Value} (hv : Reads h levels v)
    (rest : List Char) : EndsRun isGap (chars h v ++ rest) := by
  obtain ⟨next, tail, hchars, hink⟩ := hv.start
  rw [hchars]
  exact endsRun_cons (not_isGap_of_isInk hink) (tail ++ rest)

/-! ### Which reader is chosen

One equation for each kind of form that starts with a character of its own. -/

section Choice

variable (nested : Cursor → Result Value) {c : Cursor} {rest : List Char}

/-- An opening bracket starts a list. -/
theorem readNested_open (hc : c.rest = '(' :: rest) :
    readNested nested true c = readList nested ')' [] c := by
  rw [readNested_eq, skipBlanks_of_cons hc (by decide), hc]
  rfl

/-- A double quote starts a text literal. -/
theorem readNested_quote (hc : c.rest = '"' :: rest) : readNested nested true c = readText c := by
  rw [readNested_eq, skipBlanks_of_cons hc (by decide), hc]
  rfl

/-- Three dots start a spread. -/
theorem readNested_dots (hc : c.rest = '.' :: '.' :: '.' :: rest) :
    readNested nested true c = readSplice nested c := by
  rw [readNested_eq, skipBlanks_of_cons hc (by decide), hc]
  rfl

end Choice

/-! ### Atoms -/

/-- A token is read as what it denotes. -/
theorem reads_token {h : Heap} {v : Value} (levels : Nat) (hv : Denotes (chars h v) v) :
    Reads h (levels + 1) v where
  start := by
    obtain ⟨next, tail, hcons⟩ := List.exists_cons_of_ne_nil hv.nonempty
    refine ⟨next, tail, hcons, isInk_of_isTokenChar (hv.run next ?_)⟩
    rw [hcons]
    exact List.mem_cons_self
  form _ _ hc hstops := readNested_token hv (readForm true levels) hc hstops.token

/-- A text literal is read as the text. -/
theorem reads_text (h : Heap) (levels : Nat) (text : String) :
    Reads h (levels + 1) (.str text) := by
  have hchars : chars h (.str text) = '"' :: (Text.quotedChars text.toList ++ ['"']) := by
    rw [Value.chars_atom (by rw [Value.pieces]), Text.quote, String.toList_ofList]
    rfl
  refine ⟨⟨_, _, hchars, by decide⟩, ?_⟩
  intro c rest hc _
  have hsize : (chars h (.str text)).length = (Text.quotedChars text.toList).length + 1 + 1 := by
    rw [hchars, List.length_cons, List.length_append]
    rfl
  have hliteral : c.rest = '"' :: (Text.quotedChars text.toList ++ '"' :: rest) := by
    rw [hc, hchars, List.cons_append, List.append_assoc]
    rfl
  have hlength : literalLength? c.rest.tail = some ((Text.quotedChars text.toList).length + 1) := by
    rw [hliteral]
    exact Text.literalLength?_quoted text.toList rest
  have htext : Text.unquote (c.rest.take ((Text.quotedChars text.toList).length + 1 + 1)) =
      .ok text := by
    rw [hc, ← hsize, List.take_left, hchars, Text.unquote_quoted, String.ofList_toList]
  refine ⟨.str text, c.advance (chars h (.str text)).length, ?_, rest_advance _ hc, ?_⟩
  · show readNested (readForm true levels) true c = _
    rw [readNested_quote _ hliteral, readText_eq hlength, htext, hsize]
  · simp only [Value.same, beq_self_eq_true]

/-! ### Spreads -/

/-- The symbol `...` is read as itself where nothing can be spread. -/
theorem reads_bare (h : Heap) (levels : Nat) {s : Symbol} (hsplice : s.isSplice = true) :
    Reads h (levels + 1) (.sym s) := by
  have hs : s = SpecialForm.splice.symbol := eq_of_beq hsplice
  have hchars : chars h (.sym s) = ['.', '.', '.'] := by
    rw [Value.chars_atom (by rw [Value.pieces]), hs]
    rfl
  refine ⟨⟨_, _, hchars, by decide⟩, ?_⟩
  intro c rest hc hstops
  have hcloser := hstops.bare hsplice
  have hdots : c.rest = ['.', '.', '.'] ++ rest := by
    rw [hc, hchars]
  have hafter : (c.advance 3).rest = rest := rest_advance _ hdots
  have hgap : EndsRun isGap (c.advance 3).rest := by
    rw [hafter]
    exact endsRun_isGap_of_closed hcloser
  refine ⟨.sym SpecialForm.splice.symbol, c.advance 3, ?_, hafter, ?_⟩
  · show readNested (readForm true levels) true c = _
    rw [readNested_dots _ hdots, readSplice, skipBlanks_eq_self hgap]
    split
    · rfl
    · next next tail heq =>
        rw [hafter] at heq
        have hnext := hcloser next (by rw [heq]; rfl)
        rw [if_pos (by simpa using hnext)]
  · rw [hs]
    simp only [Value.same, beq_self_eq_true]

/-- A spread is read at one level more than its operand. -/
theorem reads_spread {h : Heap} {levels : Nat} {items : List Value} {source : Option Span}
    {operand : Value} (hspread : Value.spreadOperand? (.list items source) = some operand)
    (hoperand : Reads h levels operand) : Reads h (levels + 1) (.list items source) := by
  have hchars := Value.chars_spread h hspread
  refine ⟨⟨_, _, hchars, by decide⟩, ?_⟩
  intro c rest hc hstops
  have hinner : Stops operand rest :=
    ⟨hstops.token, fun hbare => hstops.bare ((Value.endsBare_spread hspread).trans hbare)⟩
  have hdots : c.rest = ['.', '.', '.'] ++ (chars h operand ++ rest) := by
    rw [hc, hchars]
    rfl
  have hafter : (c.advance 3).rest = chars h operand ++ rest := rest_advance _ hdots
  have hgap : EndsRun isGap (c.advance 3).rest := by
    rw [hafter]
    exact hoperand.endsRun rest
  obtain ⟨form, after, hform, hrest, hsame⟩ := hoperand.form (c.advance 3) rest hafter hinner
  obtain ⟨next, tail, hstart, hink⟩ := hoperand.start
  refine ⟨.list [.sym SpecialForm.splice.symbol, form] (some (c.spanTo after)), after, ?_, hrest,
    ?_⟩
  · show readNested (readForm true levels) true c = _
    rw [readNested_dots _ hdots, readSplice, skipBlanks_eq_self hgap]
    have hcloser : isCloser next = false := not_isCloser_of_isInk hink
    split
    · next heq =>
        rw [hafter, hstart] at heq
        cases heq
    · next other tail' heq =>
        rw [hafter, hstart] at heq
        cases heq
        rw [hcloser, if_neg Bool.false_ne_true, readWrapped, hform]
  · rw [Value.spread_pair hspread]
    simp only [Value.same, Value.sameItems, beq_self_eq_true, hsame, Bool.and_self]

/-! ### Rows -/

/-- What follows a form in a row stops it. -/
theorem stops_row (h : Heap) {v : Value} {items : List Value} {close : List Char}
    (hbare : (items.isEmpty || !v.endsBare) = true) (hclose : Stops v close) :
    Stops v ((items.flatMap fun v => ' ' :: chars h v) ++ close) := by
  cases items with
  | nil => exact hclose
  | cons item rest =>
      rw [List.isEmpty_cons, Bool.false_or, Bool.not_eq_true'] at hbare
      exact stops_blank hbare _

/-- A row starts where no gap does. -/
theorem endsRun_row {h : Heap} {levels : Nat} {items : List Value} {close : List Char}
    (hitems : ∀ v ∈ items, Reads h levels v) (hclose : EndsRun isGap close) :
    EndsRun isGap (row h items ++ close) := by
  cases items with
  | nil => exact hclose
  | cons item rest =>
      rw [row, List.append_assoc]
      exact (hitems item List.mem_cons_self).endsRun _

/-- The blank before the next form of a row is skipped. -/
theorem rest_skipBlanks_row {h : Heap} {levels : Nat} {items : List Value} {close : List Char}
    (hitems : ∀ v ∈ items, Reads h levels v) (hclose : EndsRun isGap close) {c : Cursor}
    (hc : c.rest = (items.flatMap fun v => ' ' :: chars h v) ++ close) :
    (skipBlanks c).rest = row h items ++ close := by
  have hgap := endsRun_row hitems hclose
  cases items with
  | nil =>
      rw [skipBlanks_eq_self (by rw [hc]; exact hgap)]
      exact hc
  | cons item rest => exact rest_skipBlanks_blank hc hgap

/-- One step along a row: its first form is read, and the cursor comes to stand
before the rest of the row. -/
theorem readForm_row {h : Heap} {levels : Nat} {item : Value} {items : List Value}
    {close : List Char} (hitems : ∀ v ∈ item :: items, Reads h levels v)
    (hrow : readableItems (item :: items) = true) (hstops : Stops item close)
    (hclose : EndsRun isGap close) {c : Cursor} (hc : c.rest = row h (item :: items) ++ close) :
    ∃ form after, readForm true levels c = .ok (form, after) ∧
      (skipBlanks after).rest = row h items ++ close ∧ form.same item = true := by
  rw [readableItems, Bool.and_eq_true, Bool.and_eq_true] at hrow
  rw [row, List.append_assoc] at hc
  obtain ⟨form, after, hform, hafter, hsame⟩ :=
    (hitems item List.mem_cons_self).form c _ hc (stops_row h hrow.1.2 hstops)
  have hrest := rest_skipBlanks_row (fun v hv => hitems v (List.mem_cons_of_mem _ hv)) hclose hafter
  exact ⟨form, after, hform, hrest, hsame⟩

/-- A row that is not empty starts with the text of its first form. -/
theorem row_start {h : Heap} {levels : Nat} {item : Value} (hitem : Reads h levels item)
    (items : List Value) (close : List Char) :
    ∃ next tail, row h (item :: items) ++ close = next :: tail ∧ isInk next = true := by
  obtain ⟨next, tail, hchars, hink⟩ := hitem.start
  rw [row, hchars, List.cons_append, List.cons_append]
  exact ⟨next, _, rfl, hink⟩

/-- The elements of a list are read up to its closing bracket. -/
theorem readItems_row {h : Heap} {levels : Nat} (opened : Span) (rest : List Char)
    {items : List Value} (hitems : ∀ v ∈ items, Reads h levels v)
    (hrow : readableItems items = true) {turns : Nat} (read : List Value) {c : Cursor}
    (hturns : items.length < turns) (hc : (skipBlanks c).rest = row h items ++ ')' :: rest) :
    ∃ forms after, readItems (readForm true levels) opened ')' turns read c =
        .ok (read.reverse ++ forms, after) ∧
      after.rest = rest ∧ Value.sameItems forms items = true := by
  -- along the row, with whatever was read before: a turn takes one form or the bracket
  obtain ⟨turns, rfl⟩ : ∃ n, turns = n + 1 := ⟨turns - 1, by omega⟩
  induction items generalizing turns read c with
  | nil =>
      have hafter : ((skipBlanks c).advance 1).rest = rest := rest_advance [')'] hc
      refine ⟨[], (skipBlanks c).advance 1, ?_, hafter, rfl⟩
      rw [readItems, hc, List.append_nil]
      exact if_pos rfl
  | cons item items ih =>
      obtain ⟨next, tail, hstart, hink⟩ :=
        row_start (hitems item List.mem_cons_self) items (')' :: rest)
      have hopen : next ≠ ')' := by
        rintro rfl
        cases hink
      obtain ⟨form, after, hform, hnext, hsame⟩ := readForm_row hitems hrow
        (stops_closed item rest) (endsRun_cons (by decide) rest) hc
      rw [readableItems, Bool.and_eq_true] at hrow
      rw [List.length_cons] at hturns
      obtain ⟨turns, rfl⟩ : ∃ n, turns = n + 1 := ⟨turns - 1, by omega⟩
      obtain ⟨forms, last, hread, hlast, hforms⟩ :=
        ih (fun v hv => hitems v (List.mem_cons_of_mem _ hv)) hrow.2 (form :: read) hnext turns
          (by omega)
      refine ⟨form :: forms, last, ?_, hlast, ?_⟩
      · rw [List.reverse_cons, List.append_assoc] at hread
        rw [readItems, hc, hstart]
        dsimp only
        rw [if_neg hopen, hform]
        exact hread
      · rw [Value.sameItems, hsame, hforms]
        rfl

/-- All forms of a text are read. -/
theorem readForms_row {h : Heap} {forms : List Value}
    (hforms : ∀ v ∈ forms, Reads h maxNesting v) (hrow : readableItems forms = true)
    {turns : Nat} (read : List Value) {c : Cursor} (hturns : forms.length ≤ turns)
    (hc : (skipBlanks c).rest = row h forms) :
    ∃ forms', readForms true turns read c = .ok (read.reverse ++ forms') ∧
      Value.sameItems forms' forms = true := by
  induction forms generalizing turns read c with
  | nil =>
      refine ⟨[], ?_, rfl⟩
      rw [List.append_nil]
      cases turns with
      | zero => rfl
      | succ turns =>
          rw [readForms, Cursor.atEnd, hc]
          rfl
  | cons item items ih =>
      obtain ⟨next, tail, hstart, -⟩ := row_start (hforms item List.mem_cons_self) items []
      rw [← List.append_nil (row h (item :: items))] at hc
      obtain ⟨form, after, hform, hnext, hsame⟩ := readForm_row hforms hrow
        (stops_nil item) (endsRun_nil isGap) hc
      rw [readableItems, Bool.and_eq_true] at hrow
      rw [List.length_cons] at hturns
      obtain ⟨turns, rfl⟩ : ∃ n, turns = n + 1 := ⟨turns - 1, by omega⟩
      obtain ⟨forms', hread, hforms'⟩ :=
        ih (fun v hv => hforms v (List.mem_cons_of_mem _ hv)) hrow.2 (form :: read)
          (Nat.le_of_succ_le_succ hturns) (hnext.trans (List.append_nil _))
      refine ⟨form :: forms', ?_, ?_⟩
      · rw [List.reverse_cons, List.append_assoc] at hread
        rw [readForms, Cursor.atEnd, hc, hstart, List.isEmpty_cons, if_neg Bool.false_ne_true,
          hform]
        exact hread
      · rw [Value.sameItems, hsame, hforms']
        rfl

/-- A row has at least as many characters as forms. -/
theorem length_le_length_row {h : Heap} {levels : Nat} {items : List Value}
    (hitems : ∀ v ∈ items, Reads h levels v) : items.length ≤ (row h items).length := by
  have hblanks : ∀ rest : List Value,
      rest.length ≤ (rest.flatMap fun v => ' ' :: chars h v).length := by
    intro rest
    induction rest with
    | nil => exact Nat.le_refl 0
    | cons v rest ih =>
        rw [List.flatMap_cons, List.length_append, List.length_cons, List.length_cons]
        omega
  cases items with
  | nil => exact Nat.le_refl 0
  | cons item rest =>
      obtain ⟨next, tail, hchars, -⟩ := (hitems item List.mem_cons_self).start
      have hrest := hblanks rest
      rw [row, hchars, List.length_append, List.length_cons, List.length_cons]
      omega

/-! ### Lists and whole texts -/

/-- A list that is no spread is read at one level more than its elements. -/
theorem reads_list {h : Heap} {levels : Nat} {items : List Value} {source : Option Span}
    (hplain : Value.spreadOperand? (.list items source) = none)
    (hitems : ∀ v ∈ items, Reads h levels v) (hrow : readableItems items = true) :
    Reads h (levels + 1) (.list items source) := by
  have hchars := Value.chars_list h hplain
  refine ⟨⟨_, _, hchars, by decide⟩, ?_⟩
  intro c rest hc _
  rw [hchars, List.cons_append, List.append_assoc] at hc
  have hinside : (c.advance 1).rest = row h items ++ ')' :: rest := rest_advance ['('] hc
  have hgap : EndsRun isGap (c.advance 1).rest := by
    rw [hinside]
    exact endsRun_row hitems (endsRun_cons (by decide) rest)
  have hturns : items.length < (c.advance 1).rest.length + 1 := by
    have hlength := length_le_length_row hitems
    rw [hinside, List.length_append]
    omega
  obtain ⟨forms, after, hread, hafter, hsame⟩ :=
    readItems_row (c.spanTo (c.advance 1)) rest hitems hrow [] hturns
      ((congrArg Cursor.rest (skipBlanks_eq_self hgap)).trans hinside)
  refine ⟨.list forms (some (c.spanTo after)), after, ?_, hafter, ?_⟩
  · show readNested (readForm true levels) true c = _
    rw [readNested_open _ hc, readList]
    dsimp only [Cursor.take]
    rw [hread]
    rfl
  · rw [Value.same]
    exact hsame

/-- The text of a readable form is read as the form, if there are enough levels. -/
theorem reads_readable (h : Heap) {levels : Nat} {v : Value} (hread : readable v = true)
    (hlevels : v.nesting ≤ levels) : Reads h levels v := by
  -- on the reader's own counter: the elements of a list have one level fewer than the list
  induction levels generalizing v with
  | zero => exact absurd v.nesting_pos (Nat.not_lt.mpr hlevels)
  | succ levels ih =>
      cases v with
      | nil =>
          refine reads_token levels ?_
          rw [Value.chars_atom (by rw [Value.pieces])]
          exact denotes_nil
      | bool b =>
          refine reads_token levels ?_
          rw [Value.chars_atom (by rw [Value.pieces])]
          exact denotes_bool b
      | num n =>
          refine reads_token levels ?_
          rw [Value.chars_atom (by rw [Value.pieces])]
          exact denotes_num n
      | str text => exact reads_text h levels text
      | keyword name =>
          rw [readable] at hread
          exact reads_token levels (Value.denotes_keyword h hread)
      | sym s =>
          rw [readable, Bool.and_eq_true, Bool.or_eq_true] at hread
          obtain ⟨hinterned, hsplice | hname⟩ := hread
          · exact reads_bare h levels hsplice
          · exact reads_token levels (Value.denotes_sym h hinterned hname)
      | list items source =>
          rw [Value.nesting] at hlevels
          have hitems : ∀ v ∈ items, readable v = true → Reads h levels v := fun v hv hreadable =>
            ih hreadable (Nat.le_trans (Value.nesting_le_nestingItems hv) (by omega))
          cases hspread : Value.spreadOperand? (.list items source) with
          | some operand =>
              refine reads_spread hspread (hitems operand ?_ ?_)
              · rw [Value.spread_pair hspread]
                simp
              · rw [Value.readable_spread hspread] at hread
                exact hread
          | none =>
              rw [Value.readable_row hspread] at hread
              refine reads_list hspread (fun v hv => hitems v hv ?_) hread
              exact Value.readable_of_mem hread hv
      | _ => cases hread

/-- Forms that are read one by one are read as a row. -/
theorem read_of_reads (h : Heap) (file : String) {forms : List Value}
    (hforms : ∀ v ∈ forms, Reads h maxNesting v) (hrow : readableItems forms = true) :
    ∃ forms', read (" ".intercalate (forms.map (Value.print h))) file true = .ok forms' ∧
      Value.sameItems forms' forms = true := by
  have hstart : (Cursor.start (" ".intercalate (forms.map (Value.print h))) file).rest =
      row h forms := Value.toList_intercalate_print h forms
  have hgap := endsRun_row hforms (endsRun_nil isGap)
  rw [List.append_nil, ← hstart] at hgap
  have hturns := length_le_length_row hforms
  rw [← hstart] at hturns
  exact readForms_row hforms hrow [] (Nat.le_succ_of_le hturns)
    ((congrArg Cursor.rest (skipBlanks_eq_self hgap)).trans hstart)

/-- **Printing and reading back.**  The texts of readable forms, joined by blanks, are
read as forms equal to them, as long as none is nested too deep. -/
theorem read_print (h : Heap) (file : String) (forms : List Value)
    (hrow : readableItems forms = true) (hnesting : ∀ v ∈ forms, v.nesting ≤ maxNesting) :
    ∃ forms', read (" ".intercalate (forms.map (Value.print h))) file true = .ok forms' ∧
      Value.sameItems forms' forms = true := by
  have hforms : ∀ v ∈ forms, Reads h maxNesting v := fun v hv =>
    reads_readable h (Value.readable_of_mem hrow hv) (hnesting v hv)
  exact read_of_reads h file hforms hrow

/-- A list that holds a spread, a text to escape, a numeral, names with dots that do
not split and an empty list; and a spread of `...` behind it. -/
def sampleForms : List Value :=
  [.list [.symbol "f", .list [.sym SpecialForm.splice.symbol, .symbol "..xs"] none,
      .str "say \"hi\"\n", .num (-0.5), .keyword "key.", .list [] none, .bool false] none,
    .list [.sym SpecialForm.splice.symbol, .sym SpecialForm.splice.symbol] none]

/-- The sample is readable and reads back. -/
theorem read_print_sample :
    readableItems sampleForms = true ∧ (∀ v ∈ sampleForms, v.nesting ≤ 3) ∧
    ∃ forms', read (" ".intercalate (sampleForms.map (Value.print {}))) "sample" true =
      .ok forms' ∧ Value.sameItems forms' sampleForms = true := by
  have hrow : readableItems sampleForms = true := by decide
  have hnesting : ∀ v ∈ sampleForms, v.nesting ≤ 3 := by
    decide
  exact ⟨hrow, hnesting, read_print {} "sample" sampleForms hrow fun v hv =>
    Nat.le_trans (hnesting v hv) (by decide)⟩

end Lisp.Reader
