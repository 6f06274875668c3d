import Mathlib.Data.List.Forall2
import Lisp.Proofs.Text.Runs
import Lisp.Reader

/-!
# What the reader builds

The first characters of a form tell what it is (`opening`), and the reader does what they
announce (`readNested_eq`).  So there are six ways in which a form is put together, and
`Production` lists them with all that the reader has checked on the way: every form that
is read comes about in one of them (`readNested_production`).  The forms in a list and
the forms of a text stand in a `Row`, each read where the one before it ended.

Nothing here recurses into the forms.  A property of all forms that come out of texts is
shown by cases on the production, for a reader of nested forms that already has it, and
then by induction on the levels of nesting.
-/

namespace Lisp.Reader

open Text (EndsRun endsRun_nil endsRun_cons)

/-! ### What starts at a cursor -/

/-- What the first characters of a form tell about it. -/
inductive Opening where
  | nothing
  | list (close : Char) (head : List Value)
  | wrapped (form : SpecialForm) (size : Nat)
  | splice
  | text
  | token

/-- What starts with the first characters of a text. -/
def opening : List Char → Opening
  | [] => .nothing
  | c :: cs =>
    if c = '(' then .list ')' []
    else if c = '[' then .list ']' [.symbol "List"]
    else if c = '\x7b' then .list '\x7d' [.symbol "Map"]
    else if c = '\x27' then .wrapped .quote 1
    else if c = '\x60' then .wrapped .quasiQuote 1
    else if c = ',' then
      if [',', ','].isPrefixOf cs then .wrapped .unquoteSplice 3 else .wrapped .unquote 1
    else if c = '.' && ['.', '.'].isPrefixOf cs then .splice
    else if c = '"' then .text
    else .token

/-- What an opening asks of the text that it starts. -/
def Opening.Fits : Opening → List Char → Prop
  | .nothing, cs => cs = []
  | .list close _, _ => isCloser close = true
  | .wrapped _ size, cs => size ≤ cs.length
  | .splice, cs => 3 ≤ cs.length
  | _, _ => True

/-- A text has the characters of its opening. -/
theorem opening_fits (cs : List Char) : (opening cs).Fits cs := by
  have hlength : ∀ {mark cs : List Char}, mark.isPrefixOf cs = true → mark.length ≤ cs.length :=
    fun hprefix => (List.isPrefixOf_iff_prefix.mp hprefix).length_le
  cases cs with
  | nil => rfl
  | cons c cs =>
      have hone : 1 ≤ (c :: cs).length := Nat.succ_le_succ (Nat.zero_le _)
      rw [opening]
      repeat' split
      · exact rfl
      · exact rfl
      · exact rfl
      · exact hone
      · exact hone
      · next hprefix => exact Nat.succ_le_succ (hlength hprefix)
      · exact hone
      · next hprefix =>
          rw [Bool.and_eq_true] at hprefix
          exact Nat.succ_le_succ (hlength hprefix.2)
      · trivial
      · trivial

/-- Reads the form that an opening announces. -/
def readOpening (nested : Cursor → Result Value) (dots : Bool) (c : Cursor) :
    Opening → Result Value
  | .nothing => .error (.unexpectedEnd c.here)
  | .list close head => readList nested close head c
  | .wrapped form size => readWrapped nested form c (c.advance size)
  | .splice => readSplice nested c
  | .text => readText c
  | .token => readToken dots c

/-- The reader does what the opening announces. -/
theorem readNested_eq (nested : Cursor → Result Value) (dots : Bool) (c : Cursor) :
    readNested nested dots c =
      readOpening nested dots (skipBlanks c) (opening (skipBlanks c).rest) := by
  unfold readNested
  dsimp only
  generalize skipBlanks c = d
  split
  · next heq => rw [heq]; rfl
  · next heq => rw [heq]; rfl
  · next heq => rw [heq]; rfl
  · next heq => rw [heq]; rfl
  · next heq => rw [heq]; rfl
  · next heq => rw [heq]; rfl
  · next heq => rw [heq]; rfl
  · next cs hnotriple heq =>
      have hone : [',', ','].isPrefixOf cs = false := by
        refine Bool.eq_false_iff.mpr fun hprefix => ?_
        obtain ⟨tail, rfl⟩ := List.isPrefixOf_iff_prefix.mp hprefix
        exact hnotriple tail rfl
      rw [heq]
      simp [opening, hone, readOpening]
  · next heq => rw [heq]; rfl
  · next heq => rw [heq]; rfl
  · next hsome hround hsquare hbrace hquote hquasi _ hunquote hdots htext =>
      cases hrest : d.rest with
      | nil => exact absurd hrest hsome
      | cons c cs =>
          have hspread : (c = '.' && ['.', '.'].isPrefixOf cs) = false := by
            refine Bool.eq_false_iff.mpr fun hprefix => ?_
            simp only [Bool.and_eq_true, decide_eq_true_eq] at hprefix
            obtain ⟨rfl, hprefix⟩ := hprefix
            obtain ⟨tail, rfl⟩ := List.isPrefixOf_iff_prefix.mp hprefix
            exact hdots tail hrest
          have hne : ∀ {d : Char}, (∀ tail, c :: cs = d :: tail → False) → ¬ c = d :=
            fun h heq => h cs (heq ▸ rfl)
          rw [hrest] at hround hsquare hbrace hquote hquasi hunquote htext
          simp only [opening, hne hround, hne hsquare, hne hbrace, hne hquote, hne hquasi,
            hne hunquote, hne htext, hspread, if_false, readOpening, Bool.false_eq_true]

/-- What stands before the elements of a list. -/
theorem head_of_opening {cs : List Char} {close : Char} {head : List Value}
    (h : opening cs = .list close head) :
    head = [] ∨ head = [.symbol "List"] ∨ head = [.symbol "Map"] := by
  cases cs with
  | nil => cases h
  | cons c cs =>
      rw [opening] at h
      repeat' split at h
      all_goals cases h
      · exact .inl rfl
      · exact .inr (.inl rfl)
      · exact .inr (.inr rfl)

/-- Spreading has an opening of its own. -/
theorem form_of_opening {cs : List Char} {form : SpecialForm} {size : Nat}
    (h : opening cs = .wrapped form size) : form ≠ .splice := by
  cases cs with
  | nil => cases h
  | cons c cs =>
      rw [opening] at h
      repeat' split at h
      all_goals cases h
      all_goals decide

/-! ### Tokens -/

section Outcomes

variable {α β ε : Type} {x : Except ε α} {f : α → β}

/-- A result that was mapped. -/
theorem map_eq_ok {b : β} : x.map f = .ok b ↔ ∃ a, x = .ok a ∧ f a = b := by
  cases x <;> simp [Except.map]

/-- A failure is not mapped. -/
theorem map_eq_error {e : ε} : x.map f = .error e ↔ x = .error e := by
  cases x <;> simp [Except.map]

end Outcomes

/-- The segments of a dotted token are read as atoms, each on its own. -/
theorem forall₂_of_atoms {segments : List (List Char)} {at_ : Span} {parts : List Value}
    (h : atoms at_ segments = .ok parts) :
    List.Forall₂ (fun segment v => atom segment at_ = .ok v) segments parts := by
  induction segments generalizing parts with
  | nil =>
      cases h
      exact .nil
  | cons segment rest ih =>
      rw [atoms] at h
      split at h
      · cases h
      · next v hatom =>
          obtain ⟨others, hothers, rfl⟩ := map_eq_ok.mp h
          exact .cons hatom (ih hothers)

/-- A token is an atom, or with dot sugar on, the segments of a member access. -/
theorem classify_eq_ok {dots : Bool} {token : List Char} {at_ : Span} {v : Value}
    (h : classify dots token at_ = .ok v) :
    (dots = true → dotSegments? token = none) ∧ atom token at_ = .ok v ∨
      ∃ segments parts, dotSegments? token = some segments ∧
        List.Forall₂ (fun segment v => atom segment at_ = .ok v) segments parts ∧
        v = .list (.sym SpecialForm.member.symbol :: parts) (some at_) := by
  unfold classify at h
  split at h
  · next segments hdots =>
      obtain ⟨parts, hparts, rfl⟩ := map_eq_ok.mp h
      cases dots with
      | false => cases hdots
      | true => exact .inr ⟨segments, parts, hdots, forall₂_of_atoms hparts, rfl⟩
  · next hdots =>
      refine .inl ⟨?_, h⟩
      rintro rfl
      exact hdots

/-- A text literal that is there, up to its second quote. -/
theorem readText_eq {c : Cursor} {n : Nat} (h : literalLength? c.rest.tail = some n) :
    readText c = match Text.unquote (c.rest.take (n + 1)) with
      | .ok text => .ok (.str text, c.advance (n + 1))
      | .error flaw => .error (.invalidText flaw (c.spanTo (c.advance (n + 1)))) := by
  unfold readText
  rw [h]
  rfl

/-- The complaint where the second quote is missing. -/
theorem readText_of_open {c : Cursor} (h : literalLength? c.rest.tail = none) :
    readText c = .error (.unterminatedText c.here) := by
  unfold readText
  rw [h]

/-- A text literal is a text, and ends behind its second quote. -/
theorem readText_eq_ok {c after : Cursor} {v : Value} (h : readText c = .ok (v, after)) :
    ∃ n text, literalLength? c.rest.tail = some n ∧
      Text.unquote (c.rest.take (n + 1)) = .ok text ∧ v = .str text ∧
      after = c.advance (n + 1) := by
  cases hliteral : literalLength? c.rest.tail with
  | none =>
      rw [readText_of_open hliteral] at h
      cases h
  | some n =>
      rw [readText_eq hliteral] at h
      cases hunquote : Text.unquote (c.rest.take (n + 1)) with
      | error flaw =>
          rw [hunquote] at h
          cases h
      | ok text =>
          rw [hunquote] at h
          cases h
          exact ⟨n, text, rfl, hunquote, rfl, rfl⟩

/-- A token that is there, and its span. -/
theorem readToken_eq (dots : Bool) {c : Cursor} {n : Nat}
    (h : (c.rest.takeWhile isTokenChar).length = n + 1) :
    readToken dots c =
      (classify dots (c.rest.takeWhile isTokenChar) (c.spanTo (c.advance (n + 1)))).map
        fun v => (v, c.advance (n + 1)) := by
  unfold readToken Cursor.scanRun
  rw [h]
  rfl

/-- The complaint where there is none. -/
theorem readToken_of_none (dots : Bool) {c : Cursor}
    (h : (c.rest.takeWhile isTokenChar).length = 0) :
    readToken dots c = .error (.unexpectedCharacter (c.peek?.getD ' ') c.here) := by
  unfold readToken Cursor.scanRun
  rw [h]

/-- A token is the run of token characters at the cursor. -/
theorem readToken_eq_ok {dots : Bool} {c after : Cursor} {v : Value}
    (h : readToken dots c = .ok (v, after)) :
    ∃ span, c.scanRun isTokenChar = some (span, after) ∧
      classify dots (c.rest.takeWhile isTokenChar) span = .ok v := by
  unfold readToken at h
  split at h
  · next span end_ hscan =>
      obtain ⟨form, hform, heq⟩ := map_eq_ok.mp h
      cases heq
      exact ⟨span, hscan, hform⟩
  · cases h

/-! ### Forms -/

/-- The forms that are read one after the other, from one cursor to another. -/
inductive Row (nested : Cursor → Result Value) : Cursor → List Value → Cursor → Prop
  | stop (c : Cursor) : Row nested c [] c
  | form {c middle stop : Cursor} {v : Value} {forms : List Value}
      (hform : nested (skipBlanks c) = .ok (v, middle)) (hforms : Row nested middle forms stop) :
      Row nested c (v :: forms) stop

/-- How a form is put together that starts at the cursor. -/
inductive Production (nested : Cursor → Result Value) (dots : Bool) (c : Cursor) :
    Value → Cursor → Prop
  | list {close : Char} {head forms : List Value} {stop : Cursor} {tail : List Char}
      (hopening : opening c.rest = .list close head)
      (hrow : Row nested (c.advance 1) forms stop)
      (hclose : (skipBlanks stop).rest = close :: tail) :
      Production nested dots c
        (.list (head.reverse ++ forms) (some (c.spanTo ((skipBlanks stop).advance 1))))
        ((skipBlanks stop).advance 1)
  | wrapped {form : SpecialForm} {size : Nat} {inner : Value} {after : Cursor}
      (hopening : opening c.rest = .wrapped form size)
      (hinner : nested (c.advance size) = .ok (inner, after)) :
      Production nested dots c (.list [.sym form.symbol, inner] (some (c.spanTo after))) after
  | spread {inner : Value} {after : Cursor} (hopening : opening c.rest = .splice)
      (hinner : nested (skipBlanks (c.advance 3)) = .ok (inner, after)) :
      Production nested dots c
        (.list [.sym SpecialForm.splice.symbol, inner] (some (c.spanTo after))) after
  | bare (hopening : opening c.rest = .splice)
      (hend : EndsRun (fun next => !isCloser next) (skipBlanks (c.advance 3)).rest) :
      Production nested dots c (.sym SpecialForm.splice.symbol) (skipBlanks (c.advance 3))
  | text {text : String} {after : Cursor} (hopening : opening c.rest = .text)
      (htext : readText c = .ok (.str text, after)) :
      Production nested dots c (.str text) after
  | token {v : Value} {after : Cursor} (hopening : opening c.rest = .token)
      (htoken : readToken dots c = .ok (v, after)) :
      Production nested dots c v after

section Nested

variable {nested : Cursor → Result Value} {c : Cursor}

/-- A wrapped form is read as the form inside. -/
theorem readWrapped_ok {form : SpecialForm} {opened after : Cursor} {v : Value} :
    readWrapped nested form opened c = .ok (v, after) ↔
      ∃ inner, nested c = .ok (inner, after) ∧
        v = .list [.sym form.symbol, inner] (some (opened.spanTo after)) := by
  unfold readWrapped
  cases nested c with
  | error f => simp
  | ok result =>
      obtain ⟨inner, end_⟩ := result
      constructor
      · rintro ⟨⟩
        exact ⟨inner, rfl, rfl⟩
      · rintro ⟨other, heq, rfl⟩
        cases heq
        rfl

/-- A wrapped form is refused as the form inside. -/
theorem readWrapped_error {form : SpecialForm} {opened : Cursor} {f : Failure} :
    readWrapped nested form opened c = .error f ↔ nested c = .error f := by
  unfold readWrapped
  cases nested c with
  | error g => simp
  | ok result => simp

/-- The elements of a list are a row, which its closing bracket ends. -/
theorem row_of_readItems {opened : Span} {close : Char} {turns : Nat} {read items : List Value}
    {after : Cursor} (h : readItems nested opened close turns read c = .ok (items, after)) :
    ∃ forms stop tail, Row nested c forms stop ∧ (skipBlanks stop).rest = close :: tail ∧
      items = read.reverse ++ forms ∧ after = (skipBlanks stop).advance 1 := by
  induction turns generalizing read c with
  | zero => cases h
  | succ turns ih =>
      unfold readItems at h
      dsimp only at h
      split at h
      · cases h
      · next next tail hrest =>
          split at h
          · next hclose =>
              cases h
              rw [hclose] at hrest
              exact ⟨[], c, tail, .stop c, hrest, (List.append_nil _).symm, rfl⟩
          · split at h
            · cases h
            · next v middle hform =>
                obtain ⟨forms, stop, tail, hforms, hstop, rfl, rfl⟩ := ih h
                refine ⟨v :: forms, stop, tail, .form hform hforms, hstop, ?_, rfl⟩
                rw [List.reverse_cons, List.append_assoc]
                rfl

/-- **Every form is put together in one of the six ways.** -/
theorem readNested_production {dots : Bool} {v : Value} {after : Cursor}
    (h : readNested nested dots c = .ok (v, after)) :
    Production nested dots (skipBlanks c) v after := by
  rw [readNested_eq] at h
  generalize skipBlanks c = d at h ⊢
  cases hopening : opening d.rest with
  | nothing =>
      rw [hopening] at h
      cases h
  | list close head =>
      rw [hopening, readOpening, readList] at h
      dsimp only at h
      split at h
      · cases h
      · next items _ hitems =>
          cases h
          obtain ⟨forms, stop, tail, hrow, hstop, rfl, rfl⟩ := row_of_readItems hitems
          exact .list hopening hrow hstop
  | wrapped form size =>
      rw [hopening] at h
      obtain ⟨inner, hinner, rfl⟩ := readWrapped_ok.mp h
      exact .wrapped hopening hinner
  | splice =>
      rw [hopening, readOpening, readSplice] at h
      split at h
      · next hend =>
          cases h
          exact .bare hopening (by rw [hend]; exact endsRun_nil _)
      · next next tail hrest =>
          split at h
          · next hcloser =>
              cases h
              exact .bare hopening (by rw [hrest]; exact endsRun_cons (by simpa using hcloser) tail)
          · obtain ⟨inner, hinner, rfl⟩ := readWrapped_ok.mp h
            exact .spread hopening hinner
  | text =>
      rw [hopening] at h
      have htext : readText d = .ok (v, after) := h
      obtain ⟨_, text, -, -, rfl, -⟩ := readText_eq_ok htext
      exact .text hopening htext
  | token =>
      rw [hopening] at h
      exact .token hopening h

end Nested

/-- The forms of a text are a row. -/
theorem row_of_readForms {dots : Bool} {turns : Nat} {read forms : List Value} {c : Cursor}
    (h : readForms dots turns read c = .ok forms) :
    ∃ others stop, Row (readForm dots maxNesting) c others stop ∧
      forms = read.reverse ++ others := by
  induction turns generalizing read c with
  | zero =>
      cases h
      exact ⟨[], c, .stop c, (List.append_nil _).symm⟩
  | succ turns ih =>
      unfold readForms at h
      dsimp only at h
      split at h
      · cases h
        exact ⟨[], c, .stop c, (List.append_nil _).symm⟩
      · split at h
        · cases h
        · next v middle hform =>
            obtain ⟨others, stop, hothers, rfl⟩ := ih h
            refine ⟨v :: others, stop, .form hform hothers, ?_⟩
            rw [List.reverse_cons, List.append_assoc]
            rfl

end Lisp.Reader
