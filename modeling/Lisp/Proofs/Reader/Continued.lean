import Lisp.Proofs.Reader.Complaints
import Lisp.Proofs.Reader.Tokens

/-!
# Cursors in a longer text

A text may be followed by a line break and more text.  The line break is what keeps
the two apart: it ends a comment and a token, so what stands in the first text is
there in the longer one, and a cursor in the one has its counterpart in the other
(`Continued`).

* Blanks that end before the end of the text are the same in both
  (`Continued.skipBlanks`); blanks that the text ends in go on to what follows the
  line break (`Continued.rest_skipBlanks`).
* A form starts as it did, for no mark becomes longer by a line break
  (`Continued.opening_eq`).
* `ContinuesAt` says what it means for a reader to go on alike in the longer text.
  Tokens and text literals are the readers that need no other: `readToken_continues`,
  `readText_continues`.
-/

namespace Lisp

/-- Two spans over the same place of two texts. -/
structure Span.SamePlace (s t : Span) : Prop where
  file : t.file = s.file
  position : t.position = s.position
  length : t.length = s.length

/-- The same complaint at the same place of two texts. -/
def Failure.Repeats (f g : Failure) : Prop :=
  ∃ kind message s t, f = .atSpan kind message s ∧ g = .atSpan kind message t ∧ s.SamePlace t

/-- A text literal is left open. -/
def Failure.IsOpenText (f : Failure) : Prop :=
  ∃ span, f = .unterminatedText span

namespace Reader

open Text (EndsRun endsRun_cons)

/-! ### Cursors in a longer text -/

/-- The second cursor stands where the first one does, in a text that has a line
break and `more` behind it. -/
structure Continued (c : Cursor) (more : List Char) (c' : Cursor) : Prop where
  file : c'.file = c.file
  position : c'.position = c.position
  rest : c'.rest = c.rest ++ '\n' :: more

namespace Continued

variable {c c' : Cursor} {more : List Char}

/-- Moving over characters of the shorter text. -/
theorem advance (h : Continued c more c') {n : Nat} (hn : n ≤ c.rest.length) :
    Continued (c.advance n) more (c'.advance n) where
  file := h.file
  position := by
    show c'.position + Text.byteLength (c'.rest.take n) = _
    rw [h.position, h.rest, List.take_append_of_le_length hn]
    rfl
  rest := by
    show c'.rest.drop n = _
    rw [h.rest, List.drop_append_of_le_length hn]
    rfl

/-- The empty spans at both. -/
theorem here (h : Continued c more c') : c.here.SamePlace c'.here :=
  ⟨h.file, h.position, rfl⟩

/-- The spans from both to later places. -/
theorem spanTo {d d' : Cursor} (h : Continued c more c') (hd : Continued d more d') :
    (c.spanTo d).SamePlace (c'.spanTo d') := by
  refine ⟨h.file, h.position, ?_⟩
  show d'.position - c'.position = d.position - c.position
  rw [h.position, hd.position]

end Continued

/-- A character belongs to the blanks and comments at the start of a text or ends
them, whatever follows it. -/
theorem blankLength_cons (inComment : Bool) (c : Char) :
    (∃ inside, ∀ cs, blankLength inComment (c :: cs) = blankLength inside cs + 1) ∨
      ∀ cs, blankLength inComment (c :: cs) = 0 := by
  cases inComment with
  | true => exact .inl ⟨c != '\n', fun _ => rfl⟩
  | false =>
      by_cases hblank : Text.isBlank c = true
      · exact .inl ⟨false, fun cs => by simp [blankLength, hblank]⟩
      · by_cases hsemicolon : c = ';'
        · subst hsemicolon
          exact .inl ⟨true, fun cs => by simp [blankLength, hblank]⟩
        · exact .inr fun cs => by simp [blankLength, hblank, hsemicolon]

/-- There are no more blanks than characters. -/
theorem blankLength_le (inComment : Bool) (cs : List Char) :
    blankLength inComment cs ≤ cs.length := by
  induction cs generalizing inComment with
  | nil => exact Nat.le_refl 0
  | cons c cs ih =>
      rcases blankLength_cons inComment c with ⟨inside, hmore⟩ | hnone
      · rw [hmore]
        exact Nat.succ_le_succ (ih inside)
      · rw [hnone]
        exact Nat.zero_le _

/-- Blanks and comments that end before the end of a text. -/
theorem blankLength_append {inComment : Bool} {cs : List Char}
    (h : blankLength inComment cs < cs.length) (more : List Char) :
    blankLength inComment (cs ++ more) = blankLength inComment cs := by
  induction cs generalizing inComment with
  | nil => exact absurd h (Nat.not_lt_zero _)
  | cons c cs ih =>
      rw [List.cons_append]
      rcases blankLength_cons inComment c with ⟨inside, hmore⟩ | hnone
      · rw [hmore] at h ⊢
        rw [hmore, ih (Nat.lt_of_succ_lt_succ h)]
      · rw [hnone, hnone]

/-- A line break ends the blanks and comments that a text ends in. -/
theorem blankLength_append_newline {inComment : Bool} {cs : List Char}
    (h : blankLength inComment cs = cs.length) (more : List Char) :
    blankLength inComment (cs ++ '\n' :: more) = cs.length + 1 + blankLength false more := by
  induction cs generalizing inComment with
  | nil =>
      have hnewline : Text.isBlank '\n' = true := by decide
      cases inComment with
      | true => simp [blankLength, Nat.add_comm]
      | false => simp [blankLength, hnewline, Nat.add_comm]
  | cons c cs ih =>
      rw [List.cons_append]
      rcases blankLength_cons inComment c with ⟨inside, hmore⟩ | hnone
      · rw [hmore] at h ⊢
        rw [ih (Nat.succ.inj h), List.length_cons]
        omega
      · rw [hnone] at h
        cases h

namespace Continued

variable {c c' : Cursor} {more : List Char}

/-- Blanks are skipped alike if the text does not end in them. -/
theorem skipBlanks (h : Continued c more c') (hink : (skipBlanks c).rest ≠ []) :
    Continued (skipBlanks c) more (skipBlanks c') := by
  have hlt : blankLength false c.rest < c.rest.length := by
    rcases Nat.lt_or_ge (blankLength false c.rest) c.rest.length with hlt | hge
    · exact hlt
    · exact absurd (List.drop_eq_nil_of_le hge) hink
  have hlength : blankLength false c'.rest = blankLength false c.rest := by
    rw [h.rest]
    exact blankLength_append hlt _
  unfold Reader.skipBlanks
  rw [hlength]
  exact h.advance (Nat.le_of_lt hlt)

/-- Blanks that the text ends in are skipped with the line break behind them. -/
theorem rest_skipBlanks (h : Continued c more c') (hend : (Reader.skipBlanks c).rest = [])
    (hmore : EndsRun isGap more) : (Reader.skipBlanks c').rest = more := by
  have hall : blankLength false c.rest = c.rest.length :=
    Nat.le_antisymm (blankLength_le _ _) (List.drop_eq_nil_iff.mp hend)
  unfold Reader.skipBlanks
  show c'.rest.drop _ = more
  rw [h.rest, blankLength_append_newline hall, blankLength_eq_zero hmore]
  simp [List.drop_append]

end Continued

/-! ### What starts at a cursor -/

/-- A gap makes no mark longer. -/
theorem isPrefixOf_append_gap {mark : List Char} (hmark : mark.any isGap = false)
    {gap : Char} (hgap : isGap gap = true) (cs more : List Char) :
    mark.isPrefixOf (cs ++ gap :: more) = mark.isPrefixOf cs := by
  induction mark generalizing cs with
  | nil => simp
  | cons m mark ih =>
      rw [List.any_cons, Bool.or_eq_false_iff] at hmark
      obtain ⟨hfirst, hothers⟩ := hmark
      cases cs with
      | nil =>
          have hm : (m == gap) = false := by
            refine beq_false_of_ne fun heq => ?_
            rw [heq, hgap] at hfirst
            cases hfirst
          simp [List.isPrefixOf, hm]
      | cons c cs =>
          simp only [List.cons_append, List.isPrefixOf]
          rw [ih hothers]

/-- A text starts as it did if a gap follows it. -/
theorem opening_append_gap {cs : List Char} (h : cs ≠ []) {gap : Char} (hgap : isGap gap = true)
    (more : List Char) : opening (cs ++ gap :: more) = opening cs := by
  cases cs with
  | nil => exact absurd rfl h
  | cons next cs =>
      have hcomma := @isPrefixOf_append_gap [',', ','] (by decide) gap hgap cs more
      have hdots := @isPrefixOf_append_gap ['.', '.'] (by decide) gap hgap cs more
      simp only [List.cons_append, opening, hcomma, hdots]

/-- The same opening stands at both cursors. -/
theorem Continued.opening_eq {c c' : Cursor} {more : List Char} (h : Continued c more c')
    (hink : c.rest ≠ []) : opening c'.rest = opening c.rest := by
  rw [h.rest]
  exact opening_append_gap hink (by decide) more

/-! ### Readers that go on -/

/-- At the cursor, the reader goes on in a longer text as it does in the shorter. -/
structure ContinuesAt (reader : Cursor → Result Value) (c : Cursor) : Prop where
  /-- A form takes at least one character. -/
  shrinks : ∀ {v after}, reader c = .ok (v, after) → after.rest.length < c.rest.length
  malformed : ∀ {f more c'}, reader c = .error f → f.cause.isIncomplete = false →
    Continued c more c' → ∃ g, reader c' = .error g ∧ f.Repeats g
  onward : ∀ {v after more c'}, reader c = .ok (v, after) → after.rest ≠ [] →
    Continued c more c' → ∃ v' after', reader c' = .ok (v', after') ∧ Continued after more after'
  closed : ∀ {v after close more c'}, reader c = .ok (v, after) → after.rest = [] →
    isCloser close = true → Continued c (close :: more) c' →
      ∃ v' after', reader c' = .ok (v', after') ∧ (skipBlanks after').rest = close :: more
  completes : ∀ {f}, reader c = .error f → f.cause.isIncomplete = true → ¬ f.IsOpenText →
    ∃ suffix, ∀ more c', Continued c (suffix ++ more) c' →
      ∃ v' after', reader c' = .ok (v', after') ∧ after'.rest = more

/-- A reader that goes on at every cursor. -/
def Continues (reader : Cursor → Result Value) : Prop :=
  ∀ c, ContinuesAt reader c

/-- A closing bracket starts no gap. -/
theorem endsRun_closer {close : Char} (hclose : isCloser close = true) (more : List Char) :
    EndsRun isGap (close :: more) := by
  refine endsRun_cons ?_ more
  simp only [isCloser, Bool.or_eq_true, decide_eq_true_eq] at hclose
  rcases hclose with (rfl | rfl) | rfl
  all_goals decide

/-- A reader that goes on alike even where it stops at the end of the text. -/
theorem continuesAt_of_onward {reader : Cursor → Result Value} {c : Cursor}
    (hshrinks : ∀ {v after}, reader c = .ok (v, after) → after.rest.length < c.rest.length)
    (hmalformed : ∀ {f more c'}, reader c = .error f → f.cause.isIncomplete = false →
      Continued c more c' → ∃ g, reader c' = .error g ∧ f.Repeats g)
    (honward : ∀ {v after more c'}, reader c = .ok (v, after) → Continued c more c' →
      ∃ v' after', reader c' = .ok (v', after') ∧ Continued after more after')
    (hcompletes : ∀ {f}, reader c = .error f → f.cause.isIncomplete = true → ¬ f.IsOpenText →
      ∃ suffix, ∀ more c', Continued c (suffix ++ more) c' →
        ∃ v' after', reader c' = .ok (v', after') ∧ after'.rest = more) :
    ContinuesAt reader c where
  shrinks := hshrinks
  malformed := hmalformed
  onward hread _ hc := honward hread hc
  closed := by
    intro v after close more c' hread hend hclose hc
    obtain ⟨v', after', hread', hafter⟩ := honward hread hc
    have hblank : (skipBlanks after).rest = [] := by
      show after.rest.drop _ = []
      rw [hend, List.drop_nil]
    exact ⟨v', after', hread', hafter.rest_skipBlanks hblank (endsRun_closer hclose more)⟩
  completes := hcompletes

/-! ### Tokens and text literals -/

/-- Two results of a reader of tokens at the same place of two texts. -/
inductive Parallel {α : Type} : Except Failure α → Except Failure α → Prop
  | ok (a b : α) : Parallel (.ok a) (.ok b)
  | error {f g : Failure} (h : f.Repeats g) (hmalformed : f.cause.isIncomplete = false) :
      Parallel (.error f) (.error g)

theorem Parallel.map {α β : Type} {x y : Except Failure α} (h : Parallel x y) (k l : α → β) :
    Parallel (x.map k) (y.map l) := by
  cases h with
  | ok a b => exact .ok _ _
  | error hrepeats hmalformed => exact .error hrepeats hmalformed

/-- An atom does not depend on where its token stands. -/
theorem atom_parallel (token : List Char) {s t : Span} (h : s.SamePlace t) :
    Parallel (atom token s) (atom token t) := by
  unfold atom
  split
  · exact .ok _ _
  · exact .ok _ _
  · exact .ok _ _
  · exact .ok _ _
  · exact .ok _ _
  · exact .ok _ _
  · split
    · exact .ok _ _
    · split
      · exact .ok _ _
      · split
        · exact .ok _ _
        · exact .error ⟨_, _, s, t, rfl, rfl, h⟩ rfl

theorem atoms_parallel (segments : List (List Char)) {s t : Span} (h : s.SamePlace t) :
    Parallel (atoms s segments) (atoms t segments) := by
  induction segments with
  | nil => exact .ok _ _
  | cons segment rest ih =>
      have hfirst := atom_parallel segment h
      unfold atoms
      cases hs : atom segment s with
      | error f =>
          rw [hs] at hfirst
          cases ht : atom segment t with
          | error g =>
              rw [ht] at hfirst
              cases hfirst with
              | error hrepeats hmalformed => exact .error hrepeats hmalformed
          | ok v =>
              rw [ht] at hfirst
              cases hfirst
      | ok v =>
          rw [hs] at hfirst
          cases ht : atom segment t with
          | error g =>
              rw [ht] at hfirst
              cases hfirst
          | ok u => exact ih.map _ _

/-- A token does not depend on where it stands. -/
theorem classify_parallel (dots : Bool) (token : List Char) {s t : Span} (h : s.SamePlace t) :
    Parallel (classify dots token s) (classify dots token t) := by
  unfold classify
  split
  · exact (atoms_parallel _ h).map _ _
  · exact atom_parallel token h

/-- A gap ends a token. -/
theorem takeWhile_append_gap {gap : Char} (hgap : isGap gap = true) (cs more : List Char) :
    (cs ++ gap :: more).takeWhile isTokenChar = cs.takeWhile isTokenChar := by
  have hends : isTokenChar gap = false := by
    by_contra htoken
    rw [Bool.not_eq_false] at htoken
    have hnone := not_isGap_of_isInk (isInk_of_isTokenChar htoken)
    rw [hgap] at hnone
    cases hnone
  rw [List.takeWhile_append, List.takeWhile_cons, hends]
  split
  · next hall =>
      rw [if_neg Bool.false_ne_true, List.append_nil]
      exact ((List.takeWhile_prefix isTokenChar).eq_of_length hall).symm
  · rfl

/-- A reader that finds the same form at the same place of a longer text. -/
theorem continuesAt_of_parallel {reader : Cursor → Result Value} {c : Cursor}
    (x : Except Failure Value) (after : Cursor) (hread : reader c = x.map fun v => (v, after))
    (hlt : ∀ v, x = .ok v → after.rest.length < c.rest.length)
    (hlater : ∀ {more c'}, Continued c more c' → ∃ y after',
      reader c' = y.map (fun v => (v, after')) ∧ Parallel x y ∧ Continued after more after') :
    ContinuesAt reader c := by
  have hmalformed : ∀ f, x = .error f → f.cause.isIncomplete = false := by
    -- what a token is refused for shows in any longer text
    obtain ⟨y, -, -, hparallel, -⟩ :=
      @hlater [] { c with rest := c.rest ++ ['\n'] } ⟨rfl, rfl, rfl⟩
    intro f hx
    rw [hx] at hparallel
    cases hparallel with
    | error _ hmalformed => exact hmalformed
  cases x with
  | error f =>
      have hfailed : reader c = .error f := hread
      refine continuesAt_of_onward ?_ ?_ ?_ ?_
      · intro v after hok
        cases hok.symm.trans hfailed
      · intro g more c' hg _ hc
        cases hg.symm.trans hfailed
        obtain ⟨y, after', hread', hparallel, -⟩ := hlater hc
        cases hparallel with
        | error hrepeats _ => exact ⟨_, hread', hrepeats⟩
      · intro v after more c' hok
        cases hok.symm.trans hfailed
      · intro g hg hincomplete
        cases hg.symm.trans hfailed
        rw [hmalformed f rfl] at hincomplete
        cases hincomplete
  | ok v =>
      have hok : reader c = .ok (v, after) := hread
      refine continuesAt_of_onward ?_ ?_ ?_ ?_
      · intro u end_ hend
        cases hend.symm.trans hok
        exact hlt v rfl
      · intro g more c' hg
        cases hg.symm.trans hok
      · intro u end_ more c' hend hc
        cases hend.symm.trans hok
        obtain ⟨y, after', hread', hparallel, hafter⟩ := hlater hc
        cases hparallel with
        | ok _ b => exact ⟨b, after', hread', hafter⟩
      · intro g hg
        cases hg.symm.trans hok

/-- A token. -/
theorem readToken_continues (dots : Bool) {c : Cursor} (hink : c.rest ≠ []) :
    ContinuesAt (readToken dots) c := by
  have hrun : ∀ {more c'}, Continued c more c' →
      c'.rest.takeWhile isTokenChar = c.rest.takeWhile isTokenChar := by
    intro more c' hc
    rw [hc.rest, takeWhile_append_gap (by decide)]
  cases hlength : (c.rest.takeWhile isTokenChar).length with
  | zero =>
      refine continuesAt_of_parallel (.error _) c (readToken_of_none dots hlength) nofun ?_
      intro more c' hc
      have hpeek : c'.peek? = c.peek? := by
        unfold Cursor.peek?
        rw [hc.rest, List.head?_append_of_ne_nil _ hink]
      refine ⟨.error _, c', readToken_of_none dots (by rw [hrun hc, hlength]), ?_, hc⟩
      rw [hpeek]
      exact .error ⟨_, _, _, _, rfl, rfl, hc.here⟩ rfl
  | succ n =>
      have hle : n + 1 ≤ c.rest.length := by
        rw [← hlength]
        exact (List.takeWhile_prefix isTokenChar).length_le
      refine continuesAt_of_parallel _ _ (readToken_eq dots hlength) ?_ ?_
      · intro v _
        show (c.rest.drop (n + 1)).length < c.rest.length
        rw [List.length_drop]
        omega
      · intro more c' hc
        have hafter := hc.advance hle
        have hlater := @readToken_eq dots c' n (by rw [hrun hc, hlength])
        rw [hrun hc] at hlater
        exact ⟨_, _, hlater, classify_parallel dots _ (hc.spanTo hafter), hafter⟩

/-- A text literal that ends ends at the same place in a longer text. -/
theorem literalLength?_append {cs : List Char} {n : Nat} (h : literalLength? cs = some n)
    (more : List Char) : literalLength? (cs ++ more) = some n ∧ n ≤ cs.length := by
  fun_induction literalLength? cs generalizing n with
  | case1 => cases h
  | case2 c cs ih =>
      obtain ⟨k, hk, rfl⟩ := Option.map_eq_some_iff.mp h
      obtain ⟨hlonger, hle⟩ := ih hk
      refine ⟨?_, ?_⟩
      · simp only [List.cons_append, literalLength?, hlonger, Option.map_some]
      · simp only [List.length_cons]
        omega
  | case3 cs =>
      cases h
      exact ⟨by simp [literalLength?], by simp⟩
  | case4 cs => cases h
  | case5 c cs =>
      rename_i hquote hescape ih
      obtain ⟨k, hk, rfl⟩ := Option.map_eq_some_iff.mp h
      obtain ⟨hlonger, hle⟩ := ih hk
      refine ⟨?_, Nat.succ_le_succ hle⟩
      simp [literalLength?, hquote, hescape, hlonger]

/-- A text literal. -/
theorem readText_continues {c : Cursor} (hink : c.rest ≠ []) : ContinuesAt readText c := by
  cases hliteral : literalLength? c.rest.tail with
  | none =>
      have hfailed := readText_of_open hliteral
      refine continuesAt_of_onward ?_ ?_ ?_ ?_
      · intro v after hok
        cases hok.symm.trans hfailed
      · intro f more c' hf hmalformed
        cases hf.symm.trans hfailed
        cases hmalformed
      · intro v after more c' hok
        cases hok.symm.trans hfailed
      · intro f hf _ hopen
        cases hf.symm.trans hfailed
        exact absurd ⟨c.here, rfl⟩ hopen
  | some n =>
      -- the literal and its length are the same in a longer text, and so is its flaw
      let content (c : Cursor) : Except Failure Value :=
        ((Text.unquote (c.rest.take (n + 1))).mapError fun flaw =>
          .invalidText flaw (c.spanTo (c.advance (n + 1)))).map .str
      have hread : ∀ {c : Cursor}, literalLength? c.rest.tail = some n →
          readText c = (content c).map fun v => (v, c.advance (n + 1)) := by
        intro c hliteral
        rw [readText_eq hliteral]
        dsimp only [content]
        cases Text.unquote (c.rest.take (n + 1)) <;> rfl
      have htail : c.rest.tail.length + 1 = c.rest.length := by
        cases hrest : c.rest with
        | nil => exact absurd hrest hink
        | cons next rest => rfl
      have hle : n + 1 ≤ c.rest.length := by
        have hn := (literalLength?_append hliteral []).2
        omega
      refine continuesAt_of_parallel _ _ (hread hliteral) ?_ ?_
      · intro v _
        show (c.rest.drop (n + 1)).length < c.rest.length
        rw [List.length_drop]
        omega
      · intro more c' hc
        have hafter := hc.advance hle
        have hliteral' : literalLength? c'.rest.tail = some n := by
          rw [hc.rest, List.tail_append_of_ne_nil hink]
          exact (literalLength?_append hliteral _).1
        have htake : c'.rest.take (n + 1) = c.rest.take (n + 1) := by
          rw [hc.rest, List.take_append_of_le_length hle]
        refine ⟨_, _, hread hliteral', ?_, hafter⟩
        dsimp only [content]
        rw [htake]
        cases Text.unquote (c.rest.take (n + 1)) with
        | ok text => exact .ok _ _
        | error flaw => exact .error ⟨_, _, _, _, rfl, rfl, hc.spanTo hafter⟩ rfl

end Reader

end Lisp
