import Lisp.Proofs.Reader.Continued

/-!
# Reading on after a line break

A reader that is fed line by line has to tell a text that more lines can mend from
one that they cannot: `read_continues`.  A malformed text stays malformed, with the
same complaint at the same place, whatever the next lines are; and an incomplete one
can be completed, unless a text literal is left open.

Nothing that was read up to the end of the first text reads differently in the longer
one, with one exception: a `...` at the very end is a symbol there, and may spread a
form of the next line.  That is why a reader that stops at the end of the text is
asked to go on alike only if a closing bracket comes next (`ContinuesAt.closed`).  No
malformed form can follow such a place, and the text that completes a list starts
with its closing bracket.

Each part of the reader passes `ContinuesAt` on from the forms nested in it, and the
number of levels left carries it to all depths (`readForm_continues`).  The elements
of a list are taken without the number of turns, as a relation (`Items`), which is
what the inductions are on.
-/

namespace Lisp

namespace Reader

open Text (EndsRun endsRun_cons)

/-! ### Marks -/

section Marks

variable {nested : Cursor → Result Value} {c : Cursor}

/-- A reader that is another one at the cursor and in all longer texts. -/
theorem ContinuesAt.congr {reader reader' : Cursor → Result Value} (h : ContinuesAt reader c)
    (heq : reader' c = reader c)
    (hlonger : ∀ {more c'}, Continued c more c' → reader' c' = reader c') :
    ContinuesAt reader' c where
  shrinks hread := h.shrinks (heq.symm.trans hread)
  malformed hread hmalformed hc := by
    obtain ⟨g, hg, hrepeats⟩ := h.malformed (heq.symm.trans hread) hmalformed hc
    exact ⟨g, (hlonger hc).trans hg, hrepeats⟩
  onward hread hrest hc := by
    obtain ⟨v', after', hread', hafter⟩ := h.onward (heq.symm.trans hread) hrest hc
    exact ⟨v', after', (hlonger hc).trans hread', hafter⟩
  closed hread hrest hclose hc := by
    obtain ⟨v', after', hread', hafter⟩ := h.closed (heq.symm.trans hread) hrest hclose hc
    exact ⟨v', after', (hlonger hc).trans hread', hafter⟩
  completes hread hincomplete hopen := by
    obtain ⟨suffix, hsuffix⟩ := h.completes (heq.symm.trans hread) hincomplete hopen
    refine ⟨suffix, fun more c' hc => ?_⟩
    obtain ⟨v', after', hread', hafter⟩ := hsuffix more c' hc
    exact ⟨v', after', (hlonger hc).trans hread', hafter⟩

/-- A reader that first moves on. -/
theorem ContinuesAt.after {reader : Cursor → Result Value} (go : Cursor → Cursor)
    (h : ContinuesAt reader (go c)) (hle : (go c).rest.length ≤ c.rest.length)
    (hgo : ∀ {more c'}, Continued c more c' → Continued (go c) more (go c')) :
    ContinuesAt (fun c => reader (go c)) c where
  shrinks hread := Nat.lt_of_lt_of_le (h.shrinks hread) hle
  malformed hread hmalformed hc := h.malformed hread hmalformed (hgo hc)
  onward hread hrest hc := h.onward hread hrest (hgo hc)
  closed hread hrest hclose hc := h.closed hread hrest hclose (hgo hc)
  completes hread hincomplete hopen := by
    obtain ⟨suffix, hsuffix⟩ := h.completes hread hincomplete hopen
    exact ⟨suffix, fun more c' hc => hsuffix more (go c') (hgo hc)⟩

/-- A mark and the form after it. -/
theorem readWrapped_continues (form : SpecialForm) (go : Cursor → Cursor)
    (hnested : ContinuesAt nested (go c)) (hle : (go c).rest.length ≤ c.rest.length)
    (hgo : ∀ {more c'}, Continued c more c' → Continued (go c) more (go c')) :
    ContinuesAt (fun c => readWrapped nested form c (go c)) c where
  shrinks hread := by
    obtain ⟨inner, hinner, -⟩ := readWrapped_ok.mp hread
    exact Nat.lt_of_lt_of_le (hnested.shrinks hinner) hle
  malformed hread hmalformed hc := by
    obtain ⟨g, hg, hrepeats⟩ :=
      hnested.malformed (readWrapped_error.mp hread) hmalformed (hgo hc)
    exact ⟨g, readWrapped_error.mpr hg, hrepeats⟩
  onward hread hrest hc := by
    obtain ⟨inner, hinner, -⟩ := readWrapped_ok.mp hread
    obtain ⟨inner', after', hread', hafter⟩ := hnested.onward hinner hrest (hgo hc)
    exact ⟨_, after', readWrapped_ok.mpr ⟨inner', hread', rfl⟩, hafter⟩
  closed hread hrest hclose hc := by
    obtain ⟨inner, hinner, -⟩ := readWrapped_ok.mp hread
    obtain ⟨inner', after', hread', hafter⟩ := hnested.closed hinner hrest hclose (hgo hc)
    exact ⟨_, after', readWrapped_ok.mpr ⟨inner', hread', rfl⟩, hafter⟩
  completes hread hincomplete hopen := by
    obtain ⟨suffix, hsuffix⟩ :=
      hnested.completes (readWrapped_error.mp hread) hincomplete hopen
    refine ⟨suffix, fun more c' hc => ?_⟩
    obtain ⟨inner', after', hread', hafter⟩ := hsuffix more (go c') (hgo hc)
    exact ⟨_, after', readWrapped_ok.mpr ⟨inner', hread', rfl⟩, hafter⟩

/-- Skipping blanks does not go back. -/
theorem length_rest_skipBlanks_le (c : Cursor) : (skipBlanks c).rest.length ≤ c.rest.length := by
  show (c.rest.drop _).length ≤ c.rest.length
  rw [List.length_drop]
  exact Nat.sub_le _ _

/-- A `...` at the end of the text is a symbol there, and stays one if a closing
bracket comes next. -/
theorem readSplice_continues_of_end (nested : Cursor → Result Value) (hsize : 3 ≤ c.rest.length)
    (hend : (skipBlanks (c.advance 3)).rest = []) : ContinuesAt (readSplice nested) c := by
  have hread : readSplice nested c =
      .ok (.sym SpecialForm.splice.symbol, skipBlanks (c.advance 3)) := by
    unfold readSplice
    dsimp only
    rw [hend]
  refine ⟨?_, ?_, ?_, ?_, ?_⟩
  · intro v after hok
    cases hok.symm.trans hread
    rw [hend]
    exact Nat.lt_of_lt_of_le (Nat.succ_pos 2) hsize
  · intro f more c' hfailed
    cases hfailed.symm.trans hread
  · intro v after more c' hok hrest
    cases hok.symm.trans hread
    exact absurd hend hrest
  · intro v after close more c' _ _ hclose hc
    have hgap := endsRun_closer hclose more
    have hnext : (skipBlanks (c'.advance 3)).rest = close :: more :=
      (hc.advance hsize).rest_skipBlanks hend hgap
    refine ⟨.sym SpecialForm.splice.symbol, skipBlanks (c'.advance 3), ?_, ?_⟩
    · unfold readSplice
      dsimp only
      rw [hnext]
      exact if_pos hclose
    · rw [skipBlanks_eq_self (by rw [hnext]; exact hgap)]
      exact hnext
  · intro f hfailed
    cases hfailed.symm.trans hread

/-- A `...` and what it spreads. -/
theorem readSplice_continues (hnested : Continues nested) (hsize : 3 ≤ c.rest.length) :
    ContinuesAt (readSplice nested) c := by
  have hle : (skipBlanks (c.advance 3)).rest.length + 3 ≤ c.rest.length := by
    have hskip := length_rest_skipBlanks_le (c.advance 3)
    have hlength : (c.advance 3).rest.length = c.rest.length - 3 := List.length_drop
    omega
  cases hrest : (skipBlanks (c.advance 3)).rest with
  | nil => exact readSplice_continues_of_end nested hsize hrest
  | cons next tail =>
      have hsome : (skipBlanks (c.advance 3)).rest ≠ [] := by
        rw [hrest]
        exact List.cons_ne_nil _ _
      have hgo : ∀ {more c'}, Continued c more c' →
          Continued (skipBlanks (c.advance 3)) more (skipBlanks (c'.advance 3)) :=
        fun hc => (hc.advance hsize).skipBlanks hsome
      have hrest' : ∀ {more c'}, Continued c more c' →
          ∃ tail', (skipBlanks (c'.advance 3)).rest = next :: tail' := by
        intro more c' hc
        rw [(hgo hc).rest, hrest]
        exact ⟨_, rfl⟩
      by_cases hcloser : isCloser next = true
      · have hread : ∀ {c : Cursor} {tail}, (skipBlanks (c.advance 3)).rest = next :: tail →
            readSplice nested c =
              .ok (.sym SpecialForm.splice.symbol, skipBlanks (c.advance 3)) := by
          intro c tail hrest
          unfold readSplice
          dsimp only
          rw [hrest]
          exact if_pos hcloser
        refine continuesAt_of_parallel (.ok _) _ (hread hrest) (fun _ _ => by omega) ?_
        intro more c' hc
        obtain ⟨tail', htail⟩ := hrest' hc
        exact ⟨.ok _, _, hread htail, .ok _ _, hgo hc⟩
      · have hread : ∀ {c : Cursor} {tail}, (skipBlanks (c.advance 3)).rest = next :: tail →
            readSplice nested c =
              readWrapped nested .splice c (skipBlanks (c.advance 3)) := by
          intro c tail hrest
          unfold readSplice
          dsimp only
          rw [hrest]
          exact if_neg hcloser
        refine (readWrapped_continues .splice (fun c => skipBlanks (c.advance 3)) (hnested _)
          (by omega) hgo).congr (hread hrest) ?_
        intro more c' hc
        obtain ⟨tail', htail⟩ := hrest' hc
        exact hread htail

end Marks

/-! ### Lists -/

/-- How the reading of the elements of a list ends. -/
inductive Outcome where
  | closed (after : Cursor)
  | refused (f : Failure)
  | leftOpen

/-- The elements of a list from a cursor on, without the number of turns. -/
inductive Items (nested : Cursor → Result Value) (close : Char) : Cursor → Outcome → Prop
  | stop {c : Cursor} (hend : (skipBlanks c).rest = []) : Items nested close c .leftOpen
  | close {c : Cursor} {tail : List Char} (hrest : (skipBlanks c).rest = close :: tail) :
      Items nested close c (.closed ((skipBlanks c).advance 1))
  | bad {c : Cursor} {next : Char} {tail : List Char} {f : Failure}
      (hrest : (skipBlanks c).rest = next :: tail) (hnext : next ≠ close)
      (hitem : nested (skipBlanks c) = .error f) : Items nested close c (.refused f)
  | item {c middle : Cursor} {next : Char} {tail : List Char} {v : Value} {outcome : Outcome}
      (hrest : (skipBlanks c).rest = next :: tail) (hnext : next ≠ close)
      (hitem : nested (skipBlanks c) = .ok (v, middle))
      (hothers : Items nested close middle outcome) : Items nested close c outcome

/-- The result that an outcome stands for; a list that is left open was opened at
`opened`. -/
def Outcome.Gives {α : Type} (opened : Span) : Outcome → Result α → Prop
  | .closed after, result => ∃ a, result = .ok (a, after)
  | .refused f, result => result = .error f
  | .leftOpen, result => ∃ at_, result = .error (.neverClosed opened.image opened at_)

/-- The outcome is one that more text may mend. -/
def Outcome.Mendable : Outcome → Prop
  | .closed _ => False
  | .refused f => f.cause.isIncomplete = true ∧ ¬ f.IsOpenText
  | .leftOpen => True

namespace Items

variable {nested : Cursor → Result Value} {close : Char} {c c' : Cursor} {outcome : Outcome}
  {more : List Char}

/-- The reading of the elements always ends. -/
theorem total (hnested : Continues nested) (close : Char) (c : Cursor) :
    ∃ outcome, Items nested close c outcome := by
  induction hsize : c.rest.length using Nat.strongRecOn generalizing c with
  | ind size ih =>
      cases hrest : (skipBlanks c).rest with
      | nil => exact ⟨_, .stop hrest⟩
      | cons next tail =>
          by_cases hnext : next = close
          · subst hnext
            exact ⟨_, .close hrest⟩
          · cases hitem : nested (skipBlanks c) with
            | error f => exact ⟨_, .bad hrest hnext hitem⟩
            | ok result =>
                obtain ⟨v, middle⟩ := result
                have hskip := length_rest_skipBlanks_le c
                have hlt := (hnested _).shrinks hitem
                obtain ⟨outcome, hothers⟩ := ih middle.rest.length (by omega) middle rfl
                exact ⟨outcome, .item hrest hnext hitem hothers⟩

/-- There are enough turns to get to the end. -/
theorem gives (hnested : Continues nested) (h : Items nested close c outcome) (opened : Span)
    {turns : Nat} (hturns : c.rest.length < turns) (read : List Value) :
    outcome.Gives opened (readItems nested opened close turns read c) := by
  obtain ⟨turns, rfl⟩ : ∃ n, turns = n + 1 := ⟨turns - 1, by omega⟩
  induction h generalizing turns read with
  | stop hend =>
      rw [readItems, hend]
      exact ⟨_, rfl⟩
  | close hrest =>
      rw [readItems, hrest]
      exact ⟨_, if_pos rfl⟩
  | bad hrest hnext hitem =>
      rw [readItems, hrest]
      dsimp only
      rw [if_neg hnext, hitem]
      rfl
  | @item c middle next tail v outcome hrest hnext hitem hothers ih =>
      have hskip := length_rest_skipBlanks_le c
      have hlt := (hnested _).shrinks hitem
      obtain ⟨turns, rfl⟩ : ∃ n, turns = n + 1 := ⟨turns - 1, by omega⟩
      rw [readItems, hrest]
      dsimp only
      rw [if_neg hnext, hitem]
      exact ih (v :: read) turns (by omega)

/-- At the end of the text, the list is left open. -/
theorem of_end (h : Items nested close c outcome) (hend : c.rest = []) : outcome = .leftOpen := by
  have hskip : (skipBlanks c).rest = [] := by
    show c.rest.drop _ = []
    rw [hend, List.drop_nil]
  cases h with
  | stop _ => rfl
  | close hrest => cases hskip.symm.trans hrest
  | bad hrest _ _ => cases hskip.symm.trans hrest
  | item hrest _ _ _ => cases hskip.symm.trans hrest

/-- Where an element or a bracket stands, it stands in a longer text. -/
theorem rest_continued (hc : Continued c more c') {next : Char} {tail : List Char}
    (hrest : (skipBlanks c).rest = next :: tail) :
    Continued (skipBlanks c) more (skipBlanks c') ∧
      (skipBlanks c').rest = next :: (tail ++ '\n' :: more) := by
  have hcontinued := hc.skipBlanks (by rw [hrest]; exact List.cons_ne_nil _ _)
  refine ⟨hcontinued, ?_⟩
  rw [hcontinued.rest, hrest]
  rfl

/-- A list that is closed is closed at the same place of a longer text. -/
theorem continued_closed (hnested : Continues nested) {after : Cursor}
    (h : Items nested close c (.closed after)) (hc : Continued c more c') :
    ∃ after', Items nested close c' (.closed after') ∧ Continued after more after' := by
  generalize houtcome : Outcome.closed after = outcome at h
  induction h generalizing c' with
  | stop _ => cases houtcome
  | bad _ _ _ => cases houtcome
  | @close c tail hrest =>
      cases houtcome
      obtain ⟨hskip, hrest'⟩ := rest_continued hc hrest
      refine ⟨_, .close hrest', hskip.advance ?_⟩
      rw [hrest]
      exact Nat.succ_le_succ (Nat.zero_le _)
  | @item c middle next tail v outcome hrest hnext hitem hothers ih =>
      subst houtcome
      obtain ⟨hskip, hrest'⟩ := rest_continued hc hrest
      have hmiddle : middle.rest ≠ [] := fun hend => nomatch hothers.of_end hend
      obtain ⟨v', middle', hitem', hlater⟩ := (hnested _).onward hitem hmiddle hskip
      obtain ⟨after', hothers', hafter⟩ := ih hlater rfl
      exact ⟨after', .item hrest' hnext hitem' hothers', hafter⟩

/-- A list is closed after its first character. -/
theorem length_closed (hnested : Continues nested) {after : Cursor}
    (h : Items nested close c (.closed after)) : after.rest.length < c.rest.length := by
  generalize houtcome : Outcome.closed after = outcome at h
  induction h with
  | stop _ => cases houtcome
  | bad _ _ _ => cases houtcome
  | @close c tail hrest =>
      cases houtcome
      have hskip := length_rest_skipBlanks_le c
      have hlength : ((skipBlanks c).advance 1).rest.length = (skipBlanks c).rest.length - 1 :=
        List.length_drop
      rw [hrest, List.length_cons] at hskip hlength
      omega
  | @item c middle next tail v outcome hrest hnext hitem hothers ih =>
      have hskip := length_rest_skipBlanks_le c
      have hlt := (hnested _).shrinks hitem
      have hrest := ih houtcome
      omega

/-- A malformed element is malformed in a longer text. -/
theorem continued_refused (hnested : Continues nested) {f : Failure}
    (h : Items nested close c (.refused f)) (hmalformed : f.cause.isIncomplete = false)
    (hc : Continued c more c') : ∃ g, Items nested close c' (.refused g) ∧ f.Repeats g := by
  generalize houtcome : Outcome.refused f = outcome at h
  induction h generalizing c' with
  | stop _ => cases houtcome
  | close _ => cases houtcome
  | bad hrest hnext hitem =>
      cases houtcome
      obtain ⟨hskip, hrest'⟩ := rest_continued hc hrest
      obtain ⟨g, hitem', hrepeats⟩ := (hnested _).malformed hitem hmalformed hskip
      exact ⟨g, .bad hrest' hnext hitem', hrepeats⟩
  | @item c middle next tail v outcome hrest hnext hitem hothers ih =>
      subst houtcome
      obtain ⟨hskip, hrest'⟩ := rest_continued hc hrest
      have hmiddle : middle.rest ≠ [] := fun hend => nomatch hothers.of_end hend
      obtain ⟨v', middle', hitem', hlater⟩ := (hnested _).onward hitem hmiddle hskip
      obtain ⟨g, hothers', hrepeats⟩ := ih hlater rfl
      exact ⟨g, .item hrest' hnext hitem' hothers', hrepeats⟩

/-- A list that is left open, or whose last element is, can be closed. -/
theorem completes (hnested : Continues nested) (hclose : isCloser close = true)
    (h : Items nested close c outcome) (hmendable : outcome.Mendable) :
    ∃ suffix, ∀ more c', Continued c (suffix ++ more) c' →
      ∃ after', Items nested close c' (.closed after') ∧ after'.rest = more := by
  have hbracket : ∀ {c : Cursor} {more}, (skipBlanks c).rest = close :: more →
      ∃ after, Items nested close c (.closed after) ∧ after.rest = more :=
    fun hrest => ⟨_, .close hrest, rest_advance [close] hrest⟩
  induction h with
  | stop hend =>
      refine ⟨[close], fun more c' hc => ?_⟩
      exact hbracket (hc.rest_skipBlanks hend (endsRun_closer hclose more))
  | close _ => exact hmendable.elim
  | bad hrest hnext hitem =>
      obtain ⟨suffix, hsuffix⟩ := (hnested _).completes hitem hmendable.1 hmendable.2
      refine ⟨suffix ++ [close], fun more c' hc => ?_⟩
      rw [List.append_assoc] at hc
      obtain ⟨hskip, hrest'⟩ := rest_continued hc hrest
      obtain ⟨v', middle', hitem', hmiddle⟩ := hsuffix ([close] ++ more) _ hskip
      have hgap : EndsRun isGap middle'.rest := by
        rw [hmiddle]
        exact endsRun_closer hclose more
      obtain ⟨after', hlast, hafter⟩ := hbracket
        ((congrArg Cursor.rest (skipBlanks_eq_self hgap)).trans hmiddle)
      exact ⟨after', .item hrest' hnext hitem' hlast, hafter⟩
  | @item c middle next tail v outcome hrest hnext hitem hothers ih =>
      by_cases hend : middle.rest = []
      · -- the element ends with the text, and the bracket comes right after it
        refine ⟨[close], fun more c' hc => ?_⟩
        obtain ⟨hskip, hrest'⟩ := rest_continued hc hrest
        obtain ⟨v', middle', hitem', hmiddle⟩ := (hnested _).closed hitem hend hclose hskip
        obtain ⟨after', hlast, hafter⟩ := hbracket hmiddle
        exact ⟨after', .item hrest' hnext hitem' hlast, hafter⟩
      · obtain ⟨suffix, hsuffix⟩ := ih hmendable
        refine ⟨suffix, fun more c' hc => ?_⟩
        obtain ⟨hskip, hrest'⟩ := rest_continued hc hrest
        obtain ⟨v', middle', hitem', hlater⟩ := (hnested _).onward hitem hend hskip
        obtain ⟨after', hothers', hafter⟩ := hsuffix more middle' hlater
        exact ⟨after', .item hrest' hnext hitem' hothers', hafter⟩

end Items

section Forms

variable {nested : Cursor → Result Value} {c : Cursor}

/-- A list comes to what its elements come to. -/
theorem readList_gives (hnested : Continues nested) {close : Char} {outcome : Outcome}
    (h : Items nested close (c.advance 1) outcome) (head : List Value) :
    outcome.Gives (c.spanTo (c.advance 1)) (readList nested close head c) := by
  have hitems := h.gives hnested (c.spanTo (c.advance 1)) (Nat.lt_succ_self _) head
  unfold readList
  dsimp only [Cursor.take]
  cases outcome with
  | closed after =>
      obtain ⟨items, hread⟩ := hitems
      rw [hread]
      exact ⟨_, rfl⟩
  | refused f =>
      rw [hitems]
      rfl
  | leftOpen =>
      obtain ⟨at_, hread⟩ := hitems
      rw [hread]
      exact ⟨at_, rfl⟩

/-- A list. -/
theorem readList_continues (hnested : Continues nested) {close : Char}
    (hclose : isCloser close = true) (head : List Value) (hink : c.rest ≠ []) :
    ContinuesAt (readList nested close head) c := by
  have hone : 1 ≤ c.rest.length := List.length_pos_iff.mpr hink
  have hlength : (c.advance 1).rest.length = c.rest.length - 1 := List.length_drop
  obtain ⟨outcome, hitems⟩ := Items.total hnested close (c.advance 1)
  have hread := readList_gives hnested hitems head
  have hcompletes : outcome.Mendable → ∃ suffix, ∀ more c', Continued c (suffix ++ more) c' →
      ∃ v' after', readList nested close head c' = .ok (v', after') ∧ after'.rest = more := by
    intro hmendable
    obtain ⟨suffix, hsuffix⟩ := hitems.completes hnested hclose hmendable
    refine ⟨suffix, fun more c' hc => ?_⟩
    obtain ⟨after', hitems', hafter⟩ := hsuffix more _ (hc.advance hone)
    obtain ⟨v', hread'⟩ := readList_gives hnested hitems' head
    exact ⟨v', after', hread', hafter⟩
  cases outcome with
  | closed after =>
      obtain ⟨v, hread⟩ := hread
      refine continuesAt_of_parallel (.ok v) after hread ?_ ?_
      · intro _ _
        have hlt := hitems.length_closed hnested
        omega
      · intro more c' hc
        obtain ⟨after', hitems', hafter⟩ := hitems.continued_closed hnested (hc.advance hone)
        obtain ⟨v', hread'⟩ := readList_gives hnested hitems' head
        exact ⟨.ok v', after', hread', .ok _ _, hafter⟩
  | refused f =>
      have hread : readList nested close head c = .error f := hread
      refine continuesAt_of_onward ?_ ?_ ?_ ?_
      · intro v after hok
        cases hok.symm.trans hread
      · intro g more c' hg hmalformed hc
        cases hg.symm.trans hread
        obtain ⟨g, hitems', hrepeats⟩ :=
          hitems.continued_refused hnested hmalformed (hc.advance hone)
        exact ⟨g, readList_gives hnested hitems' head, hrepeats⟩
      · intro v after more c' hok
        cases hok.symm.trans hread
      · intro g hg hincomplete hopen
        cases hg.symm.trans hread
        exact hcompletes ⟨hincomplete, hopen⟩
  | leftOpen =>
      obtain ⟨at_, hread⟩ := hread
      refine continuesAt_of_onward ?_ ?_ ?_ ?_
      · intro v after hok
        cases hok.symm.trans hread
      · intro g more c' hg hmalformed
        cases hg.symm.trans hread
        cases hmalformed
      · intro v after more c' hok
        cases hok.symm.trans hread
      · intro g _ _ _
        exact hcompletes trivial

/-- The form that an opening announces. -/
theorem readOpening_continues (hnested : Continues nested) (dots : Bool) (hink : c.rest ≠ []) :
    ContinuesAt (fun c => readOpening nested dots c (opening c.rest)) c := by
  have hsame : ∀ {more c'}, Continued c more c' → opening c'.rest = opening c.rest :=
    fun hc => hc.opening_eq hink
  have hfits := opening_fits c.rest
  cases hopening : opening c.rest with
  | nothing =>
      rw [hopening] at hfits
      exact absurd hfits hink
  | list close head =>
      rw [hopening] at hsame hfits
      refine (readList_continues hnested hfits head hink).congr ?_ fun hc => ?_
      · rw [hopening]
        rfl
      · rw [hsame hc]
        rfl
  | wrapped form size =>
      rw [hopening] at hsame hfits
      have hle : (c.advance size).rest.length ≤ c.rest.length := by
        have hlength : (c.advance size).rest.length = c.rest.length - size := List.length_drop
        omega
      refine (readWrapped_continues form (fun c => c.advance size) (hnested _) hle
        fun hc => hc.advance hfits).congr ?_ fun hc => ?_
      · rw [hopening]
        rfl
      · rw [hsame hc]
        rfl
  | splice =>
      rw [hopening] at hsame hfits
      refine (readSplice_continues hnested hfits).congr ?_ fun hc => ?_
      · rw [hopening]
        rfl
      · rw [hsame hc]
        rfl
  | text =>
      rw [hopening] at hsame
      refine (readText_continues hink).congr ?_ fun hc => ?_
      · rw [hopening]
        rfl
      · rw [hsame hc]
        rfl
  | token =>
      rw [hopening] at hsame
      refine (readToken_continues dots hink).congr ?_ fun hc => ?_
      · rw [hopening]
        rfl
      · rw [hsame hc]
        rfl

/-- Where a mark is followed by the end of the text, an empty list will do. -/
theorem readNested_empty (hnested : Continues nested) (dots : Bool) {more : List Char}
    (hrest : (skipBlanks c).rest = '(' :: ')' :: more) :
    ∃ v after, readNested nested dots c = .ok (v, after) ∧ after.rest = more := by
  have hinside : ((skipBlanks c).advance 1).rest = ')' :: more := rest_advance ['('] hrest
  have hclose : (skipBlanks ((skipBlanks c).advance 1)).rest = ')' :: more := by
    rw [skipBlanks_eq_self (by rw [hinside]; exact endsRun_cons (by decide) more)]
    exact hinside
  obtain ⟨v, hread⟩ := readList_gives hnested (.close hclose) []
  refine ⟨v, _, ?_, rest_advance [')'] hclose⟩
  rw [readNested_eq, hrest]
  exact hread

/-- A form goes on as the forms nested in it do. -/
theorem readNested_continues (hnested : Continues nested) (dots : Bool) :
    Continues (readNested nested dots) := by
  intro c
  by_cases hink : (skipBlanks c).rest = []
  · have hfailed : readNested nested dots c = .error (.unexpectedEnd (skipBlanks c).here) := by
      rw [readNested_eq, hink]
      rfl
    refine continuesAt_of_onward ?_ ?_ ?_ ?_
    · intro v after hok
      cases hok.symm.trans hfailed
    · intro g more c' hg hmalformed
      cases hg.symm.trans hfailed
      cases hmalformed
    · intro v after more c' hok
      cases hok.symm.trans hfailed
    · intro g _ _ _
      refine ⟨['(', ')'], fun more c' hc => readNested_empty hnested dots ?_⟩
      exact hc.rest_skipBlanks hink (endsRun_cons (by decide) _)
  · have hopening := readOpening_continues hnested dots hink
    refine (hopening.after skipBlanks (length_rest_skipBlanks_le c)
      fun hc => hc.skipBlanks hink).congr ?_ fun _ => ?_
    · exact readNested_eq nested dots c
    · exact readNested_eq nested dots _

end Forms

/-- At every depth, the reader goes on. -/
theorem readForm_continues (dots : Bool) (levels : Nat) : Continues (readForm dots levels) := by
  induction levels with
  | zero =>
      intro c
      refine continuesAt_of_onward nofun ?_ nofun ?_
      · intro f more c' hfailed _ hc
        cases hfailed
        exact ⟨_, rfl, _, _, _, _, rfl, rfl, hc.here⟩
      · intro f hfailed hincomplete
        cases hfailed
        cases hincomplete
  | succ levels ih => exact readNested_continues ih dots

/-! ### Whole texts -/

section Texts

variable {dots : Bool} {turns turns' : Nat} {read : List Value} {c c' : Cursor} {f : Failure}

/-- At the end of the text all forms are read. -/
theorem readForms_of_end (hend : c.rest = []) :
    readForms dots turns read c = .ok read.reverse := by
  have hskip : (skipBlanks c).rest = [] := by
    show c.rest.drop _ = []
    rw [hend, List.drop_nil]
  cases turns with
  | zero => rfl
  | succ turns =>
      rw [readForms, Cursor.atEnd, hskip]
      rfl

/-- Before the end of the text there is a form to read. -/
theorem readForms_of_ink (hink : (skipBlanks c).rest ≠ []) :
    readForms dots (turns + 1) read c =
      match readForm dots maxNesting (skipBlanks c) with
      | .error f => .error f
      | .ok (v, after) => readForms dots turns (v :: read) after := by
  have hmore : (skipBlanks c).atEnd = false := List.isEmpty_eq_false_iff.mpr hink
  rw [readForms, hmore]
  rfl

/-- A text is refused for its first form, or for what follows it. -/
theorem readForms_error (hread : readForms dots turns read c = .error f) :
    ∃ n, turns = n + 1 ∧ (skipBlanks c).rest ≠ [] ∧
      (readForm dots maxNesting (skipBlanks c) = .error f ∨
        ∃ v after, readForm dots maxNesting (skipBlanks c) = .ok (v, after) ∧ after.rest ≠ [] ∧
          readForms dots n (v :: read) after = .error f) := by
  cases turns with
  | zero => cases hread
  | succ turns =>
      have hink : (skipBlanks c).rest ≠ [] := by
        intro hend
        rw [readForms, Cursor.atEnd, hend] at hread
        cases hread
      refine ⟨turns, rfl, hink, ?_⟩
      rw [readForms_of_ink hink] at hread
      cases hform : readForm dots maxNesting (skipBlanks c) with
      | error g =>
          rw [hform] at hread
          cases hread
          exact .inl rfl
      | ok result =>
          obtain ⟨v, after⟩ := result
          rw [hform] at hread
          have hafter : after.rest ≠ [] :=
            fun hend => nomatch (readForms_of_end hend).symm.trans hread
          exact .inr ⟨v, after, rfl, hafter, hread⟩

/-- A text that is malformed from a cursor on is malformed in a longer text. -/
theorem readForms_malformed {more : List Char} (hread : readForms dots turns read c = .error f)
    (hmalformed : f.cause.isIncomplete = false) (hc : Continued c more c')
    (hturns : turns ≤ turns') (read' : List Value) :
    ∃ g, readForms dots turns' read' c' = .error g ∧ f.Repeats g := by
  induction turns generalizing turns' read read' c c' with
  | zero => cases hread
  | succ turns ih =>
      obtain ⟨n, hn, hink, hfirst⟩ := readForms_error hread
      cases hn
      obtain ⟨turns', rfl⟩ : ∃ n, turns' = n + 1 := ⟨turns' - 1, by omega⟩
      have hskip := hc.skipBlanks hink
      have hink' : (skipBlanks c').rest ≠ [] := by
        rw [hskip.rest]
        exact List.append_ne_nil_of_left_ne_nil hink _
      have hcontinues := readForm_continues dots maxNesting (skipBlanks c)
      rw [readForms_of_ink hink']
      rcases hfirst with hform | ⟨v, after, hform, hafter, hrest⟩
      · obtain ⟨g, hform', hrepeats⟩ := hcontinues.malformed hform hmalformed hskip
        rw [hform']
        exact ⟨g, rfl, hrepeats⟩
      · obtain ⟨v', after', hform', hlater⟩ := hcontinues.onward hform hafter hskip
        rw [hform']
        exact ih hrest hlater (by omega) _

/-- A text that is incomplete from a cursor on, and leaves no text literal open, can
be completed. -/
theorem readForms_completes (hread : readForms dots turns read c = .error f)
    (hincomplete : f.cause.isIncomplete = true) (hopen : ¬ f.IsOpenText) :
    ∃ suffix, ∀ {c' turns'}, Continued c suffix c' → turns ≤ turns' → ∀ read',
      ∃ forms, readForms dots turns' read' c' = .ok forms := by
  induction turns generalizing read c with
  | zero => cases hread
  | succ turns ih =>
      obtain ⟨n, hn, hink, hfirst⟩ := readForms_error hread
      cases hn
      have hcontinues := readForm_continues dots maxNesting (skipBlanks c)
      have hink' : ∀ {c' more}, Continued c more c' → (skipBlanks c').rest ≠ [] := by
        intro c' more hc
        rw [(hc.skipBlanks hink).rest]
        exact List.append_ne_nil_of_left_ne_nil hink _
      rcases hfirst with hform | ⟨v, after, hform, hafter, hrest⟩
      · obtain ⟨suffix, hsuffix⟩ := hcontinues.completes hform hincomplete hopen
        refine ⟨suffix, fun {c' turns'} hc hturns read' => ?_⟩
        obtain ⟨turns', rfl⟩ : ∃ n, turns' = n + 1 := ⟨turns' - 1, by omega⟩
        obtain ⟨v', after', hform', hafter⟩ :=
          hsuffix [] _ (by rw [List.append_nil]; exact hc.skipBlanks hink)
        rw [readForms_of_ink (hink' hc), hform']
        exact ⟨_, readForms_of_end hafter⟩
      · obtain ⟨suffix, hsuffix⟩ := ih hrest
        refine ⟨suffix, fun {c' turns'} hc hturns read' => ?_⟩
        obtain ⟨turns', rfl⟩ : ∃ n, turns' = n + 1 := ⟨turns' - 1, by omega⟩
        obtain ⟨v', after', hform', hlater⟩ :=
          hcontinues.onward hform hafter (hc.skipBlanks hink)
        rw [readForms_of_ink (hink' hc), hform']
        exact hsuffix hlater (by omega) _

end Texts

/-- A text with another one on the next line. -/
theorem continued_start (text file more : String) :
    Continued (Cursor.start text file) more.toList (Cursor.start (text ++ "\n" ++ more) file) where
  file := rfl
  position := rfl
  rest := by
    show (text ++ "\n" ++ more).toList = text.toList ++ '\n' :: more.toList
    rw [String.toList_append, String.toList_append, List.append_assoc]
    rfl

end Reader

/-- **The verdict of the reader on a text holds for the lines to come.**  If the text is
malformed, then no further line changes the complaint or its place; if it is
incomplete, then some text completes it, unless a text literal is left open. -/
theorem read_continues (text file : String) (dots : Bool) (message : String) (span : Span) :
    (read text file dots = .error (.atSpan .malformed message span) →
      ∀ more, ∃ span', read (text ++ "\n" ++ more) file dots =
        .error (.atSpan .malformed message span') ∧ span.SamePlace span') ∧
    (read text file dots = .error (.atSpan .incomplete message span) →
      ¬ (Failure.atSpan .incomplete message span).IsOpenText →
        ∃ more forms, read (text ++ more) file dots = .ok forms) := by
  have hturns : ∀ more : String, (Cursor.start text file).rest.length + 1 ≤
      (Cursor.start (text ++ "\n" ++ more) file).rest.length + 1 := by
    intro more
    rw [(Reader.continued_start text file more).rest, List.length_append]
    omega
  refine ⟨?_, ?_⟩
  · intro hread more
    obtain ⟨g, hread', kind, message', s, t, hf, hg, hplace⟩ := Reader.readForms_malformed hread rfl
      (Reader.continued_start text file more) (hturns more) []
    cases hf
    exact ⟨t, hread'.trans (congrArg _ hg), hplace⟩
  · intro hread hopen
    obtain ⟨suffix, hsuffix⟩ := Reader.readForms_completes hread rfl hopen
    have hstart := Reader.continued_start text file (String.ofList suffix)
    rw [String.toList_ofList] at hstart
    obtain ⟨forms, hforms⟩ := hsuffix hstart (hturns _) []
    refine ⟨"\n" ++ String.ofList suffix, forms, ?_⟩
    rw [← String.append_assoc]
    exact hforms

/-- A stray bracket stays a stray bracket, and a quote mark in an open list can be
followed by something. -/
theorem read_continues_samples :
    (∀ more, ∃ span', read ("x ]" ++ "\n" ++ more) "sample" true =
      .error (.unexpectedCharacter ']' span') ∧ span'.position = 2) ∧
    ∃ more forms, read ("([x '; a quote" ++ more) "sample" true = .ok forms := by
  have hstray : read "x ]" "sample" true =
      .error (.unexpectedCharacter ']' ⟨"sample", "x ]", 2, 0⟩) := by rfl
  have hopen : read "([x '; a quote" "sample" true =
      .error (.unexpectedEnd ⟨"sample", "([x '; a quote", 14, 0⟩) := by rfl
  refine ⟨fun more => ?_, ?_⟩
  · obtain ⟨span', hread, hplace⟩ := (read_continues _ _ _ _ _).1 hstray more
    exact ⟨span', hread, hplace.position⟩
  · refine (read_continues _ _ _ _ _).2 hopen ?_
    rintro ⟨span, hspan⟩
    have hmessage := congrArg Failure.cause hspan
    simp only [Failure.atSpan, Failure.unterminatedText, Cause.complaint.injEq] at hmessage
    exact absurd hmessage.2 (by decide)

end Lisp
