import Lisp.Proofs.Equality.Structural
import Lisp.Proofs.Reader.Continuation

/-!
# Cutting a text off

A form that has been read takes up a first part of the text at its cursor.  The text may
be cut off anywhere behind that part, and the same form is read there, up to the spans
of its lists (`readForm_cuts`).  So the reader looks at nothing behind a form that it
could not do without: blanks and runs end at the cut at the latest, no mark becomes one
of a shorter text, and what a `...` is followed by belongs to its own part.

The number of levels need not be the same either, as long as there are no fewer; so a
form that was nested is read on its own.
-/

namespace Lisp

namespace Reader

open Value (same sameItems KeysApart same_equivalenceOn)

/-! ### Blanks and runs up to a cut -/

/-- Blanks and comments go as far as the cut. -/
theorem blankLength_cut (inComment : Bool) (cs more : List Char) :
    blankLength inComment cs = min (blankLength inComment (cs ++ more)) cs.length := by
  induction cs generalizing inComment with
  | nil => rw [List.length_nil, Nat.min_zero, blankLength]
  | cons c cs ih =>
      rw [List.cons_append, List.length_cons]
      rcases blankLength_cons inComment c with ⟨inside, hmore⟩ | hnone
      · rw [hmore, hmore, ih inside, Nat.succ_min_succ]
      · rw [hnone, hnone, Nat.zero_min]

/-- A text literal has at least its closing quote. -/
theorem literalLength?_pos {cs : List Char} {n : Nat} (h : literalLength? cs = some n) : 0 < n := by
  fun_cases literalLength? cs
  all_goals simp_all [literalLength?]
  all_goals omega

/-- A text literal that ends before the cut ends there. -/
theorem literalLength?_cut {cs more : List Char} {n : Nat}
    (h : literalLength? (cs ++ more) = some n) (hn : n ≤ cs.length) :
    literalLength? cs = some n := by
  fun_induction literalLength? cs generalizing n with
  | case1 => exact absurd (literalLength?_pos h) (Nat.not_lt.mpr hn)
  | case2 c cs ih =>
      rw [List.cons_append, List.cons_append, literalLength?] at h
      obtain ⟨k, hk, rfl⟩ := Option.map_eq_some_iff.mp h
      rw [ih hk (by simpa using hn), Option.map_some]
  | case3 cs =>
      simp [literalLength?] at h
      rw [h]
  | case4 cs hshort hquote =>
      -- A backslash at the cut would have to be followed by a character behind it.
      obtain rfl : cs = [] := by
        cases cs with
        | nil => rfl
        | cons c cs => exact (hshort c cs rfl rfl).elim
      have hone : n ≤ 1 := hn
      cases more with
      | nil => cases h
      | cons c more =>
          rw [List.cons_append, List.nil_append, literalLength?] at h
          obtain ⟨k, hk, rfl⟩ := Option.map_eq_some_iff.mp h
          omega
  | case5 c cs hshort hquote hescape ih =>
      have hstep : literalLength? (c :: cs ++ more) =
          (literalLength? (cs ++ more)).map (· + 1) := by
        simp [literalLength?, hquote, hescape]
      rw [hstep] at h
      obtain ⟨k, hk, rfl⟩ := Option.map_eq_some_iff.mp h
      rw [ih hk (Nat.le_of_succ_le_succ hn), Option.map_some]

/-- A run that ends before the cut ends there. -/
theorem takeWhile_cut {member : Char → Bool} {cs more : List Char}
    (h : ((cs ++ more).takeWhile member).length ≤ cs.length) :
    cs.takeWhile member = (cs ++ more).takeWhile member := by
  rw [List.takeWhile_append] at h ⊢
  split
  · next hall =>
      rw [if_pos hall, List.length_append] at h
      have hnil : more.takeWhile member = [] := List.length_eq_zero_iff.mp (by omega)
      rw [hnil, List.append_nil]
      exact (List.takeWhile_prefix member).eq_of_length hall
  · rfl

/-- The number of characters that an opening takes up itself. -/
def Opening.size : Opening → Nat
  | .wrapped _ size => size
  | .splice => 3
  | _ => 1

/-- A mark that is there before the cut, or not there at all. -/
theorem isPrefixOf_cut {mark cs more : List Char}
    (h : mark.isPrefixOf (cs ++ more) = true → mark.length ≤ cs.length) :
    mark.isPrefixOf cs = mark.isPrefixOf (cs ++ more) := by
  rw [Bool.eq_iff_iff, List.isPrefixOf_iff_prefix, List.isPrefixOf_iff_prefix]
  constructor
  · exact fun hprefix => hprefix.trans (List.prefix_append cs more)
  · intro hprefix
    exact List.prefix_of_prefix_length_le hprefix (List.prefix_append cs more)
      (h (List.isPrefixOf_iff_prefix.mpr hprefix))

/-- An opening has at least one character. -/
theorem Opening.size_pos_of_opening (cs : List Char) : 0 < (opening cs).size := by
  cases cs with
  | nil => exact Nat.one_pos
  | cons c cs =>
      rw [opening]
      repeat' split
      all_goals exact Nat.succ_pos _

/-- A comma is a mark of one or of three characters. -/
theorem opening_comma (cs : List Char) :
    opening (',' :: cs) =
      if [',', ','].isPrefixOf cs then .wrapped .unquoteSplice 3 else .wrapped .unquote 1 :=
  rfl

/-- A dot starts a `...` or a token. -/
theorem opening_dot (cs : List Char) :
    opening ('.' :: cs) = if ['.', '.'].isPrefixOf cs then .splice else .token :=
  rfl

/-- A form starts as it did if the cut is behind its opening. -/
theorem opening_cut {cs more : List Char} (h : (opening (cs ++ more)).size ≤ cs.length) :
    opening cs = opening (cs ++ more) := by
  cases cs with
  | nil => exact absurd h (Nat.not_le.mpr (Opening.size_pos_of_opening _))
  | cons c cs =>
      rw [List.cons_append] at h ⊢
      by_cases hcomma : c = ','
      · subst hcomma
        have hmark : [',', ','].isPrefixOf cs = [',', ','].isPrefixOf (cs ++ more) := by
          refine isPrefixOf_cut fun hprefix => ?_
          rw [opening_comma, if_pos hprefix] at h
          exact Nat.le_of_succ_le_succ h
        rw [opening_comma, opening_comma, hmark]
      · by_cases hdot : c = '.'
        · subst hdot
          have hmark : ['.', '.'].isPrefixOf cs = ['.', '.'].isPrefixOf (cs ++ more) := by
            refine isPrefixOf_cut fun hprefix => ?_
            rw [opening_dot, if_pos hprefix] at h
            exact Nat.le_of_succ_le_succ h
          rw [opening_dot, opening_dot, hmark]
        · simp only [opening, hcomma, hdot, if_false, decide_false, Bool.false_and]

/-! ### Cursors before a cut -/

variable {c c' : Cursor} {more : List Char}

/-- Moving over characters before the cut. -/
theorem rest_advance_cut (h : c.rest = c'.rest ++ more) {n : Nat} (hn : n ≤ c'.rest.length) :
    (c.advance n).rest = (c'.advance n).rest ++ more := by
  show c.rest.drop n = c'.rest.drop n ++ more
  rw [h, List.drop_append_of_le_length hn]

/-- Skipping blanks before the cut. -/
theorem rest_skipBlanks_cut (h : c.rest = c'.rest ++ more)
    (hmore : more.length ≤ (skipBlanks c).rest.length) :
    (skipBlanks c).rest = (skipBlanks c').rest ++ more := by
  have hle : blankLength false c.rest ≤ c'.rest.length := by
    have hdrop : (skipBlanks c).rest.length = c.rest.length - blankLength false c.rest :=
      List.length_drop
    have hlength := congrArg List.length h
    have hall := blankLength_le false c.rest
    rw [List.length_append] at hlength
    omega
  have hsame : blankLength false c'.rest = blankLength false c.rest := by
    rw [blankLength_cut false c'.rest more, ← h, Nat.min_eq_left hle]
  unfold skipBlanks
  rw [hsame]
  exact rest_advance_cut h hle

/-- What stands at the cursor stands before the cut. -/
theorem rest_cons_cut {next : Char} {tail : List Char} (h : next :: tail = c'.rest ++ more)
    (hmore : more.length ≤ tail.length) :
    ∃ tail', c'.rest = next :: tail' ∧ tail = tail' ++ more := by
  cases hrest : c'.rest with
  | nil =>
      rw [hrest, List.nil_append] at h
      rw [← h] at hmore
      exact absurd hmore (Nat.not_succ_le_self _)
  | cons first tail' =>
      rw [hrest] at h
      cases h
      exact ⟨tail', rfl, rfl⟩

/-- What the first reader reads, the second one reads in the text that is cut off
somewhere behind it, up to spans. -/
def Cuts (reader reader' : Cursor → Result Value) : Prop :=
  ∀ {c v after}, reader c = .ok (v, after) → ∀ {more c'}, c.rest = c'.rest ++ more →
    more.length ≤ after.rest.length →
      ∃ v' after', reader' c' = .ok (v', after') ∧ after.rest = after'.rest ++ more ∧
        same v' v = true

/-! ### Tokens and text literals -/

/-- An atom has no elements. -/
theorem keysApart_of_atom {token : List Char} {at_ : Span} {v : Value}
    (h : atom token at_ = .ok v) : KeysApart same v := by
  unfold atom at h
  repeat' split at h
  all_goals cases h
  all_goals exact ⟨fun _ => (nomatch ·), fun _ => (nomatch ·)⟩

/-- An atom does not depend on the place of its token. -/
theorem atom_eq_ok {token : List Char} {at_ : Span} {v : Value} (h : atom token at_ = .ok v)
    (there : Span) : atom token there = .ok v := by
  unfold atom at h ⊢
  repeat' split at h
  all_goals cases h
  all_goals simp_all

/-- Neither do the segments of a dotted token. -/
theorem atoms_eq_ok {segments : List (List Char)} {at_ : Span} {parts : List Value}
    (h : atoms at_ segments = .ok parts) (there : Span) :
    atoms there segments = .ok parts ∧ sameItems parts parts = true := by
  have hatoms := forall₂_of_atoms h
  clear h
  induction hatoms with
  | nil => exact ⟨rfl, rfl⟩
  | cons hatom _ ih =>
      obtain ⟨hothers, hsame⟩ := ih
      refine ⟨?_, ?_⟩
      · rw [atoms, atom_eq_ok hatom there]
        dsimp only
        rw [hothers]
        rfl
      · rw [sameItems, same_equivalenceOn.refl (keysApart_of_atom hatom), hsame]
        rfl

/-- A token denotes the same form at every place, up to spans. -/
theorem classify_same {dots : Bool} {token : List Char} {at_ : Span} {v : Value}
    (h : classify dots token at_ = .ok v) (there : Span) :
    ∃ v', classify dots token there = .ok v' ∧ same v' v = true := by
  unfold classify at h ⊢
  split at h
  · next segments _ =>
      obtain ⟨parts, hparts, rfl⟩ := map_eq_ok.mp h
      obtain ⟨hthere, hsame⟩ := atoms_eq_ok hparts there
      rw [hthere]
      refine ⟨_, rfl, ?_⟩
      simp [same, sameItems, hsame]
  · exact ⟨v, atom_eq_ok h there, same_equivalenceOn.refl (keysApart_of_atom h)⟩

/-- A token. -/
theorem readToken_cuts (dots : Bool) : Cuts (readToken dots) (readToken dots) := by
  intro c v after hread more c' hc hmore
  obtain ⟨span, hscan, hclassify⟩ := readToken_eq_ok hread
  unfold Cursor.scanRun at hscan
  split at hscan
  · cases hscan
  · next n hlength =>
      cases hscan
      have hafter : (c.advance (n + 1)).rest.length = c.rest.length - (n + 1) := List.length_drop
      have htoken := (List.takeWhile_prefix (p := isTokenChar) (l := c.rest)).length_le
      have hlengths := congrArg List.length hc
      rw [List.length_append] at hlengths
      have hle : n + 1 ≤ c'.rest.length := by omega
      have hrun : c'.rest.takeWhile isTokenChar = c.rest.takeWhile isTokenChar := by
        rw [hc]
        refine takeWhile_cut ?_
        rw [← hc, hlength]
        exact hle
      obtain ⟨v', hform, hsame⟩ := classify_same hclassify (c'.spanTo (c'.advance (n + 1)))
      refine ⟨v', c'.advance (n + 1), ?_, rest_advance_cut hc hle, hsame⟩
      rw [readToken_eq dots (hrun ▸ hlength), hrun, hform]
      rfl

/-- A text literal. -/
theorem readText_cuts : Cuts readText readText := by
  intro c v after hread more c' hc hmore
  obtain ⟨n, text, hliteral, htext, rfl, rfl⟩ := readText_eq_ok hread
  have hafter : (c.advance (n + 1)).rest.length = c.rest.length - (n + 1) := List.length_drop
  have hlengths := congrArg List.length hc
  rw [List.length_append] at hlengths
  have hn := (literalLength?_append hliteral []).2
  have hpos := literalLength?_pos hliteral
  rw [List.length_tail] at hn
  have hle : n + 1 ≤ c'.rest.length := by omega
  have hink : c'.rest ≠ [] := List.ne_nil_of_length_pos (by omega)
  have hliteral' : literalLength? c'.rest.tail = some n := by
    rw [hc, List.tail_append_of_ne_nil hink] at hliteral
    refine literalLength?_cut hliteral ?_
    rw [List.length_tail]
    omega
  have htake : c'.rest.take (n + 1) = c.rest.take (n + 1) := by
    rw [hc, List.take_append_of_le_length hle]
  refine ⟨.str text, c'.advance (n + 1), ?_, rest_advance_cut hc hle, by simp [same]⟩
  rw [readText_eq hliteral', htake, htext]

/-! ### Forms -/

section Nested

variable {nested nested' : Cursor → Result Value}

/-- The elements of a list end behind its first character. -/
theorem length_of_readItems (hnested : Continues nested) {opened : Span} {close : Char}
    {turns : Nat} {read items : List Value} {after : Cursor}
    (h : readItems nested opened close turns read c = .ok (items, after)) :
    after.rest.length < (skipBlanks c).rest.length := by
  induction turns generalizing read c with
  | zero => cases h
  | succ turns ih =>
      unfold readItems at h
      dsimp only at h
      split at h
      · cases h
      · next next tail hrest =>
          split at h
          · cases h
            show ((skipBlanks c).rest.drop 1).length < _
            rw [hrest]
            exact Nat.lt_succ_self _
          · split at h
            · cases h
            · next v middle hform =>
                have hfirst := (hnested _).shrinks hform
                have hothers := ih h
                have hskip := length_rest_skipBlanks_le middle
                omega

/-- The elements of a list, with enough turns. -/
theorem readItems_cut (hnested : Continues nested) (hnested' : Continues nested')
    (hcuts : Cuts nested nested') {opened : Span} {close : Char} {turns : Nat}
    {read items : List Value} {after : Cursor}
    (h : readItems nested opened close turns read c = .ok (items, after))
    (hc : c.rest = c'.rest ++ more) (hmore : more.length ≤ after.rest.length) (opened' : Span)
    {turns' : Nat} (hturns : c'.rest.length < turns') {read' : List Value}
    (hread : List.Forall₂ (same · ·) read' read) :
    ∃ items' after', readItems nested' opened' close turns' read' c' = .ok (items', after') ∧
      after.rest = after'.rest ++ more ∧ List.Forall₂ (same · ·) items' items := by
  have hlength := length_of_readItems hnested h
  have hskip := rest_skipBlanks_cut hc (by omega)
  induction turns generalizing read read' c c' turns' with
  | zero => cases h
  | succ turns ih =>
      obtain ⟨turns', rfl⟩ : ∃ n, turns' = n + 1 := ⟨turns' - 1, by omega⟩
      unfold readItems at h ⊢
      dsimp only at h ⊢
      split at h
      · cases h
      · next next tail hrest =>
          rw [hrest] at hskip hlength
          rw [List.length_cons] at hlength
          obtain ⟨tail', hrest', rfl⟩ := rest_cons_cut hskip (by omega)
          rw [hrest']
          dsimp only
          split at h
          · next hclose =>
              cases h
              rw [if_pos hclose]
              refine ⟨_, _, rfl, ?_, List.rel_reverse hread⟩
              show (skipBlanks c).rest.drop 1 = (skipBlanks c').rest.drop 1 ++ more
              rw [hrest, hrest']
              rfl
          · next hclose =>
              rw [if_neg hclose]
              split at h
              · cases h
              · next v middle hform =>
                  have hothers := length_of_readItems hnested h
                  have hmiddle := length_rest_skipBlanks_le middle
                  obtain ⟨v', middle', hform', hcut, hsame⟩ :=
                    hcuts hform (hrest.trans (hskip.trans (by rw [hrest']))) (by omega)
                  have hshort := (hnested' _).shrinks hform'
                  have hblanks := length_rest_skipBlanks_le c'
                  rw [hform']
                  exact ih h hcut (by omega) (.cons hsame hread) hothers
                    (rest_skipBlanks_cut hcut (by omega))

/-- A list. -/
theorem readList_cuts (hnested : Continues nested) (hnested' : Continues nested')
    (hcuts : Cuts nested nested') (close : Char) {head : List Value}
    (hhead : List.Forall₂ (same · ·) head head) :
    Cuts (readList nested close head) (readList nested' close head) := by
  intro c v after hread more c' hc hmore
  unfold readList at hread
  dsimp only [Cursor.take] at hread
  split at hread
  · cases hread
  · next items end_ hitems =>
      cases hread
      have hlength := length_of_readItems hnested hitems
      have hblanks := length_rest_skipBlanks_le (c.advance 1)
      have hone : (c.advance 1).rest.length = c.rest.length - 1 := List.length_drop
      have hlengths := congrArg List.length hc
      rw [List.length_append] at hlengths
      have hinside := rest_advance_cut hc (n := 1) (by omega)
      obtain ⟨items', after', hitems', hcut, hsame⟩ := readItems_cut hnested hnested' hcuts hitems
        hinside hmore (c'.spanTo (c'.advance 1)) (Nat.lt_succ_self _) hhead
      refine ⟨.list items' (some (c'.spanTo after')), after', ?_, hcut, ?_⟩
      · unfold readList
        dsimp only [Cursor.take]
        rw [hitems']
      · rw [same]
        exact Value.sameItems_iff.mpr hsame

/-- A mark and the form after it, to which both readers go. -/
theorem readWrapped_cut (hcuts : Cuts nested nested') (form : SpecialForm) {opened opened' : Cursor}
    {v : Value} {after : Cursor} (h : readWrapped nested form opened c = .ok (v, after))
    (hc : c.rest = c'.rest ++ more) (hmore : more.length ≤ after.rest.length) :
    ∃ v' after', readWrapped nested' form opened' c' = .ok (v', after') ∧
      after.rest = after'.rest ++ more ∧ same v' v = true := by
  obtain ⟨inner, hinner, rfl⟩ := readWrapped_ok.mp h
  obtain ⟨inner', after', hinner', hcut, hsame⟩ := hcuts hinner hc hmore
  refine ⟨_, after', readWrapped_ok.mpr ⟨inner', hinner', rfl⟩, hcut, ?_⟩
  simp [same, sameItems, hsame]

/-- What a `...` takes up. -/
theorem length_of_readSplice (hnested : Continues nested) {v : Value} {after : Cursor}
    (h : readSplice nested c = .ok (v, after)) : after.rest.length ≤ (c.advance 3).rest.length := by
  have hskip := length_rest_skipBlanks_le (c.advance 3)
  unfold readSplice at h
  dsimp only at h
  split at h
  · cases h
    exact hskip
  · split at h
    · cases h
      exact hskip
    · obtain ⟨inner, hinner, -⟩ := readWrapped_ok.mp h
      exact Nat.le_trans (Nat.le_of_lt ((hnested _).shrinks hinner)) hskip

/-- A `...` and what follows it. -/
theorem readSplice_cut (hnested : Continues nested) (hcuts : Cuts nested nested') {v : Value}
    {after : Cursor} (h : readSplice nested c = .ok (v, after))
    (hc : c.rest = c'.rest ++ more) (hmore : more.length ≤ after.rest.length)
    (hdots : 3 ≤ c'.rest.length) :
    ∃ v' after', readSplice nested' c' = .ok (v', after') ∧
      after.rest = after'.rest ++ more ∧ same v' v = true := by
  have hskip : more.length ≤ (skipBlanks (c.advance 3)).rest.length →
      (skipBlanks (c.advance 3)).rest = (skipBlanks (c'.advance 3)).rest ++ more :=
    rest_skipBlanks_cut (rest_advance_cut hc hdots)
  have hbare : same (.sym SpecialForm.splice.symbol) (.sym SpecialForm.splice.symbol) = true := by
    simp [same]
  unfold readSplice at h ⊢
  dsimp only at h ⊢
  split at h
  · next hend =>
      cases h
      have hnone := hskip hmore
      rw [hend] at hnone
      obtain ⟨hend', hmore'⟩ := List.append_eq_nil_iff.mp hnone.symm
      rw [hend']
      exact ⟨_, _, rfl, by rw [hend, hend', hmore', List.append_nil], hbare⟩
  · next next tail hrest =>
      split at h
      · next hcloser =>
          cases h
          have hcut := hskip hmore
          cases hrest' : (skipBlanks (c'.advance 3)).rest with
          | nil => exact ⟨_, _, rfl, hcut, hbare⟩
          | cons next' tail' =>
              rw [hrest, hrest'] at hcut
              cases hcut
              dsimp only
              rw [if_pos hcloser]
              exact ⟨_, _, rfl, by rw [hrest, hrest']; rfl, hbare⟩
      · next hcloser =>
          obtain ⟨inner, hinner, -⟩ := readWrapped_ok.mp h
          have hlt := (hnested _).shrinks hinner
          have hcut := hskip (by omega)
          have hcons := hcut
          rw [hrest] at hcons hlt
          rw [List.length_cons] at hlt
          obtain ⟨tail', hrest', -⟩ := rest_cons_cut hcons (by omega)
          rw [hrest']
          dsimp only
          rw [if_neg hcloser]
          exact readWrapped_cut hcuts .splice h hcut hmore

/-- A form is read as it was if the cut is behind it. -/
theorem readNested_cuts (hnested : Continues nested) (hnested' : Continues nested')
    (hcuts : Cuts nested nested') (dots : Bool) :
    Cuts (readNested nested dots) (readNested nested' dots) := by
  intro c v after hread more c' hc hmore
  rw [readNested_eq] at hread ⊢
  have hink : (skipBlanks c).rest ≠ [] := by
    intro hend
    rw [hend] at hread
    cases hread
  have hlt : after.rest.length < (skipBlanks c).rest.length :=
    (readOpening_continues hnested dots hink).shrinks hread
  have hskip := rest_skipBlanks_cut hc (by omega)
  generalize skipBlanks c = d at hread hink hlt hskip
  generalize skipBlanks c' = d' at hskip ⊢
  have hlengths := congrArg List.length hskip
  rw [List.length_append] at hlengths
  have hone : 1 ≤ d'.rest.length := by omega
  have hfits := opening_fits d.rest
  have hsame : (opening d.rest).size ≤ d'.rest.length → opening d'.rest = opening d.rest := by
    rw [hskip]
    exact opening_cut
  cases hopening : opening d.rest with
  | nothing =>
      rw [hopening] at hread
      cases hread
  | list close head =>
      rw [hopening] at hread hsame
      rw [hsame hone]
      refine readList_cuts hnested hnested' hcuts close ?_ hread hskip hmore
      rcases head_of_opening hopening with rfl | rfl | rfl
      · exact .nil
      · exact .cons (by simp [same, Value.symbol]) .nil
      · exact .cons (by simp [same, Value.symbol]) .nil
  | wrapped form size =>
      rw [hopening] at hread hsame hfits
      have hread : readWrapped nested form d (d.advance size) = .ok (v, after) := hread
      obtain ⟨inner, hinner, -⟩ := readWrapped_ok.mp hread
      have hinside := (hnested _).shrinks hinner
      have hdrop : (d.advance size).rest.length = d.rest.length - size := List.length_drop
      have hsize : size ≤ d'.rest.length := by omega
      rw [hsame hsize]
      exact readWrapped_cut hcuts form hread (rest_advance_cut hskip hsize) hmore
  | splice =>
      rw [hopening] at hread hsame hfits
      have hread : readSplice nested d = .ok (v, after) := hread
      have hthree : 3 ≤ d.rest.length := hfits
      have hinside := length_of_readSplice hnested hread
      have hdrop : (d.advance 3).rest.length = d.rest.length - 3 := List.length_drop
      have hdots : 3 ≤ d'.rest.length := by omega
      rw [hsame hdots]
      exact readSplice_cut hnested hcuts hread hskip hmore hdots
  | text =>
      rw [hopening] at hread hsame
      rw [hsame hone]
      exact readText_cuts hread hskip hmore
  | token =>
      rw [hopening] at hread hsame
      rw [hsame hone]
      exact readToken_cuts dots hread hskip hmore

end Nested

/-- A form is read as it was in a text that is cut off behind it, with as many levels or
more. -/
theorem readForm_cuts (dots : Bool) {levels levels' : Nat} (h : levels ≤ levels') :
    Cuts (readForm dots levels) (readForm dots levels') := by
  induction levels generalizing levels' with
  | zero => exact nofun
  | succ levels ih =>
      obtain ⟨levels', rfl⟩ : ∃ n, levels' = n + 1 := ⟨levels' - 1, by omega⟩
      exact readNested_cuts (readForm_continues dots levels) (readForm_continues dots levels')
        (ih (Nat.le_of_succ_le_succ h)) dots

end Reader

end Lisp
