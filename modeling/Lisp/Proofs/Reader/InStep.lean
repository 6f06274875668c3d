import Lisp.Proofs.Reader.Spans

/-!
# Two texts read in step

The reader takes a text one lexeme at a time, and looks at nothing behind a lexeme but, after
a `...`, at the next one.  So it makes no difference to it where a lexeme stands and what
blanks and comments there are around it.

This is said of two texts at once.  A relation between what is left of them is *in step*
(`InStep`) if it goes on from each lexeme, which must be the same in both, to the next.
Readers at cursors that are so related agree (`Agree`): they read the same forms up to
spans, after which the cursors are related again, or they complain in the same way.

The relation may allow the first text to end while the second one goes on.  Then it only
matters what becomes of a reader that gets through the first text, and a complaint about
the first text says nothing about the second.
-/

namespace Lisp

namespace Value

mutual

/-- A value without the spans that its lists remember. -/
def unplaced : Value → Value
  | .list items _ => .list (unplacedItems items) none
  | v => v

/-- Values without the spans that their lists remember. -/
def unplacedItems : List Value → List Value
  | [] => []
  | v :: rest => unplaced v :: unplacedItems rest

end

/-- Each of the values loses its spans. -/
theorem unplacedItems_eq_map (items : List Value) : unplacedItems items = items.map unplaced := by
  induction items with
  | nil => rfl
  | cons v rest ih => rw [unplacedItems, ih, List.map_cons]

/-- The values differ in the spans of their lists at most. -/
def Alike (a b : Value) : Prop :=
  a.unplaced = b.unplaced

/-- Values that are alike one by one are the same without their spans. -/
theorem map_unplaced_eq {xs ys : List Value} (h : List.Forall₂ Alike xs ys) :
    xs.map unplaced = ys.map unplaced := by
  induction h with
  | nil => rfl
  | cons hfirst _ ih =>
      rw [List.map_cons, List.map_cons, ih]
      exact congrArg (· :: _) hfirst

/-- Lists are alike if their elements are. -/
theorem Alike.list {xs ys : List Value} (h : List.Forall₂ Alike xs ys) (s t : Option Span) :
    (Value.list xs s).Alike (.list ys t) := by
  rw [Alike, unplaced, unplaced, unplacedItems_eq_map, unplacedItems_eq_map, map_unplaced_eq h]

end Value

namespace Reader

open Value (Alike)

/-! ### Lexemes -/

/-- What is left of a text behind the blanks and comments at its start. -/
def ink (cs : List Char) : List Char :=
  cs.drop (blankLength false cs)

/-- The number of characters of the lexeme that a text starts with: a bracket, a mark, a
text literal, which may go to the end for want of a closing quote, or a token. -/
def lexemeLength (cs : List Char) : Nat :=
  match opening cs with
  | .nothing => 0
  | .list .. => 1
  | .wrapped _ size => size
  | .splice => 3
  | .text => ((literalLength? cs.tail).map (· + 1)).getD cs.length
  | .token => max 1 (cs.takeWhile isTokenChar).length

/-- The lexeme that a text starts with. -/
def lexeme (cs : List Char) : List Char :=
  cs.take (lexemeLength cs)

/-- What follows the lexeme that a text starts with. -/
def afterLexeme (cs : List Char) : List Char :=
  cs.drop (lexemeLength cs)

/-- The text starts with a literal that it does not close. -/
def IsOpenLiteral (cs : List Char) : Prop :=
  opening cs = .text ∧ literalLength? cs.tail = none

/-- No blanks are left behind the blanks. -/
theorem ink_ink (cs : List Char) : ink (ink cs) = ink cs := by
  show (ink cs).drop (blankLength false (ink cs)) = ink cs
  rw [show blankLength false (ink cs) = 0 from blankLength_drop false cs, List.drop_zero]

/-- A token is the token characters of its lexeme. -/
theorem takeWhile_lexeme {cs : List Char} (h : opening cs = .token) :
    (lexeme cs).takeWhile isTokenChar = cs.takeWhile isTokenChar := by
  have hlength : lexemeLength cs = max 1 (cs.takeWhile isTokenChar).length := by
    rw [lexemeLength, h]
  have hrun := (List.takeWhile_prefix isTokenChar (l := cs)).length_le
  have hcut := @takeWhile_cut isTokenChar (lexeme cs) (afterLexeme cs)
  rw [lexeme, afterLexeme, List.take_append_drop, hlength, List.length_take] at hcut
  rw [lexeme, hlength]
  exact hcut (by omega)

/-- A closing bracket is a lexeme of its own. -/
theorem opening_closer {close : Char} (hclose : isCloser close = true) (cs : List Char) :
    opening (close :: cs) = .token ∧ lexemeLength (close :: cs) = 1 := by
  simp only [isCloser, Bool.or_eq_true, decide_eq_true_eq] at hclose
  have hrun : isTokenChar close = false := by
    rcases hclose with (rfl | rfl) | rfl
    all_goals decide
  have hopening : opening (close :: cs) = .token := by
    rcases hclose with (rfl | rfl) | rfl
    all_goals rfl
  refine ⟨hopening, ?_⟩
  rw [lexemeLength, hopening]
  simp [hrun]

/-- A text literal ends where its lexeme does. -/
theorem literalLength?_lexeme {cs : List Char} (h : opening cs = .text) :
    literalLength? (lexeme cs).tail = literalLength? cs.tail := by
  cases hliteral : literalLength? cs.tail with
  | none =>
      have hlexeme : lexeme cs = cs := by
        rw [lexeme, lexemeLength, h]
        simp only [hliteral, Option.map_none, Option.getD_none, List.take_length]
      rw [hlexeme, hliteral]
  | some n =>
      have hlexeme : (lexeme cs).tail = cs.tail.take n := by
        rw [lexeme, lexemeLength, h]
        simp only [hliteral, Option.map_some, Option.getD_some]
        cases cs with
        | nil => cases h
        | cons c cs => rfl
      have hn := (literalLength?_append hliteral []).2
      rw [hlexeme]
      refine @literalLength?_cut _ (cs.tail.drop n) _ ?_ ?_
      · rw [List.take_append_drop]
        exact hliteral
      · rw [List.length_take, Nat.min_eq_left hn]

/-! ### In step -/

/-- A relation between what is left of two texts that goes on from one lexeme to the next;
if `short` holds, the first text may end, or break off in a literal, before the second one
does. -/
structure InStep (short : Prop) (K : List Char → List Char → Prop) : Prop where
  ink : ∀ {cs ds}, K cs ds → K (ink cs) (ink ds)
  opening : ∀ {cs ds}, K cs ds → Reader.ink cs = cs → Reader.ink ds = ds →
    short ∧ cs = [] ∨ opening ds = opening cs ∧ ds.head? = cs.head?
  lexeme : ∀ {cs ds}, K cs ds → Reader.opening ds = Reader.opening cs →
    Reader.ink cs = cs → Reader.ink ds = ds → cs ≠ [] →
      short ∧ IsOpenLiteral cs ∨ lexeme ds = lexeme cs ∧ K (afterLexeme cs) (afterLexeme ds)
  /-- The first text does not end behind a `...` that the second one goes on after. -/
  splice : ∀ {cs ds}, K cs ds → Reader.opening cs = .splice → Reader.ink cs = cs →
    Reader.ink ds = ds → Reader.ink (afterLexeme cs) = [] → Reader.ink (afterLexeme ds) = []

/-- What two readers that start in step come to: related results at cursors that are in
step, or complaints of one kind. -/
inductive Agree (short : Prop) (K : List Char → List Char → Prop) {α : Type}
    (R : α → α → Prop) : Result α → Result α → Prop
  | ok {a b : α} {c d : Cursor} (hresult : R a b) (hcursors : K c.rest d.rest) :
      Agree short K R (.ok (a, c)) (.ok (b, d))
  | error {f g : Failure} (hkind : g.cause.name = f.cause.name) :
      Agree short K R (.error f) (.error g)
  | short {f : Failure} {y : Result α} (h : short) : Agree short K R (.error f) y

/-- Complaints of one kind about two places. -/
theorem Agree.refused {short : Prop} {K : List Char → List Char → Prop} {α : Type}
    {R : α → α → Prop} {kind : Complaint} {message message' : String} {s t : Span} :
    Agree short K R (.error (.atSpan kind message s)) (.error (.atSpan kind message' t)) :=
  .error rfl

/-! ### Tokens and text literals -/

/-- A token is refused as malformed. -/
theorem atom_error {token : List Char} {at_ : Span} {f : Failure}
    (h : atom token at_ = .error f) : f.cause.name = Complaint.malformed.name := by
  unfold atom at h
  repeat' split at h
  all_goals cases h
  rfl

theorem atoms_error {segments : List (List Char)} {at_ : Span} {f : Failure}
    (h : atoms at_ segments = .error f) : f.cause.name = Complaint.malformed.name := by
  induction segments with
  | nil => cases h
  | cons segment rest ih =>
      rw [atoms] at h
      split at h
      · next g hfirst =>
          cases h
          exact atom_error hfirst
      · exact ih (map_eq_error.mp h)

theorem classify_error {dots : Bool} {token : List Char} {at_ : Span} {f : Failure}
    (h : classify dots token at_ = .error f) : f.cause.name = Complaint.malformed.name := by
  unfold classify at h
  split at h
  · exact atoms_error (map_eq_error.mp h)
  · exact atom_error h

/-- A token denotes forms that are alike at all places. -/
theorem classify_alike {dots : Bool} {token : List Char} {at_ : Span} {v : Value}
    (h : classify dots token at_ = .ok v) (there : Span) :
    ∃ u, classify dots token there = .ok u ∧ v.Alike u := by
  unfold classify at h ⊢
  split at h
  · next segments _ =>
      obtain ⟨parts, hparts, rfl⟩ := map_eq_ok.mp h
      rw [(atoms_eq_ok hparts there).1]
      exact ⟨_, rfl, .list (List.forall₂_same.mpr fun _ _ => rfl) _ _⟩
  · exact ⟨v, atom_eq_ok h there, rfl⟩

section Readers

variable {short : Prop} {K : List Char → List Char → Prop} {c d : Cursor}

/-- A token. -/
theorem readToken_inStep (dots : Bool) (hopening : opening c.rest = .token)
    (hsame : opening d.rest = opening c.rest) (hlexeme : lexeme d.rest = lexeme c.rest)
    (hafter : K (afterLexeme c.rest) (afterLexeme d.rest)) :
    Agree short K Alike (readToken dots c) (readToken dots d) := by
  have hrun : d.rest.takeWhile isTokenChar = c.rest.takeWhile isTokenChar := by
    rw [← takeWhile_lexeme hopening, ← takeWhile_lexeme (hsame.trans hopening), hlexeme]
  cases hlength : (c.rest.takeWhile isTokenChar).length with
  | zero =>
      rw [readToken_of_none dots hlength, readToken_of_none dots (hrun ▸ hlength)]
      exact .refused
  | succ n =>
      rw [readToken_eq dots hlength, readToken_eq dots (hrun ▸ hlength), hrun]
      have hcursors : K (c.advance (n + 1)).rest (d.advance (n + 1)).rest := by
        have hsize : ∀ {cs : List Char}, opening cs = .token →
            (cs.takeWhile isTokenChar).length = n + 1 → afterLexeme cs = cs.drop (n + 1) := by
          intro cs hcs hrun
          rw [afterLexeme, lexemeLength, hcs]
          simp only [hrun, Nat.max_eq_right (Nat.succ_le_succ (Nat.zero_le n))]
        rw [hsize hopening hlength, hsize (hsame.trans hopening) (hrun ▸ hlength)] at hafter
        exact hafter
      cases hform : classify dots (c.rest.takeWhile isTokenChar)
          (c.spanTo (c.advance (n + 1))) with
      | ok v =>
          obtain ⟨u, hu, halike⟩ := classify_alike hform (d.spanTo (d.advance (n + 1)))
          rw [hu]
          exact .ok halike hcursors
      | error f =>
          cases hother : classify dots (c.rest.takeWhile isTokenChar)
              (d.spanTo (d.advance (n + 1))) with
          | ok u =>
              obtain ⟨v, hv, -⟩ := classify_alike hother (c.spanTo (c.advance (n + 1)))
              cases hform.symm.trans hv
          | error g => exact .error ((classify_error hother).trans (classify_error hform).symm)

/-- A text literal. -/
theorem readText_inStep (hopening : opening c.rest = .text)
    (hsame : opening d.rest = opening c.rest)
    (hlexeme : short ∧ IsOpenLiteral c.rest ∨
      lexeme d.rest = lexeme c.rest ∧ K (afterLexeme c.rest) (afterLexeme d.rest)) :
    Agree short K Alike (readText c) (readText d) := by
  rcases hlexeme with ⟨hshort, -, hliteral⟩ | ⟨hlexeme, hafter⟩
  · rw [readText_of_open hliteral]
    exact .short hshort
  · have hend : literalLength? d.rest.tail = literalLength? c.rest.tail := by
      rw [← literalLength?_lexeme hopening, ← literalLength?_lexeme (hsame.trans hopening), hlexeme]
    cases hliteral : literalLength? c.rest.tail with
    | none =>
        rw [readText_of_open hliteral, readText_of_open (hend.trans hliteral)]
        exact .refused
    | some n =>
        have hsize : ∀ {cs : List Char}, opening cs = .text → literalLength? cs.tail = some n →
            lexemeLength cs = n + 1 := by
          intro cs hcs hn
          rw [lexemeLength, hcs]
          simp only [hn, Option.map_some, Option.getD_some]
        have hc := hsize hopening hliteral
        have hd := hsize (hsame.trans hopening) (hend.trans hliteral)
        have htake : d.rest.take (n + 1) = c.rest.take (n + 1) := by
          rw [lexeme, lexeme, hc, hd] at hlexeme
          exact hlexeme
        have hcursors : K (c.advance (n + 1)).rest (d.advance (n + 1)).rest := by
          rw [afterLexeme, afterLexeme, hc, hd] at hafter
          exact hafter
        rw [readText_eq hliteral, readText_eq (hend.trans hliteral), htake]
        cases Text.unquote (c.rest.take (n + 1)) with
        | ok text => exact .ok rfl hcursors
        | error flaw => exact .refused

/-! ### Forms -/

variable {nested : Cursor → Result Value}

/-- A mark and the form after it. -/
theorem readWrapped_inStep {opened opened' : Cursor} (form : SpecialForm)
    (h : Agree short K Alike (nested c) (nested d)) :
    Agree short K Alike (readWrapped nested form opened c)
      (readWrapped nested form opened' d) := by
  unfold readWrapped
  generalize nested c = x at h ⊢
  generalize nested d = y at h ⊢
  cases h with
  | ok halike hcursors =>
      exact .ok (.list (.cons rfl (.cons halike .nil)) _ _) hcursors
  | error hkind => exact .error hkind
  | short hshort => exact .short hshort

/-- What the reader does at two cursors that are in step. -/
def AgreesInStep (short : Prop) (K : List Char → List Char → Prop)
    (nested : Cursor → Result Value) : Prop :=
  ∀ {c d}, K c.rest d.rest → Agree short K Alike (nested c) (nested d)

/-- A `...` and what follows it. -/
theorem readSplice_inStep (hK : InStep short K) (hnested : AgreesInStep short K nested)
    (hcd : K c.rest d.rest) (hopening : opening c.rest = .splice)
    (hsame : opening d.rest = opening c.rest) (hclean : ink c.rest = c.rest)
    (hclean' : ink d.rest = d.rest) (hafter : K (afterLexeme c.rest) (afterLexeme d.rest)) :
    Agree short K Alike (readSplice nested c) (readSplice nested d) := by
  have hsize : ∀ {c : Cursor}, opening c.rest = .splice →
      (skipBlanks (c.advance 3)).rest = ink (afterLexeme c.rest) := by
    intro c hc
    rw [afterLexeme, lexemeLength, hc]
    rfl
  have hd := hsize (hsame.trans hopening)
  have hc := hsize hopening
  have hnext : K (skipBlanks (c.advance 3)).rest (skipBlanks (d.advance 3)).rest := by
    rw [hc, hd]
    exact hK.ink hafter
  unfold readSplice
  dsimp only
  cases hrest : (skipBlanks (c.advance 3)).rest with
  | nil =>
      have hnone : (skipBlanks (d.advance 3)).rest = [] :=
        hd.trans (hK.splice hcd hopening hclean hclean' (hc.symm.trans hrest))
      rw [hnone]
      exact .ok rfl hnext
  | cons next tail =>
      rcases hK.opening hnext (ink_ink _) (ink_ink _) with ⟨-, hend⟩ | ⟨-, hhead⟩
      · cases hrest.symm.trans hend
      · rw [hrest, List.head?_cons, List.head?_eq_some_iff] at hhead
        obtain ⟨tail', hrest'⟩ := hhead
        rw [hrest']
        dsimp only
        split
        · exact .ok rfl hnext
        · exact readWrapped_inStep .splice (hnested hnext)

/-- The elements of a list, with enough turns in both texts. -/
theorem readItems_inStep (hK : InStep short K) (hcontinues : Continues nested)
    (hnested : AgreesInStep short K nested) (opened opened' : Span) {close : Char}
    (hcloser : isCloser close = true) {turns turns' : Nat} (hcd : K c.rest d.rest)
    (hturns : c.rest.length < turns) (hturns' : d.rest.length < turns')
    {read read' : List Value} (hread : List.Forall₂ Alike read read') :
    Agree short K (List.Forall₂ Alike) (readItems nested opened close turns read c)
      (readItems nested opened' close turns' read' d) := by
  induction turns generalizing c d turns' read read' with
  | zero => exact absurd hturns (Nat.not_lt_zero _)
  | succ turns ih =>
      obtain ⟨turns', rfl⟩ : ∃ n, turns' = n + 1 := ⟨turns' - 1, by omega⟩
      have hskip : K (skipBlanks c).rest (skipBlanks d).rest := hK.ink hcd
      have hfirst := hK.opening hskip (ink_ink c.rest) (ink_ink d.rest)
      unfold readItems
      dsimp only
      cases hrest : (skipBlanks c).rest with
      | nil =>
          rcases hfirst with ⟨hshort, -⟩ | ⟨-, hhead⟩
          · exact .short hshort
          · rw [hrest, List.head?_nil, List.head?_eq_none_iff] at hhead
            rw [hhead]
            exact .refused
      | cons next tail =>
          rcases hfirst with ⟨-, hend⟩ | ⟨hsame, hhead⟩
          · cases hrest.symm.trans hend
          rw [hrest, List.head?_cons, List.head?_eq_some_iff] at hhead
          obtain ⟨tail', hrest'⟩ := hhead
          rw [hrest']
          dsimp only
          split
          · next hclose =>
              subst hclose
              have hnonempty : (skipBlanks c).rest ≠ [] := by
                rw [hrest]
                exact List.cons_ne_nil _ _
              have hbracket := hK.lexeme hskip hsame (ink_ink c.rest) (ink_ink d.rest) hnonempty
              rw [hrest, hrest'] at hbracket
              rcases hbracket with ⟨-, hopen, -⟩ | ⟨-, hafter⟩
              · cases hopen.symm.trans (opening_closer hcloser tail).1
              · refine .ok (List.rel_reverse hread) ?_
                rw [afterLexeme, afterLexeme, (opening_closer hcloser tail).2,
                  (opening_closer hcloser tail').2, ← hrest, ← hrest'] at hafter
                exact hafter
          · have hc := length_rest_skipBlanks_le c
            have hd := length_rest_skipBlanks_le d
            have hagree := hnested hskip
            have hshort : ∀ {v after}, nested (skipBlanks c) = .ok (v, after) →
                after.rest.length < turns := by
              intro v after hform
              have hlt := (hcontinues _).shrinks hform
              omega
            have hshort' : ∀ {v after}, nested (skipBlanks d) = .ok (v, after) →
                after.rest.length < turns' := by
              intro v after hform
              have hlt := (hcontinues _).shrinks hform
              omega
            generalize nested (skipBlanks c) = x at hagree hshort ⊢
            generalize nested (skipBlanks d) = y at hagree hshort' ⊢
            cases hagree with
            | ok halike hcursors => exact ih hcursors (hshort rfl) (hshort' rfl) (.cons halike hread)
            | error hkind => exact .error hkind
            | short h => exact .short h

/-- A list. -/
theorem readList_inStep (hK : InStep short K) (hcontinues : Continues nested)
    (hnested : AgreesInStep short K nested) {close : Char} (hcloser : isCloser close = true)
    (head : List Value) (hafter : K (c.advance 1).rest (d.advance 1).rest) :
    Agree short K Alike (readList nested close head c) (readList nested close head d) := by
  have hhead : List.Forall₂ Alike head head := List.forall₂_same.mpr fun _ _ => rfl
  have hitems := readItems_inStep hK hcontinues hnested (c.spanTo (c.advance 1))
    (d.spanTo (d.advance 1)) hcloser hafter (Nat.lt_succ_self _) (Nat.lt_succ_self _) hhead
  unfold readList
  dsimp only [Cursor.take]
  generalize readItems nested _ close _ head (c.advance 1) = x at hitems ⊢
  generalize readItems nested _ close _ head (d.advance 1) = y at hitems ⊢
  cases hitems with
  | ok halike hcursors => exact .ok (.list halike _ _) hcursors
  | error hkind => exact .error hkind
  | short h => exact .short h

/-- A form is read in step if the forms nested in it are. -/
theorem readNested_inStep (hK : InStep short K) (hcontinues : Continues nested)
    (hnested : AgreesInStep short K nested) (dots : Bool) :
    AgreesInStep short K (readNested nested dots) := by
  intro c d hcd
  rw [readNested_eq, readNested_eq]
  have hskip : K (skipBlanks c).rest (skipBlanks d).rest := hK.ink hcd
  have hclean : ink (skipBlanks c).rest = (skipBlanks c).rest := ink_ink c.rest
  have hclean' : ink (skipBlanks d).rest = (skipBlanks d).rest := ink_ink d.rest
  generalize skipBlanks c = c at hskip hclean ⊢
  generalize skipBlanks d = d at hskip hclean' ⊢
  rcases hK.opening hskip hclean hclean' with ⟨hshort, hend⟩ | ⟨hsame, -⟩
  · rw [hend]
    exact .short hshort
  have hlexeme := hK.lexeme hskip hsame hclean hclean'
  have hfits := opening_fits c.rest
  rw [hsame]
  have hnonempty : opening c.rest ≠ .nothing → c.rest ≠ [] := fun hsome hend => hsome (hend ▸ rfl)
  -- Only a text literal can be left open.
  have hafter : ∀ {o}, opening c.rest = o → o ≠ .nothing → o ≠ .text →
      lexeme d.rest = lexeme c.rest ∧ K (afterLexeme c.rest) (afterLexeme d.rest) := by
    rintro o rfl hsome hother
    exact (hlexeme (hnonempty hsome)).resolve_left fun h => hother h.2.1
  cases hopening : opening c.rest with
  | nothing => exact .refused
  | list close head =>
      rw [hopening] at hfits
      have hsize : ∀ {cs}, opening cs = opening c.rest → afterLexeme cs = cs.drop 1 := by
        intro cs hcs
        rw [afterLexeme, lexemeLength, hcs, hopening]
      have hrest := (hafter hopening nofun nofun).2
      rw [hsize rfl, hsize hsame] at hrest
      exact readList_inStep hK hcontinues hnested hfits head hrest
  | wrapped form size =>
      have hsize : ∀ {cs}, opening cs = opening c.rest → afterLexeme cs = cs.drop size := by
        intro cs hcs
        rw [afterLexeme, lexemeLength, hcs, hopening]
      have hrest := (hafter hopening nofun nofun).2
      rw [hsize rfl, hsize hsame] at hrest
      exact readWrapped_inStep form (hnested hrest)
  | splice =>
      have hrest := (hafter hopening nofun nofun).2
      exact readSplice_inStep hK hnested hskip hopening hsame hclean hclean' hrest
  | text =>
      have hsome : c.rest ≠ [] := hnonempty (by rw [hopening]; exact nofun)
      exact readText_inStep hopening hsame (hlexeme hsome)
  | token =>
      obtain ⟨hsameLexeme, hrest⟩ := hafter hopening nofun nofun
      exact readToken_inStep dots hopening hsame hsameLexeme hrest

end Readers

/-- At every depth, what two readers in step come to agrees. -/
theorem readForm_inStep {short : Prop} {K : List Char → List Char → Prop} (hK : InStep short K)
    (dots : Bool) (levels : Nat) : AgreesInStep short K (readForm dots levels) := by
  induction levels with
  | zero =>
      intro c d _
      exact .refused
  | succ levels ih => exact readNested_inStep hK (readForm_continues dots levels) ih dots

/-! ### Rows of forms and whole texts -/

section Texts

variable {short : Prop} {K : List Char → List Char → Prop} {nested : Cursor → Result Value}
  {c d stop : Cursor} {forms : List Value}

/-- A row of forms in the first text is one in the second. -/
theorem Row.inStep (hK : InStep short K) (hnested : AgreesInStep short K nested)
    (h : Row nested c forms stop) (hcd : K c.rest d.rest) :
    ∃ forms' stop', Row nested d forms' stop' ∧ List.Forall₂ Alike forms forms' ∧
      K stop.rest stop'.rest := by
  induction h generalizing d with
  | stop c => exact ⟨[], d, .stop d, .nil, hcd⟩
  | @form c middle stop v forms hform _ ih =>
      have hskip : K (skipBlanks c).rest (skipBlanks d).rest := hK.ink hcd
      have hagree := hnested hskip
      rw [hform] at hagree
      cases hother : nested (skipBlanks d) with
      | error g =>
          rw [hother] at hagree
          cases hagree
      | ok result =>
          obtain ⟨u, middle'⟩ := result
          rw [hother] at hagree
          cases hagree with
          | ok halike hcursors =>
              obtain ⟨forms', stop', hrow, hforms, hstop⟩ := ih hcursors
              exact ⟨u :: forms', stop', .form hother hrow, .cons halike hforms, hstop⟩

/-- A row of forms is not longer than the text that it takes up. -/
theorem Row.length_le (hcontinues : Continues nested) (h : Row nested c forms stop) :
    forms.length + stop.rest.length ≤ c.rest.length := by
  induction h with
  | stop c => exact Nat.le_of_eq (Nat.zero_add _)
  | @form c middle stop v forms hform _ ih =>
      have hskip := length_rest_skipBlanks_le c
      have hlt := (hcontinues _).shrinks hform
      rw [List.length_cons]
      omega

variable {dots : Bool} {turns turns' : Nat} {read read' : List Value}

/-- A text is read by reading a row of its forms first. -/
theorem readForms_of_row (h : Row (readForm dots maxNesting) c forms stop) :
    readForms dots (forms.length + turns) read c =
      readForms dots turns (forms.reverse ++ read) stop := by
  induction h generalizing read with
  | stop c =>
      rw [List.length_nil, Nat.zero_add]
      rfl
  | @form c middle stop v forms hform _ ih =>
      have hink : (skipBlanks c).rest ≠ [] := by
        intro hend
        have hskipped := (readForm_locates dots maxNesting hform).skipped
        rw [skipBlanks_skipBlanks, maxNesting, readForm, readNested_eq, skipBlanks_skipBlanks,
          hend] at hskipped
        cases hskipped
      rw [List.length_cons, Nat.succ_add, readForms_of_ink hink, hform]
      dsimp only
      rw [ih, List.reverse_cons, List.append_assoc]
      rfl

/-- With enough turns, the forms of a text are a row that goes to its end. -/
theorem row_to_end_of_readForms (h : readForms dots turns read c = .ok forms)
    (hturns : c.rest.length < turns) :
    ∃ others stop, Row (readForm dots maxNesting) c others stop ∧ (skipBlanks stop).rest = [] ∧
      forms = read.reverse ++ others := by
  induction turns generalizing read c with
  | zero => exact absurd hturns (Nat.not_lt_zero _)
  | succ turns ih =>
      by_cases hink : (skipBlanks c).rest = []
      · rw [readForms, Cursor.atEnd, hink] at h
        cases h
        exact ⟨[], c, .stop c, hink, (List.append_nil _).symm⟩
      · rw [readForms_of_ink hink] at h
        split at h
        · cases h
        · next v middle hform =>
            have hskip := length_rest_skipBlanks_le c
            have hlt := (readForm_continues dots maxNesting _).shrinks hform
            obtain ⟨others, stop, hothers, hend, rfl⟩ := ih h (by omega)
            refine ⟨v :: others, stop, .form hform hothers, hend, ?_⟩
            rw [List.reverse_cons, List.append_assoc]
            rfl

/-- The forms read before stand before those that are still to be read. -/
theorem readForms_eq_map :
    readForms dots turns read c = (readForms dots turns [] c).map (read.reverse ++ ·) := by
  induction turns generalizing read c with
  | zero => exact congrArg Except.ok (List.append_nil _).symm
  | succ turns ih =>
      by_cases hink : (skipBlanks c).rest = []
      · rw [readForms, readForms, Cursor.atEnd, hink]
        exact congrArg Except.ok (List.append_nil _).symm
      · rw [readForms_of_ink hink, readForms_of_ink hink]
        split
        · rfl
        · next v middle _ =>
            rw [ih, @ih middle [v]]
            cases readForms dots turns [] middle with
            | error f => rfl
            | ok others =>
                show Except.ok ((v :: read).reverse ++ others) = .ok (read.reverse ++ ([v] ++ others))
                rw [List.reverse_cons, List.append_assoc]

/-- Texts that are in step to their ends are both read, with forms that are alike, or
refused with complaints of one kind. -/
theorem readForms_inStep (dots : Bool) (hK : InStep False K) (hcd : K c.rest d.rest)
    (hturns : c.rest.length < turns) (hturns' : d.rest.length < turns')
    (hread : List.Forall₂ Alike read read') :
    (∃ forms forms', readForms dots turns read c = .ok forms ∧
      readForms dots turns' read' d = .ok forms' ∧ List.Forall₂ Alike forms forms') ∨
    ∃ f g, readForms dots turns read c = .error f ∧ readForms dots turns' read' d = .error g ∧
      g.cause.name = f.cause.name := by
  induction turns generalizing c d turns' read read' with
  | zero => exact absurd hturns (Nat.not_lt_zero _)
  | succ turns ih =>
      obtain ⟨turns', rfl⟩ : ∃ n, turns' = n + 1 := ⟨turns' - 1, by omega⟩
      have hskip : K (skipBlanks c).rest (skipBlanks d).rest := hK.ink hcd
      obtain ⟨-, hhead⟩ :=
        (hK.opening hskip (ink_ink c.rest) (ink_ink d.rest)).resolve_left fun h => h.1
      by_cases hink : (skipBlanks c).rest = []
      · rw [hink, List.head?_nil, List.head?_eq_none_iff] at hhead
        left
        rw [readForms, readForms, Cursor.atEnd, Cursor.atEnd, hink, hhead]
        exact ⟨_, _, rfl, rfl, List.rel_reverse hread⟩
      · have hink' : (skipBlanks d).rest ≠ [] := by
          intro hend
          rw [hend, List.head?_nil, eq_comm, List.head?_eq_none_iff] at hhead
          exact hink hhead
        rw [readForms_of_ink hink, readForms_of_ink hink']
        have hagree := readForm_inStep hK dots maxNesting hskip
        have hc := length_rest_skipBlanks_le c
        have hd := length_rest_skipBlanks_le d
        cases hform : readForm dots maxNesting (skipBlanks c) with
        | error f =>
            cases hother : readForm dots maxNesting (skipBlanks d) with
            | ok result =>
                rw [hform, hother] at hagree
                cases hagree with
                | short h => exact h.elim
            | error g =>
                rw [hform, hother] at hagree
                cases hagree with
                | error hkind => exact .inr ⟨f, g, rfl, rfl, hkind⟩
                | short h => exact h.elim
        | ok result =>
            obtain ⟨v, middle⟩ := result
            cases hother : readForm dots maxNesting (skipBlanks d) with
            | error g =>
                rw [hform, hother] at hagree
                cases hagree
            | ok result' =>
                obtain ⟨u, middle'⟩ := result'
                rw [hform, hother] at hagree
                have hlt := (readForm_continues dots maxNesting _).shrinks hform
                have hlt' := (readForm_continues dots maxNesting _).shrinks hother
                cases hagree with
                | ok halike hcursors =>
                    exact ih hcursors (by omega) (by omega) (.cons halike hread)

end Texts

end Reader

end Lisp
