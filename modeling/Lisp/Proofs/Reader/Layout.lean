import Lisp.Proofs.Reader.Concatenation

/-!
# Layout

What stands between two lexemes is of no account, as long as something does: any two runs of
blanks and comments may be put in each other's place (`read_layout`).  The text before them
must not end in the middle of a text literal or of a comment, which is decided by going over
its characters once (`Place.next`).

The two texts are read in step.  Up to the seam, what is left of them is the same text with
different blanks in it, and no lexeme reaches over the seam; behind it, what is left of them
is the same but for the blanks before it (`aroundSeam_inStep`).
-/

namespace Lisp

namespace Value

mutual

/-- Spans do not count in comparing values. -/
theorem same_unplaced (a b : Value) : same a b.unplaced = same a b := by
  cases b with
  | list items source =>
      cases a with
      | list others _ => exact sameItems_unplaced others items
      | _ => rfl
  | _ => rfl

theorem sameItems_unplaced (xs ys : List Value) :
    sameItems xs (unplacedItems ys) = sameItems xs ys := by
  cases ys with
  | nil => rfl
  | cons y ys =>
      cases xs with
      | nil => rfl
      | cons x xs => rw [unplacedItems, sameItems, sameItems, same_unplaced, sameItems_unplaced]

end

/-- Values that differ in spans at most are equal, if a value is equal to itself. -/
theorem Alike.same {a b : Value} (h : Alike a b) (hself : same a a = true) : same a b = true := by
  rw [← same_unplaced, ← show a.unplaced = b.unplaced from h, same_unplaced]
  exact hself

end Value

namespace Reader

open Value (Alike)

/-! ### Where a text ends -/

/-- What a character may stand in. -/
inductive Place where
  | code
  | comment
  | literal
  | escape
  deriving DecidableEq

/-- Where the character after `c` stands. -/
def Place.next : Place → Char → Place
  | .code, c => if c = '"' then .literal else if c = ';' then .comment else .code
  | .comment, c => if c = '\n' then .code else .comment
  | .literal, c => if c = '"' then .code else if c = '\\' then .escape else .literal
  | .escape, _ => .literal

/-- The text ends neither in a text literal nor in a comment. -/
def IsSettled (cs : List Char) : Prop :=
  cs.foldl Place.next .code = .code

/-- Blanks and comments, each of which ends with its line. -/
inductive Trivia : List Char → Prop
  | nil : Trivia []
  | blank {c : Char} {cs : List Char} (hblank : Text.isBlank c = true) (h : Trivia cs) :
      Trivia (c :: cs)
  | comment {line cs : List Char} (hline : '\n' ∉ line) (h : Trivia cs) :
      Trivia (';' :: line ++ '\n' :: cs)

/-- Where the blanks and comments at the start of a text begin. -/
def Place.ofBlanks (inComment : Bool) : Place :=
  if inComment then .comment else .code

/-- One character of the blanks and comments, and where the next one stands. -/
theorem blankLength_cons_place (inComment : Bool) (c : Char) :
    (∃ inside, (Place.ofBlanks inComment).next c = .ofBlanks inside ∧
      ∀ cs, blankLength inComment (c :: cs) = blankLength inside cs + 1) ∨
    inComment = false ∧ ∀ cs, blankLength inComment (c :: cs) = 0 := by
  cases inComment with
  | true =>
      refine .inl ⟨c != '\n', ?_, fun _ => rfl⟩
      by_cases hnewline : c = '\n'
      · subst hnewline
        rfl
      · simp [Place.ofBlanks, Place.next, hnewline]
  | false =>
      by_cases hblank : Text.isBlank c = true
      · have hquote : c ≠ '"' := by
          rintro rfl
          revert hblank
          decide
        have hsemicolon : c ≠ ';' := by
          rintro rfl
          revert hblank
          decide
        refine .inl ⟨false, ?_, fun cs => by simp [blankLength, hblank]⟩
        simp [Place.ofBlanks, Place.next, hquote, hsemicolon]
      · by_cases hsemicolon : c = ';'
        · subst hsemicolon
          exact .inl ⟨true, rfl, fun cs => by simp [blankLength, hblank]⟩
        · exact .inr ⟨rfl, fun cs => by simp [blankLength, hblank, hsemicolon]⟩

/-- Behind the blanks and comments at its start, a settled text is settled. -/
theorem settled_drop_blankLength {inComment : Bool} {cs : List Char}
    (h : cs.foldl Place.next (.ofBlanks inComment) = .code) :
    IsSettled (cs.drop (blankLength inComment cs)) := by
  induction cs generalizing inComment with
  | nil => rfl
  | cons c cs ih =>
      rcases blankLength_cons_place inComment c with ⟨inside, hnext, hmore⟩ | ⟨rfl, hnone⟩
      · rw [hmore, List.drop_succ_cons]
        rw [List.foldl_cons, hnext] at h
        exact ih h
      · rw [hnone]
        exact h

/-- Blanks and comments that end at the seam go on behind it. -/
theorem blankLength_append_of_settled {inComment : Bool} {cs : List Char}
    (h : cs.foldl Place.next (.ofBlanks inComment) = .code)
    (hall : blankLength inComment cs = cs.length) (more : List Char) :
    blankLength inComment (cs ++ more) = cs.length + blankLength false more := by
  induction cs generalizing inComment with
  | nil =>
      cases inComment with
      | true => cases h
      | false => exact (Nat.zero_add _).symm
  | cons c cs ih =>
      rw [List.cons_append]
      rcases blankLength_cons_place inComment c with ⟨inside, hnext, hmore⟩ | ⟨rfl, hnone⟩
      · rw [List.foldl_cons, hnext] at h
        rw [hmore] at hall ⊢
        rw [ih h (Nat.succ.inj hall), List.length_cons]
        omega
      · rw [hnone] at hall
        cases hall

theorem IsSettled.ink {cs : List Char} (h : IsSettled cs) : IsSettled (ink cs) :=
  @settled_drop_blankLength false cs h

/-- Blanks at the end of a settled text go on behind it. -/
theorem IsSettled.ink_append {cs : List Char} (h : IsSettled cs) (hend : Reader.ink cs = [])
    (more : List Char) : Reader.ink (cs ++ more) = Reader.ink more := by
  have hall : blankLength false cs = cs.length :=
    Nat.le_antisymm (blankLength_le false cs) (List.drop_eq_nil_iff.mp hend)
  have hlength := @blankLength_append_of_settled false cs h hall more
  rw [Reader.ink, hlength, List.drop_length_add_append]
  rfl

/-- A settled text is settled behind its first characters, if these end in code. -/
theorem IsSettled.drop {cs : List Char} (h : IsSettled cs) {n : Nat}
    (hfirst : (cs.take n).foldl Place.next .code = .code) : IsSettled (cs.drop n) := by
  rw [IsSettled, ← List.take_append_drop n cs, List.foldl_append, hfirst] at h
  exact h

/-! ### Lexemes of a settled text -/

/-- Characters that open neither a literal nor a comment. -/
theorem foldl_next_of_code {cs : List Char} (h : ∀ c ∈ cs, c ≠ '"' ∧ c ≠ ';') :
    cs.foldl Place.next .code = .code := by
  induction cs with
  | nil => rfl
  | cons c cs ih =>
      obtain ⟨⟨hquote, hsemicolon⟩, hothers⟩ := List.forall_mem_cons.mp h
      rw [List.foldl_cons, Place.next, if_neg hquote, if_neg hsemicolon]
      exact ih hothers

/-- The quote that closes a text literal. -/
theorem foldl_next_of_literal {cs : List Char} {n : Nat} (h : literalLength? cs = some n) :
    (cs.take n).foldl Place.next .literal = .code := by
  fun_induction literalLength? cs generalizing n with
  | case1 => cases h
  | case2 c cs ih =>
      obtain ⟨k, hk, rfl⟩ := Option.map_eq_some_iff.mp h
      exact ih hk
  | case3 cs =>
      cases h
      rfl
  | case4 cs => cases h
  | case5 c cs hescaped hquote hbackslash ih =>
      obtain ⟨k, hk, rfl⟩ := Option.map_eq_some_iff.mp h
      rw [List.take_succ_cons, List.foldl_cons, Place.next, if_neg hquote, if_neg hbackslash]
      exact ih hk

/-- A text literal that is not closed. -/
theorem foldl_next_of_open {cs : List Char} (h : literalLength? cs = none) :
    cs.foldl Place.next .literal ≠ .code := by
  fun_induction literalLength? cs with
  | case1 => decide
  | case2 c cs ih => exact ih (Option.map_eq_none_iff.mp h)
  | case3 cs => cases h
  | case4 cs hescaped hquote =>
      cases cs with
      | nil => decide
      | cons c cs => exact absurd rfl (hescaped c cs rfl)
  | case5 c cs hescaped hquote hbackslash ih =>
      rw [List.foldl_cons, Place.next, if_neg hquote, if_neg hbackslash]
      exact ih (Option.map_eq_none_iff.mp h)

/-- Behind its first character, a lexeme that is no text literal is made of token
characters. -/
theorem mem_lexeme {cs : List Char} (hliteral : opening cs ≠ .text) {d : Char}
    (hd : d ∈ lexeme cs) : cs.head? = some d ∨ isTokenChar d = true := by
  cases cs with
  | nil => cases hd
  | cons c cs =>
      have hone : d ∈ (c :: cs).take 1 → (c :: cs).head? = some d := by
        intro hd
        rw [List.mem_singleton.mp hd]
        rfl
      cases hopening : opening (c :: cs) with
      | nothing =>
          rw [lexeme, lexemeLength, hopening] at hd
          cases hd
      | list close head =>
          rw [lexeme, lexemeLength, hopening] at hd
          exact .inl (hone hd)
      | wrapped form size =>
          rw [lexeme, lexemeLength, hopening] at hd
          rw [opening] at hopening
          repeat' split at hopening
          all_goals cases hopening
          · exact .inl (hone hd)
          · exact .inl (hone hd)
          · next hprefix =>
              obtain ⟨tail, rfl⟩ := List.isPrefixOf_iff_prefix.mp hprefix
              rcases List.mem_cons.mp hd with rfl | hcomma
              · exact .inl rfl
              · have hmark : d = ',' := by simpa using hcomma
                rw [hmark]
                exact .inr (by decide)
          · exact .inl (hone hd)
      | splice =>
          have hdot : d = '.' := by simpa [lexeme_of_splice hopening, spliceMark] using hd
          rw [hdot]
          exact .inr (by decide)
      | text => exact absurd hopening hliteral
      | token =>
          rw [lexeme, lexemeLength, hopening] at hd
          by_cases hnone : ((c :: cs).takeWhile isTokenChar).length = 0
          · rw [hnone] at hd
            exact .inl (hone hd)
          · rw [Nat.max_eq_right (Nat.pos_of_ne_zero hnone),
              ← List.prefix_iff_eq_take.mp (List.takeWhile_prefix isTokenChar)] at hd
            exact .inr (List.mem_takeWhile_imp hd)

/-- A lexeme that is no text literal has neither a quote nor a semicolon in it. -/
theorem code_of_mem_lexeme {cs : List Char} (hliteral : opening cs ≠ .text)
    (hclean : ink cs = cs) : ∀ c ∈ lexeme cs, c ≠ '"' ∧ c ≠ ';' := by
  intro d hd
  rcases mem_lexeme hliteral hd with hfirst | htoken
  · obtain ⟨tail, rfl⟩ := List.head?_eq_some_iff.mp hfirst
    refine ⟨?_, ?_⟩
    · rintro rfl
      exact hliteral rfl
    · -- a comment would be no ink
      rintro rfl
      have hlength := congrArg List.length hclean
      have hcomment : blankLength false (';' :: tail) = blankLength true tail + 1 := rfl
      rw [ink, hcomment, List.length_drop, List.length_cons] at hlength
      omega
  · refine ⟨?_, ?_⟩
    all_goals
      rintro rfl
      revert htoken
      decide

/-- No lexeme reaches over the end of a settled text, and behind each of them the text is
settled. -/
theorem IsSettled.afterLexeme {cs : List Char} (h : IsSettled cs) (hclean : Reader.ink cs = cs) :
    ¬ IsOpenLiteral cs ∧ IsSettled (afterLexeme cs) := by
  by_cases hopening : opening cs = .text
  · obtain ⟨tail, rfl⟩ : ∃ tail, cs = '"' :: tail := by
      cases cs with
      | nil => cases hopening
      | cons c cs =>
          rw [opening] at hopening
          repeat' split at hopening
          all_goals cases hopening
          next hquote => exact ⟨cs, by rw [hquote]⟩
    cases hliteral : literalLength? tail with
    | none => exact absurd h (foldl_next_of_open hliteral)
    | some n =>
        refine ⟨?_, ?_⟩
        · rintro ⟨-, hopen⟩
          cases hliteral.symm.trans hopen
        · have hlength : lexemeLength ('"' :: tail) = n + 1 := by
            rw [lexemeLength, hopening]
            simp only [List.tail_cons, hliteral, Option.map_some, Option.getD_some]
          rw [Reader.afterLexeme, hlength]
          exact h.drop (foldl_next_of_literal hliteral)
  · exact ⟨fun hopen => hopening hopen.1,
      h.drop (foldl_next_of_code (code_of_mem_lexeme hopening hclean))⟩

/-! ### Around the seam -/

/-- A comment goes on to the end of its line. -/
theorem comment_line {line : List Char} (h : '\n' ∉ line) :
    line.foldl Place.next .comment = .comment ∧ blankLength true line = line.length := by
  induction line with
  | nil => exact ⟨rfl, rfl⟩
  | cons c line ih =>
      rw [List.mem_cons, not_or] at h
      obtain ⟨hplace, hlength⟩ := ih h.2
      have hother : c ≠ '\n' := Ne.symm h.1
      have hinside : (c != '\n') = true := bne_iff_ne.mpr hother
      refine ⟨?_, ?_⟩
      · rw [List.foldl_cons, Place.next, if_neg hother, hplace]
      · rw [blankLength, if_pos rfl, hinside, hlength]
        rfl

/-- Trivia are settled, and there is nothing behind the blanks and comments in them. -/
theorem Trivia.settled {w : List Char} (h : Trivia w) : IsSettled w ∧ ink w = [] := by
  induction h with
  | nil => exact ⟨rfl, rfl⟩
  | @blank c cs hblank _ ih =>
      obtain ⟨hsettled, hink⟩ := ih
      have hlength : blankLength false (c :: cs) = blankLength false cs + 1 := by
        rw [blankLength, if_neg Bool.false_ne_true, if_pos hblank]
      refine ⟨?_, ?_⟩
      · have hplace : Place.next .code c = .code := by
          have hquote : c ≠ '"' := by
            rintro rfl
            revert hblank
            decide
          have hsemicolon : c ≠ ';' := by
            rintro rfl
            revert hblank
            decide
          rw [Place.next, if_neg hquote, if_neg hsemicolon]
        rw [IsSettled, List.foldl_cons, hplace]
        exact hsettled
      · rw [ink, hlength]
        exact hink
  | @comment line cs hline _ ih =>
      obtain ⟨hsettled, hink⟩ := ih
      obtain ⟨hplace, hlength⟩ := comment_line hline
      refine ⟨?_, ?_⟩
      · have hopens : Place.next .code ';' = .comment := rfl
        have hcloses : Place.next .comment '\n' = .code := rfl
        rw [IsSettled, List.cons_append, List.foldl_cons, hopens, List.foldl_append, hplace,
          List.foldl_cons, hcloses]
        exact hsettled
      · have hblanks : blankLength false (';' :: line ++ '\n' :: cs) =
            line.length + 1 + blankLength false cs + 1 := by
          rw [List.cons_append, ← blankLength_append_newline hlength cs]
          rfl
        rw [ink, hblanks, List.cons_append, List.drop_succ_cons, List.drop_append,
          List.drop_eq_nil_of_le (by omega)]
        rw [show line.length + 1 + blankLength false cs - line.length = blankLength false cs + 1
          by omega]
        exact hink

/-- Trivia that are there start with a gap. -/
theorem Trivia.exists_gap {w : List Char} (h : Trivia w) (hsome : w ≠ []) :
    ∃ gap tail, w = gap :: tail ∧ isGap gap = true := by
  cases h with
  | nil => exact absurd rfl hsome
  | blank hblank _ => exact ⟨_, _, rfl, by rw [isGap, hblank, Bool.true_or]⟩
  | comment _ _ => exact ⟨_, _, rfl, by decide⟩

section Seam

variable {w w' more : List Char}

/-- What is left of a text with `w` before `more`, and of the same text with `w'` there: a
settled text before the seam, or behind it the same but for blanks. -/
def AroundSeam (w w' more cs ds : List Char) : Prop :=
  (∃ front, IsSettled front ∧ cs = front ++ (w ++ more) ∧ ds = front ++ (w' ++ more)) ∨
    ink cs = ink ds

/-- Blanks at the end of what stands before the seam go on behind it. -/
theorem ink_seam (hw : Trivia w) {front : List Char} (hfront : IsSettled front)
    (hend : ink front = []) : ink (front ++ (w ++ more)) = ink more := by
  obtain ⟨hsettled, hnone⟩ := hw.settled
  rw [hfront.ink_append hend, hsettled.ink_append hnone]

/-- No ink is left in the one text if none is left in the other. -/
theorem AroundSeam.ink_eq_nil (hw : Trivia w) (hw' : Trivia w') {cs ds : List Char}
    (h : AroundSeam w w' more cs ds) (hend : ink cs = []) : ink ds = [] := by
  rcases h with ⟨front, hfront, rfl, rfl⟩ | hsame
  · by_cases hnone : ink front = []
    · rw [ink_seam hw hfront hnone] at hend
      rw [ink_seam hw' hfront hnone, hend]
    · rw [ink_append_of_ne_nil hnone] at hend
      exact absurd (List.append_eq_nil_iff.mp hend).1 hnone
  · rw [← hsame, hend]

/-- Where a lexeme starts, the two texts are the same, or it stands before the seam in
both. -/
theorem AroundSeam.eq_or_front (hw : Trivia w) (hw' : Trivia w') {cs ds : List Char}
    (h : AroundSeam w w' more cs ds) (hcs : ink cs = cs) (hds : ink ds = ds) :
    cs = ds ∨ ∃ front, front ≠ [] ∧ ink front = front ∧ IsSettled front ∧
      cs = front ++ (w ++ more) ∧ ds = front ++ (w' ++ more) := by
  rcases h with ⟨front, hfront, rfl, rfl⟩ | hsame
  · by_cases hnone : ink front = []
    · rw [ink_seam hw hfront hnone] at hcs
      rw [ink_seam hw' hfront hnone] at hds
      exact .inl (hcs.symm.trans hds)
    · have hclean : ink front = front := by
        rw [ink_append_of_ne_nil hnone] at hcs
        exact List.append_cancel_right hcs
      exact .inr ⟨front, hclean ▸ hnone, hclean, hfront, rfl, rfl⟩
  · rw [hcs, hds] at hsame
    exact .inl hsame

/-- Behind a lexeme, the two texts are in step again. -/
theorem AroundSeam.lexeme (hw : Trivia w) (hsome : w ≠ []) (hw' : Trivia w') (hsome' : w' ≠ [])
    {cs ds : List Char} (h : AroundSeam w w' more cs ds) (hcs : ink cs = cs)
    (hds : ink ds = ds) :
    Reader.lexeme ds = Reader.lexeme cs ∧
      AroundSeam w w' more (afterLexeme cs) (afterLexeme ds) := by
  rcases h.eq_or_front hw hw' hcs hds with rfl | ⟨front, hfront, hclean, hsettled, rfl, rfl⟩
  · exact ⟨rfl, .inr rfl⟩
  · obtain ⟨hclosed, hafter⟩ := hsettled.afterLexeme hclean
    obtain ⟨gap, tail, rfl, hgap⟩ := hw.exists_gap hsome
    obtain ⟨gap', tail', rfl, hgap'⟩ := hw'.exists_gap hsome'
    obtain ⟨hlexeme, hrest⟩ := lexeme_append_gap hfront hclosed hgap (tail ++ more)
    obtain ⟨hlexeme', hrest'⟩ := lexeme_append_gap hfront hclosed hgap' (tail' ++ more)
    exact ⟨hlexeme'.trans hlexeme.symm, .inl ⟨_, hafter, hrest, hrest'⟩⟩

/-- **The two texts are read in step.** -/
theorem aroundSeam_inStep (hw : Trivia w) (hsome : w ≠ []) (hw' : Trivia w') (hsome' : w' ≠ []) :
    InStep False (AroundSeam w w' more) where
  ink := by
    intro cs ds h
    rcases h with ⟨front, hfront, rfl, rfl⟩ | hsame
    · by_cases hnone : Reader.ink front = []
      · rw [ink_seam hw hfront hnone, ink_seam hw' hfront hnone]
        exact .inr rfl
      · exact .inl ⟨_, hfront.ink, ink_append_of_ne_nil hnone _, ink_append_of_ne_nil hnone _⟩
    · rw [hsame]
      exact .inr rfl
  opening := by
    intro cs ds h hcs hds
    rcases h.eq_or_front hw hw' hcs hds with rfl | ⟨front, hfront, -, -, rfl, rfl⟩
    · exact .inr ⟨rfl, rfl⟩
    · obtain ⟨gap, tail, rfl, hgap⟩ := hw.exists_gap hsome
      obtain ⟨gap', tail', rfl, hgap'⟩ := hw'.exists_gap hsome'
      refine .inr ⟨?_, ?_⟩
      · rw [List.cons_append, List.cons_append, opening_append_gap hfront hgap',
          opening_append_gap hfront hgap]
      · rw [List.head?_append_of_ne_nil _ hfront, List.head?_append_of_ne_nil _ hfront]
  lexeme := by
    intro cs ds h _ hcs hds _
    exact .inr (h.lexeme hw hsome hw' hsome' hcs hds)
  splice := by
    intro cs ds h _ hcs hds hend
    exact (h.lexeme hw hsome hw' hsome' hcs hds).2.ink_eq_nil hw hw' hend

end Seam

/-- A form that was read is equal to itself. -/
theorem same_self_of_readForm {dots : Bool} {levels : Nat} {c after : Cursor} {v : Value}
    (h : readForm dots levels c = .ok (v, after)) : Value.same v v = true := by
  obtain ⟨v', after', hagain, -, hsame⟩ :=
    readForm_cuts dots (Nat.le_refl levels) h (List.append_nil _).symm (Nat.zero_le _)
  cases h.symm.trans hagain
  exact hsame

/-- Forms of a text that differ from others in spans at most are equal to them. -/
theorem sameItems_of_row {dots : Bool} {levels : Nat} {c stop : Cursor}
    {forms forms' : List Value} (h : Row (readForm dots levels) c forms stop)
    (halike : List.Forall₂ Alike forms forms') : Value.sameItems forms forms' = true := by
  induction h generalizing forms' with
  | stop c =>
      cases halike
      rfl
  | form hform _ ih =>
      cases halike with
      | cons hfirst hothers =>
          rw [Value.sameItems, hfirst.same (same_self_of_readForm hform), ih hothers]
          rfl

end Reader

open Reader

/-- **Layout does not matter.**  If a text ends neither in a text literal nor in a comment,
then it makes no difference which blanks and comments stand between it and another text, as
long as there are some: the two are read as the same forms up to spans, or refused with
complaints of the same kind. -/
theorem read_layout {a w w' : String} (b file : String) (dots : Bool) (ha : IsSettled a.toList)
    (hw : Trivia w.toList) (hsome : w ≠ "") (hw' : Trivia w'.toList) (hsome' : w' ≠ "") :
    (∃ forms forms', read (a ++ w ++ b) file dots = .ok forms ∧
      read (a ++ w' ++ b) file dots = .ok forms' ∧
      forms.map Value.unplaced = forms'.map Value.unplaced ∧
      Value.sameItems forms forms' = true) ∨
    ∃ f g, read (a ++ w ++ b) file dots = .error f ∧ read (a ++ w' ++ b) file dots = .error g ∧
      g.cause.name = f.cause.name := by
  have hstart : ∀ w : String, (Cursor.start (a ++ w ++ b) file).rest =
      a.toList ++ (w.toList ++ b.toList) := by
    intro w
    rw [Cursor.start, String.toList_append, String.toList_append, List.append_assoc]
  have hseam : AroundSeam w.toList w'.toList b.toList (Cursor.start (a ++ w ++ b) file).rest
      (Cursor.start (a ++ w' ++ b) file).rest :=
    .inl ⟨a.toList, ha, hstart w, hstart w'⟩
  have hnonempty : ∀ {w : String}, w ≠ "" → w.toList ≠ [] :=
    fun hsome hend => hsome (String.toList_eq_nil_iff.mp hend)
  have hstep : InStep False (AroundSeam w.toList w'.toList b.toList) :=
    aroundSeam_inStep hw (hnonempty hsome) hw' (hnonempty hsome')
  rcases readForms_inStep dots hstep hseam (Nat.lt_succ_self _) (Nat.lt_succ_self _) .nil with
    ⟨forms, forms', hread, hread', halike⟩ | ⟨f, g, hf, hg, hkind⟩
  · obtain ⟨others, stop, hrow, hforms⟩ := row_of_readForms hread
    obtain rfl : forms = others := hforms
    exact .inl ⟨forms, forms', hread, hread', Value.map_unplaced_eq halike,
      sameItems_of_row hrow halike⟩
  · exact .inr ⟨f, g, hf, hg, hkind⟩

/-- A semicolon inside a literal and a quote inside a comment, and a `...` that spreads what
stands behind the seam; and a bracket that is refused there. -/
theorem read_layout_spread :
    IsSettled "(f \"a;b\" ...".toList ∧ Trivia "\t".toList ∧ Trivia " ; an \"odd\n".toList ∧
    (∃ forms forms', read ("(f \"a;b\" ..." ++ "\t" ++ "xs)") "sample" true = .ok forms ∧
      read ("(f \"a;b\" ..." ++ " ; an \"odd\n" ++ "xs)") "sample" true = .ok forms' ∧
      forms.length = 1 ∧ Value.sameItems forms forms' = true) ∧
    ∃ g, read ("(f \"a;b\" ..." ++ " ; an \"odd\n" ++ "]") "sample" true = .error g := by
  have hsettled : IsSettled "(f \"a;b\" ...".toList := by
    unfold IsSettled
    decide
  have htab : Trivia "\t".toList := .blank (by decide) .nil
  have hcomment : Trivia " ; an \"odd\n".toList := by
    refine .blank (by decide) ?_
    exact @Trivia.comment " an \"odd".toList [] (by decide) .nil
  have hlayout := fun b => read_layout b "sample" true hsettled htab (by decide) hcomment (by decide)
  have hspread : ((read ("(f \"a;b\" ..." ++ "\t" ++ "xs)") "sample" true).toOption.any
      fun forms => forms.length = 1) = true := by
    decide +kernel
  have hstray : ((read ("(f \"a;b\" ..." ++ "\t" ++ "]") "sample" true).toOption.isNone) = true := by
    decide +kernel
  refine ⟨hsettled, htab, hcomment, ?_, ?_⟩
  · rcases hlayout "xs)" with ⟨forms, others, hread, hothers, -, hsame⟩ | ⟨f, g, hf, -⟩
    · rw [hread] at hspread
      exact ⟨forms, others, hread, hothers, of_decide_eq_true hspread, hsame⟩
    · rw [hf] at hspread
      cases hspread
  · rcases hlayout "]" with ⟨forms, others, hread, -⟩ | ⟨f, g, -, hg, -⟩
    · rw [hread] at hstray
      cases hstray
    · exact ⟨g, hg⟩

end Lisp
