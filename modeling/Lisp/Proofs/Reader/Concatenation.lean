import Lisp.Proofs.Reader.InStep

/-!
# Reading one text after another

A line break keeps two texts apart.  If the first one is read, its forms come first in what
the two of them are read as, and then come the forms of the second one; and the two are
refused if the second one is, in the same way (`read_append`).

There is one exception.  A `...` at the end of the first text is a symbol there, but spreads
the first form of the second text.  It has to be the last lexeme for that (`lexemes`); inside
a list, a closing bracket follows it.

Two relations are in step.  One follows the first text to its end, while the other goes on
to what the second text starts with (`beforeSeam_inStep`).  From there on what is left of
both texts together is what is left of the second one.
-/

namespace Lisp

namespace Reader

open Value (Alike)

/-! ### The lexemes of a text -/

/-- The lexeme of a text that is not empty has characters, and no more than the text. -/
theorem lexemeLength_bounds {cs : List Char} (h : cs ≠ []) :
    0 < lexemeLength cs ∧ lexemeLength cs ≤ cs.length := by
  have hlength : 0 < cs.length := List.length_pos_iff.mpr h
  have hsize := Opening.size_pos_of_opening cs
  have hfits := opening_fits cs
  rw [lexemeLength]
  cases hopening : opening cs with
  | nothing =>
      rw [hopening] at hfits
      exact absurd hfits h
  | list close head => exact ⟨Nat.one_pos, hlength⟩
  | wrapped form size =>
      rw [hopening] at hsize hfits
      exact ⟨hsize, hfits⟩
  | splice =>
      rw [hopening] at hfits
      exact ⟨Nat.succ_pos 2, hfits⟩
  | text =>
      cases hliteral : literalLength? cs.tail with
      | none => exact ⟨hlength, Nat.le_refl _⟩
      | some n =>
          have hn := (literalLength?_append hliteral []).2
          rw [List.length_tail] at hn
          exact ⟨Nat.succ_pos n, show n + 1 ≤ cs.length by omega⟩
  | token =>
      have hrun := (List.takeWhile_prefix isTokenChar (l := cs)).length_le
      exact ⟨Nat.le_max_left 1 _, Nat.max_le.mpr ⟨hlength, hrun⟩⟩

/-- Behind a lexeme there is less of the text. -/
theorem length_afterLexeme_lt {cs : List Char} (h : ink cs ≠ []) :
    (afterLexeme (ink cs)).length < cs.length := by
  have hbounds := lexemeLength_bounds h
  have hink : (ink cs).length ≤ cs.length := by
    rw [ink, List.length_drop]
    exact Nat.sub_le _ _
  rw [afterLexeme, List.length_drop]
  omega

/-- The lexemes of a text, in order. -/
def lexemes (cs : List Char) : List (List Char) :=
  if _h : ink cs = [] then []
  else lexeme (ink cs) :: lexemes (afterLexeme (ink cs))
termination_by cs.length
decreasing_by exact length_afterLexeme_lt _h

/-- What `...` is as a lexeme. -/
def spliceMark : List Char := ['.', '.', '.']

/-- Blanks are no lexemes. -/
theorem lexemes_ink (cs : List Char) : lexemes (ink cs) = lexemes cs := by
  rw [lexemes, ink_ink, ← lexemes]

/-- The first lexeme, where no blanks stand before it. -/
theorem lexemes_eq_cons {cs : List Char} (hink : ink cs = cs) (h : cs ≠ []) :
    lexemes cs = lexeme cs :: lexemes (afterLexeme cs) := by
  rw [lexemes, hink, dif_neg h]

/-- The lexeme that spreads. -/
theorem lexeme_of_splice {cs : List Char} (h : opening cs = .splice) : lexeme cs = spliceMark := by
  rw [lexeme, lexemeLength, h]
  cases cs with
  | nil => cases h
  | cons c cs =>
      rw [opening] at h
      repeat' split at h
      all_goals cases h
      next hdots =>
        simp only [Bool.and_eq_true, decide_eq_true_eq] at hdots
        obtain ⟨rfl, hprefix⟩ := hdots
        obtain ⟨tail, rfl⟩ := List.isPrefixOf_iff_prefix.mp hprefix
        rfl

/-- A comment is no lexeme, and three dots inside a token are none. -/
example : lexemes "(f, ...x... ; end\n ,,,\"a b\")".toList =
    ["(", "f,", "...", "x...", ",,,", "\"a b\"", ")"].map String.toList := by
  cbv

/-! ### Up to the seam -/

/-- A lexeme that ends in a text ends there if a gap and more text follow. -/
theorem lexeme_append_gap {cs : List Char} (h : cs ≠ []) (hclosed : ¬ IsOpenLiteral cs)
    {gap : Char} (hgap : isGap gap = true) (more : List Char) :
    lexeme (cs ++ gap :: more) = lexeme cs ∧
      afterLexeme (cs ++ gap :: more) = afterLexeme cs ++ gap :: more := by
  have hlength : lexemeLength (cs ++ gap :: more) = lexemeLength cs := by
    rw [lexemeLength, lexemeLength, opening_append_gap h hgap]
    cases hopening : opening cs with
    | text =>
        cases hliteral : literalLength? cs.tail with
        | none => exact absurd ⟨hopening, hliteral⟩ hclosed
        | some n =>
            dsimp only
            rw [List.tail_append_of_ne_nil h, (literalLength?_append hliteral _).1]
            rfl
    | token =>
        dsimp only
        rw [takeWhile_append_gap hgap]
    | _ => rfl
  have hle := (lexemeLength_bounds h).2
  rw [lexeme, lexeme, afterLexeme, afterLexeme, hlength]
  exact ⟨List.take_append_of_le_length hle, List.drop_append_of_le_length hle⟩

/-- Blanks that a text ends in go on to what follows a line break. -/
theorem ink_append_newline {cs : List Char} (h : ink cs = []) (more : List Char) :
    ink (cs ++ '\n' :: more) = ink more := by
  have hall : blankLength false cs = cs.length :=
    Nat.le_antisymm (blankLength_le false cs) (List.drop_eq_nil_iff.mp h)
  rw [ink, blankLength_append_newline hall, Nat.add_assoc, List.drop_append,
    List.drop_eq_nil_of_le (Nat.le_add_right _ _), Nat.add_sub_cancel_left, Nat.add_comm 1]
  rfl

/-- Blanks that end before the end of a text end there if a line break follows it. -/
theorem ink_append_of_ne_nil {cs : List Char} (h : ink cs ≠ []) (more : List Char) :
    ink (cs ++ more) = ink cs ++ more := by
  have hlt : blankLength false cs < cs.length :=
    Nat.lt_of_not_ge fun hge => h (List.drop_eq_nil_of_le hge)
  rw [ink, blankLength_append hlt, List.drop_append_of_le_length (Nat.le_of_lt hlt)]
  rfl

/-- What is left of a text and of the same text with a line break and more behind it, up to
the end of the first, whose last lexeme is no `...`. -/
def BeforeSeam (more cs ds : List Char) : Prop :=
  ds = cs ++ '\n' :: more ∧ (lexemes cs).getLast? ≠ some spliceMark ∨ cs = [] ∧ ds = ink more

/-- The first text is read in step with the longer one until it ends. -/
theorem beforeSeam_inStep (more : List Char) : InStep True (BeforeSeam more) where
  ink := by
    intro cs ds h
    rcases h with ⟨rfl, hlast⟩ | ⟨rfl, rfl⟩
    · by_cases hend : ink cs = []
      · exact .inr ⟨hend, ink_append_newline hend more⟩
      · refine .inl ⟨ink_append_of_ne_nil hend _, ?_⟩
        rw [lexemes_ink]
        exact hlast
    · exact .inr ⟨rfl, ink_ink more⟩
  opening := by
    intro cs ds h _ _
    by_cases hend : cs = []
    · exact .inl ⟨trivial, hend⟩
    · rcases h with ⟨rfl, -⟩ | ⟨rfl, -⟩
      · exact .inr ⟨opening_append_gap hend (by decide) more, List.head?_append_of_ne_nil _ hend⟩
      · exact absurd rfl hend
  lexeme := by
    intro cs ds h _ hink _ hsome
    rcases h with ⟨rfl, hlast⟩ | ⟨rfl, -⟩
    · by_cases hopen : IsOpenLiteral cs
      · exact .inl ⟨trivial, hopen⟩
      · have hnewline : isGap '\n' = true := by decide
        obtain ⟨hsame, hafter⟩ := lexeme_append_gap hsome hopen hnewline more
        refine .inr ⟨hsame, .inl ⟨hafter, fun hdots => hlast ?_⟩⟩
        rw [lexemes_eq_cons hink hsome, List.getLast?_cons, hdots]
        rfl
    · exact absurd rfl hsome
  splice := by
    intro cs ds h hopening hink _ hend
    rcases h with ⟨rfl, hlast⟩ | ⟨rfl, -⟩
    · -- the `...` would be the last lexeme
      refine absurd ?_ hlast
      have hsome : cs ≠ [] := by
        rintro rfl
        cases hopening
      rw [lexemes_eq_cons hink hsome, lexemes, dif_pos hend, lexeme_of_splice hopening]
      rfl
    · cases hopening

/-- At the end of the first text, the second one is left. -/
theorem BeforeSeam.ink_eq {more cs ds : List Char} (h : BeforeSeam more cs ds)
    (hend : ink cs = []) : ink ds = ink more := by
  rcases h with ⟨rfl, -⟩ | ⟨-, rfl⟩
  · exact ink_append_newline hend more
  · exact ink_ink more

/-! ### Behind the seam -/

/-- Texts that are the same but for the blanks before them are in step. -/
theorem sameInk_inStep : InStep False fun cs ds => ink cs = ink ds where
  ink h := by rw [ink_ink, ink_ink, h]
  opening h hcs hds := by
    rw [hcs, hds] at h
    rw [h]
    exact .inr ⟨rfl, rfl⟩
  lexeme h _ hcs hds _ := by
    rw [hcs, hds] at h
    rw [h]
    exact .inr ⟨rfl, rfl⟩
  splice h _ hcs hds hend := by
    rw [hcs, hds] at h
    rw [← h]
    exact hend

end Reader

open Reader

/-- **Reading is a homomorphism.**  If a text is read and its last lexeme is no `...`, then
that text and another one after a line break are read as the forms of the first followed by
those of the second, up to spans; and if the second text is refused, they are, with a
complaint of the same kind. -/
theorem read_append {a : String} (b file : String) (dots : Bool) {forms : List Value}
    (h : read a file dots = .ok forms)
    (hlast : (lexemes a.toList).getLast? ≠ some spliceMark) :
    (∀ others, read b file dots = .ok others →
      ∃ all, read (a ++ "\n" ++ b) file dots = .ok all ∧
        all.map Value.unplaced = (forms ++ others).map Value.unplaced) ∧
    ∀ f, read b file dots = .error f →
      ∃ g, read (a ++ "\n" ++ b) file dots = .error g ∧ g.cause.name = f.cause.name := by
  -- The first text is a row of forms, and so is what stands before the seam.
  obtain ⟨first, stop, hrow, hstop, rfl⟩ :=
    row_to_end_of_readForms h (Nat.lt_succ_self (Cursor.start a file).rest.length)
  have hstart := (continued_start a file b).rest
  obtain ⟨first', stop', hrow', hfirst, hseam⟩ :=
    hrow.inStep (beforeSeam_inStep b.toList) (readForm_inStep (beforeSeam_inStep _) dots _)
      (d := Cursor.start (a ++ "\n" ++ b) file) (.inl ⟨hstart, hlast⟩)
  -- Behind it is what the second text starts with, and there are turns enough for it.
  have hbehind : ink (Cursor.start b file).rest = ink stop'.rest := (hseam.ink_eq hstop).symm
  have hlength := hrow'.length_le (readForm_continues dots maxNesting)
  obtain ⟨turns, hturns⟩ : ∃ turns,
      (Cursor.start (a ++ "\n" ++ b) file).rest.length + 1 = first'.length + turns :=
    ⟨_, (Nat.add_sub_cancel' (by omega)).symm⟩
  have hread : read (a ++ "\n" ++ b) file dots =
      (readForms dots turns [] stop').map (first' ++ ·) := by
    unfold read
    dsimp only
    rw [hturns, readForms_of_row hrow', readForms_eq_map]
    simp
  have hrest := readForms_inStep dots sameInk_inStep hbehind (Nat.lt_succ_self _)
    (show stop'.rest.length < turns by omega) .nil
  rw [hread]
  rcases hrest with ⟨others, others', hothers, hothers', halike⟩ | ⟨f, g, hf, hg, hkind⟩
  · refine ⟨fun forms hforms => ?_, fun f hf => (nomatch hothers.symm.trans hf)⟩
    cases hothers.symm.trans hforms
    rw [hothers']
    refine ⟨first' ++ others', rfl, ?_⟩
    rw [List.map_append, List.map_append, Value.map_unplaced_eq hfirst,
      Value.map_unplaced_eq halike]
  · refine ⟨fun forms hforms => (nomatch hf.symm.trans hforms), fun f' hf' => ?_⟩
    cases hf.symm.trans hf'
    rw [hg]
    exact ⟨g, rfl, hkind⟩

/-- A text that ends in a comment, before a mark and before a stray bracket. -/
theorem read_append_comment :
    (∃ forms, read "(f ...) 'x ; end" "sample" true = .ok forms) ∧
    (lexemes "(f ...) 'x ; end".toList).getLast? ≠ some spliceMark ∧
    (∃ all, read ("(f ...) 'x ; end" ++ "\n" ++ ",y") "sample" true = .ok all ∧
      all.length = 3) ∧
    ∃ g, read ("(f ...) 'x ; end" ++ "\n" ++ "]") "sample" true = .error g ∧
      g.cause.name = "syntax" := by
  have hfirst : ∃ forms, read "(f ...) 'x ; end" "sample" true = .ok forms ∧
      forms.length = 2 := ⟨_, rfl, rfl⟩
  have hlast : (lexemes "(f ...) 'x ; end".toList).getLast? ≠ some spliceMark := by
    have hlexemes : (lexemes "(f ...) 'x ; end".toList).getLast? = some ['x'] := by decide +kernel
    rw [hlexemes]
    exact nofun
  have hmark : ∃ forms, read ",y" "sample" true = .ok forms ∧ forms.length = 1 := ⟨_, rfl, rfl⟩
  have hstray : ∃ f, read "]" "sample" true = .error f ∧ f.cause.name = "syntax" :=
    ⟨_, rfl, rfl⟩
  obtain ⟨forms, hforms, hcount⟩ := hfirst
  obtain ⟨others, hothers, hone⟩ := hmark
  obtain ⟨f, hf, hname⟩ := hstray
  obtain ⟨all, hall, hsame⟩ := (read_append ",y" "sample" true hforms hlast).1 others hothers
  obtain ⟨g, hg, hkind⟩ := (read_append "]" "sample" true hforms hlast).2 f hf
  refine ⟨⟨forms, hforms⟩, hlast, ⟨all, hall, ?_⟩, g, hg, hkind.trans hname⟩
  have hlength := congrArg List.length hsame
  rw [List.length_map, List.length_map, List.length_append] at hlength
  omega

end Lisp
