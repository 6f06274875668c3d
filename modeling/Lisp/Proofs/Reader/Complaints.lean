import Lisp.Proofs.Reader.Productions

/-!
# What the reader complains about

Every failure of the reader is a complaint about the text at a span of it: a
malformed or an incomplete text.  In particular no failure of the reader is a
recur, and none comes with a call stack.

The nested forms of a form are read by a function that the definitions take as
a parameter, so each of them passes the property on (`Complains`), and the
number of levels left carries it to all depths.
-/

namespace Lisp

/-- A complaint about the text at a span. -/
def Failure.IsAboutText (f : Failure) : Prop :=
  ∃ kind message span, Complaint.isAboutText kind = true ∧ f = .atSpan kind message span

namespace Reader

/-- A reader of forms that fails with complaints about the text only. -/
def Complains (readForm : Cursor → Result Value) : Prop :=
  ∀ c f, readForm c = .error f → f.IsAboutText

/-- An atom is refused only as a numeral in digits of another script. -/
theorem atom_complains {token : List Char} {at_ : Span} {f : Failure}
    (h : atom token at_ = .error f) : f.IsAboutText := by
  unfold atom at h
  repeat' split at h
  all_goals cases h
  exact ⟨_, _, _, rfl, rfl⟩

/-- The segments of a dotted token are refused as atoms. -/
theorem atoms_complains {segments : List (List Char)} {at_ : Span} {f : Failure}
    (h : atoms at_ segments = .error f) : f.IsAboutText := by
  induction segments with
  | nil => cases h
  | cons segment rest ih =>
      rw [atoms] at h
      split at h
      · next g hfirst =>
          cases h
          exact atom_complains hfirst
      · exact ih (map_eq_error.mp h)

/-- A token is refused as an atom or as a row of atoms. -/
theorem classify_complains {dots : Bool} {token : List Char} {at_ : Span} {f : Failure}
    (h : classify dots token at_ = .error f) : f.IsAboutText := by
  unfold classify at h
  split at h
  · exact atoms_complains (map_eq_error.mp h)
  · exact atom_complains h

/-- A text literal is refused as unterminated or as flawed. -/
theorem readText_complains {c : Cursor} {f : Failure} (h : readText c = .error f) :
    f.IsAboutText := by
  unfold readText at h
  dsimp only at h
  repeat' split at h
  all_goals cases h
  all_goals exact ⟨_, _, _, rfl, rfl⟩

/-- A token is refused as an atom, or for want of a first character. -/
theorem readToken_complains {dots : Bool} {c : Cursor} {f : Failure}
    (h : readToken dots c = .error f) : f.IsAboutText := by
  unfold readToken at h
  split at h
  · exact classify_complains (map_eq_error.mp h)
  · cases h
    exact ⟨_, _, _, rfl, rfl⟩

variable {nested : Cursor → Result Value} (hnested : Complains nested)
include hnested

/-- The elements of a list are refused as forms, or for want of a closing
bracket. -/
theorem readItems_complains {opened : Span} {close : Char} {turns : Nat} {read : List Value}
    {c : Cursor} {f : Failure} (h : readItems nested opened close turns read c = .error f) :
    f.IsAboutText := by
  induction turns generalizing read c with
  | zero =>
      cases h
      exact ⟨_, _, _, rfl, rfl⟩
  | succ turns ih =>
      unfold readItems at h
      dsimp only at h
      split at h
      · cases h
        exact ⟨_, _, _, rfl, rfl⟩
      · split at h
        · cases h
        · split at h
          · next g hform =>
              cases h
              exact hnested _ _ hform
          · exact ih h

/-- A list is refused for its elements. -/
theorem readList_complains {close : Char} {head : List Value} {c : Cursor} {f : Failure}
    (h : readList nested close head c = .error f) : f.IsAboutText := by
  unfold readList at h
  dsimp only at h
  split at h
  · next g hitems =>
      cases h
      exact readItems_complains hnested hitems
  · cases h

/-- A spread form is refused as the form inside. -/
theorem readSplice_complains {c : Cursor} {f : Failure}
    (h : readSplice nested c = .error f) : f.IsAboutText := by
  unfold readSplice at h
  dsimp only at h
  split at h
  · cases h
  · split at h
    · cases h
    · exact hnested _ _ (readWrapped_error.mp h)

/-- A form is refused by the part that its opening announces. -/
theorem readNested_complains (dots : Bool) : Complains (readNested nested dots) := by
  intro c f h
  rw [readNested_eq] at h
  generalize opening (skipBlanks c).rest = start at h
  cases start with
  | nothing =>
      cases h
      exact ⟨_, _, _, rfl, rfl⟩
  | list close head => exact readList_complains hnested h
  | wrapped form size => exact hnested _ _ (readWrapped_error.mp h)
  | splice => exact readSplice_complains hnested h
  | text => exact readText_complains h
  | token => exact readToken_complains h

omit hnested in
/-- Forms are refused with complaints about the text at every depth. -/
theorem readForm_complains (dots : Bool) (levels : Nat) : Complains (readForm dots levels) := by
  induction levels with
  | zero =>
      intro c f h
      cases h
      exact ⟨_, _, _, rfl, rfl⟩
  | succ levels ih => exact readNested_complains ih dots

omit hnested in
/-- The forms of a text are refused one by one. -/
theorem readForms_complains {dots : Bool} {turns : Nat} {read : List Value} {c : Cursor}
    {f : Failure} (h : readForms dots turns read c = .error f) : f.IsAboutText := by
  induction turns generalizing read c with
  | zero => cases h
  | succ turns ih =>
      unfold readForms at h
      dsimp only at h
      split at h
      · cases h
      · split at h
        · next g hform =>
            cases h
            exact readForm_complains dots maxNesting _ _ hform
        · exact ih h

end Reader

/-- **A text is refused with a complaint about that text only.** -/
theorem read_complains {text file : String} {dots : Bool} {f : Failure}
    (h : read text file dots = .error f) : f.IsAboutText :=
  Reader.readForms_complains h

end Lisp
