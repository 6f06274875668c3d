/-!
# Runs of a class of characters

A lexeme that is a run, such as a token, the digits of a numeral or blanks, goes as far as
its class of characters does.  So what follows it matters only by its first character
(`EndsRun`).
-/

namespace Lisp.Text

/-- What follows a run of a class is nothing, or a character outside the class. -/
def EndsRun (member : Char → Bool) (rest : List Char) : Prop :=
  ∀ c, rest.head? = some c → member c = false

/-- Nothing more ends a run. -/
theorem endsRun_nil (member : Char → Bool) : EndsRun member [] := by
  intro c hc
  cases hc

/-- A character outside the class ends a run. -/
theorem endsRun_cons {member : Char → Bool} {c : Char} (h : member c = false) (cs : List Char) :
    EndsRun member (c :: cs) := by
  intro d hd
  cases hd
  exact h

/-- The longest run is the one that ends. -/
theorem takeWhile_run {member : Char → Bool} {run rest : List Char}
    (hrun : ∀ c ∈ run, member c = true) (hrest : EndsRun member rest) :
    (run ++ rest).takeWhile member = run := by
  rw [List.takeWhile_append_of_pos hrun]
  cases rest with
  | nil => rw [List.takeWhile_nil, List.append_nil]
  | cons c cs =>
      have hc : ¬ member c = true := Bool.eq_false_iff.mp (hrest c rfl)
      rw [List.takeWhile_cons_of_neg hc, List.append_nil]

/-- What follows the longest run. -/
theorem dropWhile_run {member : Char → Bool} {run rest : List Char}
    (hrun : ∀ c ∈ run, member c = true) (hrest : EndsRun member rest) :
    (run ++ rest).dropWhile member = rest := by
  rw [List.dropWhile_append_of_pos hrun]
  cases rest with
  | nil => rfl
  | cons c cs =>
      have hc : ¬ member c = true := Bool.eq_false_iff.mp (hrest c rfl)
      rw [List.dropWhile_cons_of_neg hc]

end Lisp.Text
