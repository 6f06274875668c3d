import Lisp.Proofs.Number.Decimals
import Lisp.Proofs.Number.Patterns
import Lisp.Proofs.Text.Runs

/-!
# Numerals that are written read back

The text of a decimal is digits with at most one point among them.  It is
recognised as a numeral with these digits, whatever the sign in front of it
(`Numeral.parse?_whole`, `Numeral.parse?_point`), and its value is the double
nearest to the decimal: `Decimal.parse?_text`.

Which decimal a number is written as is the subject of the module on decimals;
together the two say that the text of a number reads back as the same number.
-/

namespace Lisp.Number

open Text (EndsRun endsRun_nil endsRun_cons takeWhile_run dropWhile_run)

/-- The sign in front of a numeral. -/
def signChars (negative : Bool) : List Char :=
  if negative then ['-'] else []

/-- An ASCII digit is a decimal digit. -/
theorem isDecimal_of_isDigit {c : Char} (h : c.isDigit = true) : Text.isDecimal c = true := by
  unfold Text.isDecimal
  rw [h]
  rfl

namespace Numeral

/-- A sign is split off from digits. -/
theorem splitSign_signChars (negative : Bool) {c : Char} (hc : c.isDigit = true) (cs : List Char) :
    splitSign (signChars negative ++ c :: cs) = (negative, c :: cs) := by
  have hminus : c ≠ '-' := by
    rintro rfl
    cases hc
  have hplus : c ≠ '+' := by
    rintro rfl
    cases hc
  cases negative with
  | true => rfl
  | false =>
      show splitSign (c :: cs) = (false, c :: cs)
      unfold splitSign
      split
      · next heq =>
          injection heq with hhead
          exact absurd hhead hminus
      · next heq =>
          injection heq with hhead
          exact absurd hhead hplus
      · rfl

/-- Digits are a numeral without a fraction. -/
theorem parse?_whole (negative : Bool) {whole : List Char} (hne : whole ≠ [])
    (hwhole : ∀ c ∈ whole, c.isDigit = true) :
    parse? Text.isDecimal (signChars negative ++ whole) =
      some ⟨negative, whole, [], false, []⟩ := by
  obtain ⟨c, cs, rfl⟩ := List.exists_cons_of_ne_nil hne
  have hdigits : ∀ a ∈ c :: cs, Text.isDecimal a = true := fun a ha =>
    isDecimal_of_isDigit (hwhole a ha)
  have hsign := splitSign_signChars negative (hwhole c List.mem_cons_self) cs
  have htake := takeWhile_run hdigits (endsRun_nil Text.isDecimal)
  have hdrop := dropWhile_run hdigits (endsRun_nil Text.isDecimal)
  rw [List.append_nil] at htake hdrop
  unfold parse?
  rw [hsign]
  dsimp only
  rw [htake, hdrop]
  rfl

/-- Digits around a point are a numeral with a fraction. -/
theorem parse?_point (negative : Bool) {whole fraction : List Char} (hne : whole ≠ [])
    (hwhole : ∀ c ∈ whole, c.isDigit = true) (hfraction : ∀ c ∈ fraction, c.isDigit = true) :
    parse? Text.isDecimal (signChars negative ++ (whole ++ '.' :: fraction)) =
      some ⟨negative, whole, fraction, false, []⟩ := by
  obtain ⟨c, cs, rfl⟩ := List.exists_cons_of_ne_nil hne
  have hdigits : ∀ a ∈ c :: cs, Text.isDecimal a = true := fun a ha =>
    isDecimal_of_isDigit (hwhole a ha)
  have hplaces : ∀ a ∈ fraction, Text.isDecimal a = true := fun a ha =>
    isDecimal_of_isDigit (hfraction a ha)
  have hpoint : EndsRun Text.isDecimal ('.' :: fraction) := endsRun_cons (by decide) fraction
  have hsign := splitSign_signChars negative (hwhole c List.mem_cons_self) (cs ++ '.' :: fraction)
  have htake := takeWhile_run hdigits hpoint
  have hdrop := dropWhile_run hdigits hpoint
  have htakePlaces := takeWhile_run hplaces (endsRun_nil Text.isDecimal)
  have hdropPlaces := dropWhile_run hplaces (endsRun_nil Text.isDecimal)
  rw [List.append_nil] at htakePlaces hdropPlaces
  rw [List.cons_append] at htake hdrop ⊢
  unfold parse?
  rw [hsign]
  dsimp only
  rw [htake, hdrop]
  simp only [htakePlaces, hdropPlaces]
  rfl

/-- Digits denote their number. -/
theorem natural?_of_digits {cs : List Char} (h : ∀ c ∈ cs, c.isDigit = true) :
    natural? cs = some (Nat.ofDigitChars 10 cs 0) := by
  have hfold : ∀ acc, cs.foldlM (fun acc c => (Text.digitValue? c).map (acc * 10 + ·)) acc =
      some (Nat.ofDigitChars 10 cs acc) := by
    induction cs with
    | nil =>
        intro acc
        rfl
    | cons c cs ih =>
        intro acc
        have hc : c.isDigit = true := h c List.mem_cons_self
        have hrest := ih (fun a ha => h a (List.mem_cons_of_mem c ha)) (10 * acc + (c.toNat - 48))
        rw [List.foldlM_cons, Nat.ofDigitChars_cons]
        unfold Text.digitValue?
        rw [if_pos hc, Nat.mul_comm acc 10]
        exact hrest
  exact hfold 0

/-- Digits denote an exponent. -/
theorem exponentSize?_of_digits {cs : List Char} (h : ∀ c ∈ cs, c.isDigit = true) :
    ∃ size, exponentSize? cs = some size := by
  have hfold : ∀ acc, ∃ size, cs.foldlM (fun acc c => (Text.digitValue? c).map fun digit =>
      if acc < exponentLimit then acc * 10 + digit else acc) acc = some size := by
    induction cs with
    | nil => exact fun acc => ⟨acc, rfl⟩
    | cons c cs ih =>
        intro acc
        have hc : c.isDigit = true := h c List.mem_cons_self
        rw [List.foldlM_cons]
        unfold Text.digitValue?
        rw [if_pos hc]
        exact ih (fun a ha => h a (List.mem_cons_of_mem c ha)) _
  exact hfold 0

/-- What follows a sign is part of the text. -/
theorem mem_of_mem_splitSign {cs : List Char} {c : Char} (h : c ∈ (splitSign cs).2) : c ∈ cs := by
  unfold splitSign at h
  split at h
  · exact List.mem_cons_of_mem _ h
  · exact List.mem_cons_of_mem _ h
  · exact h

/-- The digits of an exponent are digits of its text. -/
theorem digits_of_splitExponent {digit : Char → Bool} {cs exponent : List Char} {negative : Bool}
    (h : splitExponent digit cs = some (negative, exponent)) :
    ∀ c ∈ exponent, c ∈ cs ∧ digit c = true := by
  unfold splitExponent at h
  split at h
  · cases h
    exact nofun
  · next mark rest =>
      split at h
      · have hrest : ∀ c ∈ (splitSign rest).2, c ∈ rest := fun c => mem_of_mem_splitSign
        generalize splitSign rest = sign at h hrest
        obtain ⟨minus, digits⟩ := sign
        dsimp only at h hrest
        split at h
        · next hdigits =>
            cases h
            rw [Bool.and_eq_true, List.all_eq_true] at hdigits
            exact fun c hc => ⟨List.mem_cons_of_mem _ (hrest c hc), hdigits.2 c hc⟩
        · cases h
      · cases h

/-- The digits of a numeral are digits of its text. -/
theorem digits_of_parse? {digit : Char → Bool} {cs : List Char} {n : Numeral}
    (h : parse? digit cs = some n) :
    ∀ c ∈ n.whole ++ n.fraction ++ n.exponent, c ∈ cs ∧ digit c = true := by
  unfold parse? at h
  have hbody : ∀ c ∈ (splitSign cs).2, c ∈ cs := fun c => mem_of_mem_splitSign
  generalize splitSign cs = sign at h hbody
  obtain ⟨negative, body⟩ := sign
  dsimp only at h hbody
  have htake : ∀ part : List Char, (∀ c ∈ part, c ∈ cs) →
      (∀ c ∈ part.takeWhile digit, c ∈ cs ∧ digit c = true) ∧
        ∀ c ∈ part.dropWhile digit, c ∈ cs := by
    intro part hpart
    refine ⟨fun c hc => ⟨?_, List.mem_takeWhile_imp hc⟩, fun c hc => ?_⟩
    · exact hpart c ((List.takeWhile_prefix digit).subset hc)
    · exact hpart c ((List.dropWhile_suffix digit).subset hc)
  obtain ⟨hwhole, hafter⟩ := htake body hbody
  generalize body.dropWhile digit = after at h hafter
  have hparts : ∀ {fraction rest exponent : List Char} {minus : Bool},
      (∀ c ∈ fraction, c ∈ cs ∧ digit c = true) → (∀ c ∈ rest, c ∈ cs) →
      splitExponent digit rest = some (minus, exponent) →
      ∀ c ∈ body.takeWhile digit ++ fraction ++ exponent, c ∈ cs ∧ digit c = true := by
    intro fraction rest exponent minus hfraction hrest hexponent c hc
    rcases List.mem_append.mp hc with hc | hc
    · exact (List.mem_append.mp hc).elim (hwhole c) (hfraction c)
    · obtain ⟨hmem, hdigit⟩ := digits_of_splitExponent hexponent c hc
      exact ⟨hrest c hmem, hdigit⟩
  split at h
  · next tail =>
      obtain ⟨hfraction, hrest⟩ := htake tail fun c hc => hafter c (List.mem_cons_of_mem _ hc)
      split at h
      · cases h
      · split at h
        · cases h
        · next hexponent =>
            cases h
            exact hparts hfraction hrest hexponent
  · split at h
    · cases h
    · split at h
      · cases h
      · next hexponent =>
          cases h
          exact hparts (fun c hc => absurd hc List.not_mem_nil) hafter hexponent

/-- A numeral in ASCII digits has a value. -/
theorem exists_value? {cs : List Char} {n : Numeral} (h : parse? Text.isDecimal cs = some n)
    (hdigits : ∀ c ∈ cs, Text.isDecimal c = true → c.isDigit = true) : ∃ x, n.value? = some x := by
  have hall : ∀ c ∈ n.whole ++ n.fraction ++ n.exponent, c.isDigit = true := by
    intro c hc
    obtain ⟨hmem, hdecimal⟩ := digits_of_parse? h c hc
    exact hdigits c hmem hdecimal
  obtain ⟨hbody, hexponent⟩ := List.forall_mem_append.mp hall
  obtain ⟨size, hsize⟩ := exponentSize?_of_digits hexponent
  unfold value? decimal?
  rw [natural?_of_digits hbody, hsize]
  exact ⟨_, rfl⟩

end Numeral

namespace Decimal

/-- The digits of a number are digits. -/
theorem isDigit_of_mem_repr {n : Nat} {c : Char} (h : c ∈ n.repr.toList) : c.isDigit = true := by
  rw [Nat.toList_repr] at h
  exact Nat.isDigit_of_mem_toDigits (by decide) (by decide) h

/-- The digits of a number denote it. -/
theorem ofDigitChars_repr (n : Nat) : Nat.ofDigitChars 10 n.repr.toList 0 = n := by
  rw [Nat.toList_repr]
  exact Nat.ofDigitChars_ten_toDigits

/-- The value of a numeral without an exponent. -/
theorem value?_of_digits (negative : Bool) {whole fraction : List Char}
    (h : ∀ c ∈ whole ++ fraction, c.isDigit = true) :
    Numeral.value? ⟨negative, whole, fraction, false, []⟩ =
      some (ofPattern negative (pattern
        ⟨Nat.ofDigitChars 10 (whole ++ fraction) 0, -(fraction.length : Int)⟩)) := by
  have hsize : (0 : Int) - fraction.length = -(fraction.length : Int) := Int.zero_sub _
  unfold Numeral.value? Numeral.decimal?
  dsimp only
  rw [Numeral.natural?_of_digits h]
  show some (ofPattern negative (pattern ⟨_, (0 : Int) - fraction.length⟩)) = _
  rw [hsize]

/-- The text of a decimal without places is its digits and zeros. -/
theorem text_of_nonneg {d : Decimal} (h : 0 ≤ d.exponent) :
    d.text.toList = d.digits.repr.toList ++ List.replicate d.exponent.toNat '0' := by
  unfold text
  rw [if_pos h, String.toList_ofList]

/-- The digits of a decimal with places, with a zero before the point if needed. -/
def padded (d : Decimal) : List Char :=
  List.replicate ((-d.exponent).toNat + 1 - d.digits.repr.toList.length) '0' ++ d.digits.repr.toList

/-- The text of a decimal with places is its digits with a point among them. -/
theorem text_of_neg {d : Decimal} (h : ¬ 0 ≤ d.exponent) :
    d.text.toList = d.padded.take (d.padded.length - (-d.exponent).toNat) ++
      '.' :: d.padded.drop (d.padded.length - (-d.exponent).toNat) := by
  unfold text
  rw [if_neg h, String.toList_ofList]
  rfl

/-- All characters of the padded digits are digits. -/
theorem isDigit_of_mem_padded {d : Decimal} {c : Char} (h : c ∈ d.padded) : c.isDigit = true := by
  unfold padded at h
  rcases List.mem_append.mp h with hzero | hdigit
  · rw [List.eq_of_mem_replicate hzero]
    rfl
  · exact isDigit_of_mem_repr hdigit

/-- There are more padded digits than places. -/
theorem lt_length_padded (d : Decimal) : (-d.exponent).toNat < d.padded.length := by
  unfold padded
  rw [List.length_append, List.length_replicate]
  omega

/-- Zeros in front do not matter. -/
theorem ofDigitChars_padded (d : Decimal) : Nat.ofDigitChars 10 d.padded 0 = d.digits := by
  unfold padded
  rw [Nat.ofDigitChars_append, Nat.ofDigitChars_replicate_zero, Nat.mul_zero]
  exact ofDigitChars_repr d.digits

/-- The text of a decimal is digits and at most a point. -/
theorem isDigit_or_point_of_mem_text {d : Decimal} {c : Char} (h : c ∈ d.text.toList) :
    c.isDigit = true ∨ c = '.' := by
  by_cases hexponent : 0 ≤ d.exponent
  · rw [text_of_nonneg hexponent] at h
    rcases List.mem_append.mp h with hdigit | hzero
    · exact .inl (isDigit_of_mem_repr hdigit)
    · rw [List.eq_of_mem_replicate hzero]
      exact .inl rfl
  · rw [text_of_neg hexponent] at h
    rcases List.mem_append.mp h with hwhole | hplaces
    · exact .inl (isDigit_of_mem_padded (List.mem_of_mem_take hwhole))
    · rcases List.mem_cons.mp hplaces with hpoint | hfraction
      · exact .inr hpoint
      · exact .inl (isDigit_of_mem_padded (List.mem_of_mem_drop hfraction))

/-- The numeral of a decimal without places. -/
theorem parse?_text_of_nonneg {d : Decimal} (h : 0 ≤ d.exponent) (negative : Bool) :
    ∃ n, Numeral.parse? Text.isDecimal (signChars negative ++ d.text.toList) = some n ∧
      n.value? = some (ofPattern negative d.pattern) := by
  have hdigits : ∀ c ∈ d.digits.repr.toList ++ List.replicate d.exponent.toNat '0',
      c.isDigit = true := by
    intro c hc
    rcases List.mem_append.mp hc with hdigit | hzero
    · exact isDigit_of_mem_repr hdigit
    · rw [List.eq_of_mem_replicate hzero]
      rfl
  have hne : d.digits.repr.toList ++ List.replicate d.exponent.toNat '0' ≠ [] := by
    rw [Nat.toList_repr]
    exact List.append_ne_nil_of_left_ne_nil Nat.toDigits_ne_nil _
  have hpattern : pattern ⟨10 ^ d.exponent.toNat * d.digits, 0⟩ = d.pattern := by
    rw [Nat.mul_comm, pattern_mul_ten_pow, Int.zero_add, Int.toNat_of_nonneg h]
  rw [text_of_nonneg h]
  refine ⟨_, Numeral.parse?_whole negative hne hdigits, ?_⟩
  rw [value?_of_digits negative (by simpa using hdigits), List.append_nil,
    Nat.ofDigitChars_append, ofDigitChars_repr, Nat.ofDigitChars_replicate_zero]
  exact congrArg (fun p => some (ofPattern negative p)) hpattern

/-- The numeral of a decimal with places. -/
theorem parse?_text_of_neg {d : Decimal} (h : ¬ 0 ≤ d.exponent) (negative : Bool) :
    ∃ n, Numeral.parse? Text.isDecimal (signChars negative ++ d.text.toList) = some n ∧
      n.value? = some (ofPattern negative d.pattern) := by
  have hlength := d.lt_length_padded
  have hplaces : (d.padded.drop (d.padded.length - (-d.exponent).toNat)).length =
      (-d.exponent).toNat := by
    rw [List.length_drop]
    omega
  have hwhole : d.padded.take (d.padded.length - (-d.exponent).toNat) ≠ [] := by
    intro hnil
    have hzero := congrArg List.length hnil
    rw [List.length_take, List.length_nil] at hzero
    omega
  have hdigits : ∀ c ∈ d.padded.take (d.padded.length - (-d.exponent).toNat) ++
      d.padded.drop (d.padded.length - (-d.exponent).toNat), c.isDigit = true := by
    rw [List.take_append_drop]
    exact fun c hc => isDigit_of_mem_padded hc
  have hexp : -((-d.exponent).toNat : Int) = d.exponent := by omega
  rw [text_of_neg h]
  refine ⟨_, Numeral.parse?_point negative hwhole
    (fun c hc => isDigit_of_mem_padded (List.mem_of_mem_take hc))
    (fun c hc => isDigit_of_mem_padded (List.mem_of_mem_drop hc)), ?_⟩
  rw [value?_of_digits negative hdigits, List.take_append_drop, ofDigitChars_padded, hplaces,
    hexp]

/-- The text of a decimal, with either sign, is the numeral of a decimal with the
same nearest double. -/
theorem parse?_text (d : Decimal) (negative : Bool) :
    ∃ n, Numeral.parse? Text.isDecimal (signChars negative ++ d.text.toList) = some n ∧
      n.value? = some (ofPattern negative d.pattern) := by
  by_cases hexponent : 0 ≤ d.exponent
  · exact parse?_text_of_nonneg hexponent negative
  · exact parse?_text_of_neg hexponent negative

end Decimal

end Lisp.Number
