import Lisp.Proofs.Reader.Continued
import Lisp.Proofs.Text.Quoting

/-!
# What a text literal says

Between its quotes, a text literal is a sequence of items, each of which stands for one
character: a character that stands for itself, or an escape.  Newlines, carriage returns and
tabs stand for themselves too, although they are spelled out as escapes before the items are
taken (`Spells`).

That is where one thing goes wrong.  A backslash right before one of these three characters
is no escape, but once the character is spelled out, it is: the two backslashes are taken for
one, and the letter of the escape for itself.  So the literal is not refused, and says a
backslash and a letter that nobody wrote (`Spells.slip`).  With this one addition, a literal
is read if and only if it is a sequence of items, and then as what they stand for
(`readText_iff_spells`).
-/

namespace Lisp

namespace Text

/-! ### Items -/

/-- The letters of the escapes of one letter, and what they stand for. -/
def shortEscapes : List (Char × Char) :=
  [('"', '"'), ('\\', '\\'), ('/', '/'), ('b', '\x08'), ('f', '\x0c'), ('n', '\n'), ('r', '\r'),
    ('t', '\t')]

/-- What may stand behind the backslash of an escape, and the character that the escape stands
for: a letter, the code point of the character in four hexadecimal digits, or its surrogate
pair. -/
inductive Escape : List Char → Char → Prop
  | short {letter v : Char} (h : (letter, v) ∈ shortEscapes) : Escape [letter] v
  | unit {digits : List Char} {v : Char} (hsize : digits.length = 4)
      (hvalue : hexQuad? digits = some v.toNat) : Escape ('u' :: digits) v
  | pair {digits digits' : List Char} {leading trailing : Nat} {v : Char}
      (hsize : digits.length = 4) (hleading : hexQuad? digits = some leading)
      (hfirst : isLeading leading = true) (hsize' : digits'.length = 4)
      (htrailing : hexQuad? digits' = some trailing) (hsecond : isTrailing trailing = true)
      (hvalue : v.toNat = pairValue leading trailing) :
      Escape ('u' :: digits ++ '\\' :: 'u' :: digits') v

/-- An item and the character that it stands for; `plain` tells which characters may stand
for themselves. -/
inductive Item (plain : Char → Prop) : List Char → Char → Prop
  | plain {c : Char} (h : plain c) : Item plain [c] c
  | escape {cs : List Char} {v : Char} (h : Escape cs v) : Item plain ('\\' :: cs) v

/-- The characters that a decoder leaves alone. -/
def IsStandard (c : Char) : Prop :=
  c ≠ '"' ∧ c ≠ '\\' ∧ 32 ≤ c.toNat

/-- A sequence of items as a decoder takes them, and the text that they stand for. -/
inductive Items : List Char → List Char → Prop
  | nil : Items [] []
  | cons {front cs text : List Char} {v : Char} (hitem : Item IsStandard front v)
      (h : Items cs text) : Items (front ++ cs) (v :: text)

/-- The control characters that are spelled out, with the letters of their escapes. -/
def rawEscapes : List (Char × Char) :=
  [('\n', 'n'), ('\r', 'r'), ('\t', 't')]

/-- The characters that may stand for themselves in a literal. -/
def IsPlain (c : Char) : Prop :=
  c ≠ '"' ∧ c ≠ '\\' ∧ (32 ≤ c.toNat ∨ c = '\n' ∨ c = '\r' ∨ c = '\t')

/-- What the text between the quotes of a literal says. -/
inductive Spells : List Char → List Char → Prop
  | done : Spells [] []
  | item {front cs text : List Char} {v : Char} (hitem : Item IsPlain front v)
      (h : Spells cs text) : Spells (front ++ cs) (v :: text)
  /-- A backslash before a character that is spelled out. -/
  | slip {c letter : Char} {cs text : List Char} (hraw : (c, letter) ∈ rawEscapes)
      (h : Spells cs text) : Spells ('\\' :: c :: cs) ('\\' :: letter :: text)

/-! ### Hexadecimal digits -/

/-- The hexadecimal digits are found among the first characters. -/
theorem toNat_lt_of_hexValue? {c : Char} {n : Nat} (h : hexValue? c = some n) : c.toNat < 103 := by
  have hrange : ∀ {last : Char} {b : Bool}, last.toNat < 103 → (b && decide (c ≤ last)) = true →
      c.toNat < 103 := by
    intro last b hlast hin
    have hle : c.toNat ≤ last.toNat := of_decide_eq_true (Bool.and_eq_true_iff.mp hin).2
    exact Nat.lt_of_le_of_lt hle hlast
  unfold hexValue? at h
  by_cases hdigit : c.isDigit = true
  · exact @hrange '9' _ (by decide) hdigit
  · rw [if_neg hdigit] at h
    split at h
    · next hlower => exact hrange (by decide) hlower
    · split at h
      · next hupper => exact hrange (by decide) hupper
      · cases h

/-- A hexadecimal digit takes one byte, and is left alone wherever it stands. -/
theorem hexDigit_plain {c : Char} {n : Nat} (h : hexValue? c = some n) :
    n < 16 ∧ c.utf8Size = 1 ∧ c ≠ '"' ∧ c ≠ '\\' ∧ spellOutChar c = [c] := by
  have hall : ∀ k : Fin 103, ∀ n ∈ hexValue? (Char.ofNat k), n < 16 ∧
      (Char.ofNat k).utf8Size = 1 ∧ Char.ofNat k ≠ '"' ∧ Char.ofNat k ≠ '\\' ∧
      spellOutChar (Char.ofNat k) = [Char.ofNat k] := by
    decide +kernel
  have hc := hall ⟨c.toNat, toNat_lt_of_hexValue? h⟩ n
  rw [Char.ofNat_toNat] at hc
  exact hc h

/-- What follows four hexadecimal digits is not looked at. -/
theorem hexQuad?_append {digits : List Char} (h : digits.length = 4) (cs : List Char) :
    hexQuad? (digits ++ cs) = hexQuad? digits := by
  match digits, h with
  | [_, _, _, _], _ => rfl

/-- What is read as four hexadecimal digits starts with them. -/
theorem exists_digits {cs : List Char} {unit : Nat} (h : hexQuad? cs = some unit) :
    ∃ digits back, cs = digits ++ back ∧ digits.length = 4 ∧ hexQuad? digits = some unit := by
  match cs, h with
  | a :: b :: c :: d :: back, h => exact ⟨[a, b, c, d], back, rfl, rfl, h⟩

/-- The digits of a code unit take one byte each, and are left alone wherever they stand. -/
theorem digits_plain {digits : List Char} {unit : Nat} (hsize : digits.length = 4)
    (h : hexQuad? digits = some unit) :
    unit < 0x10000 ∧ byteLength digits = 4 ∧
      ∀ c ∈ digits, c ≠ '"' ∧ c ≠ '\\' ∧ spellOutChar c = [c] := by
  match digits, hsize with
  | [a, b, c, d], _ =>
    unfold hexQuad? at h
    simp only [Option.bind_eq_bind, Option.bind_eq_some_iff, Option.pure_def, Option.some.injEq] at h
    obtain ⟨na, ha, nb, hb, nc, hc, nd, hd, rfl⟩ := h
    obtain ⟨hna, hbytea, hplaina⟩ := hexDigit_plain ha
    obtain ⟨hnb, hbyteb, hplainb⟩ := hexDigit_plain hb
    obtain ⟨hnc, hbytec, hplainc⟩ := hexDigit_plain hc
    obtain ⟨hnd, hbyted, hplaind⟩ := hexDigit_plain hd
    refine ⟨by omega, by simp only [byteLength, hbytea, hbyteb, hbytec, hbyted], ?_⟩
    simp only [List.forall_mem_cons]
    exact ⟨hplaina, hplainb, hplainc, hplaind, by simp⟩

/-- A code unit is taken wherever its digits stand. -/
theorem codeUnit_eq_ok {taken unit : Nat} {cs : List Char} :
    codeUnit taken cs = .ok unit ↔ hexQuad? cs = some unit := by
  have hread : hexQuad? cs = some unit → byteLength (cs.take 4) = 4 := by
    intro h
    obtain ⟨digits, back, rfl, hsize, hvalue⟩ := exists_digits h
    rw [List.take_left' hsize, (digits_plain hsize hvalue).2.1]
  unfold codeUnit
  constructor
  · intro h
    dsimp only at h
    split at h
    · cases h
    · split at h
      · next hvalue =>
          cases h
          exact hvalue
      · cases h
  · intro h
    dsimp only
    rw [if_neg (by rw [hread h]; decide), h]

/-! ### Escapes -/

/-- The first units of surrogate pairs. -/
theorem isLeading_iff {unit : Nat} : isLeading unit = true ↔ 0xD800 ≤ unit ∧ unit < 0xDC00 := by
  simp [isLeading]

/-- The second units of surrogate pairs. -/
theorem isTrailing_iff {unit : Nat} : isTrailing unit = true ↔ 0xDC00 ≤ unit ∧ unit < 0xE000 := by
  simp [isTrailing]

/-- A code point is no surrogate. -/
theorem not_surrogate (v : Char) : ¬ isLeading v.toNat = true ∧ ¬ isTrailing v.toNat = true := by
  have hvalid : v.toNat < 0xD800 ∨ 0xDFFF < v.toNat ∧ v.toNat < 0x110000 := v.valid
  rw [isLeading_iff, isTrailing_iff]
  omega

/-- A number in the range of code points that is no surrogate is a code point. -/
theorem toNat_ofNat {n : Nat} (h : n.isValidChar) : (Char.ofNat n).toNat = n := by
  unfold Char.ofNat
  rw [dif_pos h]
  rfl

/-- A code unit that is no surrogate is a code point. -/
theorem isValidChar_unit {unit : Nat} (hsmall : unit < 0x10000) (hleading : ¬ isLeading unit = true)
    (htrailing : ¬ isTrailing unit = true) : unit.isValidChar := by
  rw [isLeading_iff] at hleading
  rw [isTrailing_iff] at htrailing
  unfold Nat.isValidChar
  omega

/-- A surrogate pair stands for a code point. -/
theorem isValidChar_pairValue {leading trailing : Nat} (hfirst : isLeading leading = true)
    (hsecond : isTrailing trailing = true) : (pairValue leading trailing).isValidChar := by
  rw [isLeading_iff] at hfirst
  rw [isTrailing_iff] at hsecond
  unfold Nat.isValidChar pairValue
  omega

/-- What follows the digits of the first unit of a surrogate pair, with the character of the
pair. -/
def secondHalf (taken leading : Nat) (cs : List Char) : Except FlawAt (Char × Nat) :=
  match cs with
  | '\\' :: 'u' :: more =>
    match codeUnit (taken + 7) more with
    | .error flaw => .error flaw
    | .ok trailing =>
      if isTrailing trailing then .ok (Char.ofNat (pairValue leading trailing), 11)
      else .error ⟨.loneSurrogate, taken + 11⟩
  | '\\' :: _ => .error ⟨.unfinishedPair, taken + 7⟩
  | _ => .error ⟨.unfinishedPair, taken + 6⟩

/-- A surrogate pair goes on with the escape of its second unit. -/
theorem secondHalf_eq_ok {taken leading size : Nat} {cs : List Char} {v : Char} :
    secondHalf taken leading cs = .ok (v, size) ↔
      ∃ digits back trailing, cs = '\\' :: 'u' :: (digits ++ back) ∧ digits.length = 4 ∧
        hexQuad? digits = some trailing ∧ isTrailing trailing = true ∧
        Char.ofNat (pairValue leading trailing) = v ∧ size = 11 := by
  constructor
  · intro h
    unfold secondHalf at h
    split at h
    · split at h
      · cases h
      · next trailing hunit =>
          obtain ⟨digits, back, rfl, hsize, hvalue⟩ := exists_digits (codeUnit_eq_ok.mp hunit)
          by_cases hsecond : isTrailing trailing = true
          · rw [if_pos hsecond, Except.ok.injEq, Prod.mk.injEq] at h
            exact ⟨digits, back, trailing, rfl, hsize, hvalue, hsecond, h.1, h.2.symm⟩
          · rw [if_neg hsecond] at h
            cases h
    · cases h
    · cases h
  · rintro ⟨digits, back, trailing, rfl, hsize, hvalue, hsecond, rfl, rfl⟩
    have hunit : codeUnit (taken + 7) (digits ++ back) = .ok trailing := by
      rw [codeUnit_eq_ok, hexQuad?_append hsize, hvalue]
    simp only [secondHalf, hunit, hsecond, if_true]

/-- An escape by code units, after the digits of the first of them. -/
theorem escape_unit {digits : List Char} {unit : Nat} (hsize : digits.length = 4)
    (hvalue : hexQuad? digits = some unit) (taken : Nat) (back : List Char) :
    escape taken ('u' :: (digits ++ back)) =
      if isTrailing unit then .error ⟨.loneSurrogate, taken + 5⟩
      else if isLeading unit then secondHalf taken unit back
      else .ok (Char.ofNat unit, 5) := by
  have hunit : codeUnit (taken + 1) (digits ++ back) = .ok unit := by
    rw [codeUnit_eq_ok, hexQuad?_append hsize, hvalue]
  unfold escape
  simp only [hunit, List.drop_left' hsize]
  rfl

/-- An escape is taken wherever it stands. -/
theorem escape_of_escape {front : List Char} {v : Char} (h : Escape front v) (taken : Nat)
    (back : List Char) : escape taken (front ++ back) = .ok (v, front.length) := by
  cases h with
  | short h =>
      simp only [shortEscapes, List.mem_cons, List.not_mem_nil, or_false, Prod.mk.injEq] at h
      rcases h with ⟨rfl, rfl⟩ | ⟨rfl, rfl⟩ | ⟨rfl, rfl⟩ | ⟨rfl, rfl⟩ | ⟨rfl, rfl⟩ | ⟨rfl, rfl⟩ |
        ⟨rfl, rfl⟩ | ⟨rfl, rfl⟩
      all_goals rfl
  | unit hsize hvalue =>
      obtain ⟨hleading, htrailing⟩ := not_surrogate v
      rw [List.cons_append, escape_unit hsize hvalue, if_neg htrailing, if_neg hleading,
        Char.ofNat_toNat, List.length_cons, hsize]
  | @pair digits digits' leading trailing v hsize hleading hfirst hsize' htrailing hsecond hvalue =>
      have hnot : ¬ isTrailing leading = true := by
        rw [isLeading_iff] at hfirst
        rw [isTrailing_iff]
        omega
      have hpair : secondHalf taken leading ('\\' :: 'u' :: (digits' ++ back)) = .ok (v, 11) := by
        rw [secondHalf_eq_ok]
        exact ⟨digits', back, trailing, rfl, hsize', htrailing, hsecond,
          by rw [← hvalue, Char.ofNat_toNat], rfl⟩
      have hlength : ('u' :: digits ++ '\\' :: 'u' :: digits').length = 11 := by
        simp [hsize, hsize']
      rw [hlength, List.cons_append, List.cons_append, List.append_assoc, List.cons_append,
        List.cons_append, escape_unit hsize hleading, if_neg hnot, if_pos hfirst, hpair]

/-- What is taken for an escape is one. -/
theorem exists_escape {taken size : Nat} {cs : List Char} {v : Char}
    (h : escape taken cs = .ok (v, size)) :
    ∃ front back, cs = front ++ back ∧ front.length = size ∧ Escape front v := by
  have hshort : ∀ {letter : Char} {back : List Char} {v : Char}, (letter, v) ∈ shortEscapes →
      ∃ front rest, letter :: back = front ++ rest ∧ front.length = 1 ∧ Escape front v :=
    fun h => ⟨[_], _, rfl, rfl, .short h⟩
  have htaken := h
  unfold escape at h
  split at h
  case h_1 => cases h
  case h_10 cs =>
    split at h
    · cases h
    · next unit hunit =>
        clear h
        obtain ⟨digits, back, rfl, hsize, hvalue⟩ := exists_digits (codeUnit_eq_ok.mp hunit)
        rw [escape_unit hsize hvalue] at htaken
        split at htaken
        · cases htaken
        · next htrailing =>
            split at htaken
            · next hleading =>
                obtain ⟨digits', back', trailing, rfl, hsize', hvalue', hsecond, rfl, rfl⟩ :=
                  secondHalf_eq_ok.mp htaken
                refine ⟨'u' :: digits ++ '\\' :: 'u' :: digits', back', by simp, ?_, ?_⟩
                · simp [hsize, hsize']
                · exact .pair hsize hvalue hleading hsize' hvalue' hsecond
                    (toNat_ofNat (isValidChar_pairValue hleading hsecond))
            · next hleading =>
                cases htaken
                have hpoint := toNat_ofNat
                  (isValidChar_unit (digits_plain hsize hvalue).1 hleading htrailing)
                exact ⟨'u' :: digits, back, rfl, by rw [List.length_cons, hsize],
                  .unit hsize (by rw [hpoint, hvalue])⟩
  case h_11 => cases h
  all_goals
    cases h
    exact hshort (by decide)

/-! ### Decoding -/

/-- Decoding takes an item in one step. -/
theorem decode_item {front : List Char} {v : Char} (hitem : Item IsStandard front v) (taken : Nat)
    (cs : List Char) :
    ∃ taken', decode taken (front ++ cs) = (decode taken' cs).map (v :: ·) := by
  cases hitem with
  | plain hplain =>
      obtain ⟨hquote, hbackslash, hcontrol⟩ := hplain
      refine ⟨taken + v.utf8Size, ?_⟩
      rw [List.singleton_append, decode, if_neg hquote, if_neg hbackslash,
        if_neg (Nat.not_lt.mpr hcontrol)]
  | escape hescape => exact ⟨_, decode_escape _ (escape_of_escape hescape _ cs)⟩

/-- Decoding takes items up to a quote. -/
theorem decode_of_items {body text : List Char} (h : Items body text) (taken : Nat)
    (rest : List Char) : decode taken (body ++ '"' :: rest) = .ok text := by
  induction h generalizing taken with
  | nil =>
      show decode taken ('"' :: rest) = .ok []
      rw [decode, if_pos rfl]
  | cons hitem _ ih =>
      rw [List.append_assoc]
      obtain ⟨taken', hstep⟩ := decode_item hitem taken _
      rw [hstep, ih]
      rfl

/-- What is decoded are items. -/
theorem exists_items {taken : Nat} {cs text : List Char} (h : decode taken cs = .ok text) :
    ∃ body rest, cs = body ++ '"' :: rest ∧ Items body text := by
  fun_induction decode taken cs generalizing text with
  | case1 => cases h
  | case2 taken rest =>
      cases h
      exact ⟨[], rest, rfl, .nil⟩
  | case3 => cases h
  | case4 taken rest v size hescape _ ih =>
      obtain ⟨text, hrest, rfl⟩ := Reader.map_eq_ok.mp h
      obtain ⟨front, back, rfl, rfl, hitem⟩ := exists_escape hescape
      obtain ⟨body, rest, hback, hitems⟩ := ih hrest
      rw [List.drop_left] at hback
      subst hback
      exact ⟨'\\' :: front ++ body, rest, by simp, .cons (.escape hitem) hitems⟩
  | case5 => cases h
  | case6 taken c rest hquote hbackslash hcontrol ih =>
      obtain ⟨text, hrest, rfl⟩ := Reader.map_eq_ok.mp h
      obtain ⟨body, rest, rfl, hitems⟩ := ih hrest
      exact ⟨[c] ++ body, rest, rfl,
        .cons (.plain ⟨hquote, hbackslash, Nat.not_lt.mp hcontrol⟩) hitems⟩

/-! ### Spelling out -/

@[simp] theorem spellOut_nil : spellOut [] = [] := rfl

@[simp] theorem spellOut_cons (c : Char) (cs : List Char) :
    spellOut (c :: cs) = spellOutChar c ++ spellOut cs := rfl

@[simp] theorem spellOut_append (cs ds : List Char) :
    spellOut (cs ++ ds) = spellOut cs ++ spellOut ds := by
  unfold spellOut
  exact List.flatMap_append

/-- A character is spelled out as an escape, or left alone. -/
theorem spellOutChar_cases (c : Char) :
    (∃ letter, (c, letter) ∈ rawEscapes ∧ spellOutChar c = ['\\', letter]) ∨
      spellOutChar c = [c] ∧ c ≠ '\n' ∧ c ≠ '\r' ∧ c ≠ '\t' := by
  unfold spellOutChar
  split
  · exact .inl ⟨'n', by decide, rfl⟩
  · exact .inl ⟨'r', by decide, rfl⟩
  · exact .inl ⟨'t', by decide, rfl⟩
  · next hnewline hreturn htab => exact .inr ⟨rfl, hnewline, hreturn, htab⟩

/-- The characters that are spelled out, and the letters, which are not. -/
theorem spellOutChar_raw {c letter : Char} (h : (c, letter) ∈ rawEscapes) :
    spellOutChar c = ['\\', letter] ∧ spellOutChar letter = [letter] := by
  have hall : ∀ raw ∈ rawEscapes,
      spellOutChar raw.1 = ['\\', raw.2] ∧ spellOutChar raw.2 = [raw.2] := by
    decide
  exact hall _ h

/-- The letters stand for themselves without a backslash, and do not announce a code unit. -/
theorem letter_raw {c letter : Char} (h : (c, letter) ∈ rawEscapes) :
    IsStandard letter ∧ letter ≠ 'u' := by
  have hall : ∀ raw ∈ rawEscapes,
      (raw.2 ≠ '"' ∧ raw.2 ≠ '\\' ∧ 32 ≤ raw.2.toNat) ∧ raw.2 ≠ 'u' := by
    decide
  exact hall _ h

/-- What is spelled out stands for itself, as the escape does. -/
theorem shortEscape_raw {c letter : Char} (h : (c, letter) ∈ rawEscapes) :
    IsPlain c ∧ ∀ v, (letter, v) ∈ shortEscapes ↔ v = c := by
  simp only [rawEscapes, List.mem_cons, List.not_mem_nil, or_false, Prod.mk.injEq] at h
  unfold IsPlain
  rcases h with ⟨rfl, rfl⟩ | ⟨rfl, rfl⟩ | ⟨rfl, rfl⟩
  all_goals exact ⟨by decide, by simp [shortEscapes]⟩

/-- Where a spelled-out text starts, the text starts likewise, or with a character that is
spelled out. -/
theorem spellOut_eq_cons {cs back : List Char} {x : Char} (h : spellOut cs = x :: back) :
    (∃ rest, cs = x :: rest ∧ back = spellOut rest) ∨
      x = '\\' ∧ ∃ c letter rest, (c, letter) ∈ rawEscapes ∧ cs = c :: rest ∧
        back = letter :: spellOut rest := by
  cases cs with
  | nil => cases h
  | cons c rest =>
      rw [spellOut_cons] at h
      rcases spellOutChar_cases c with ⟨letter, hraw, hc⟩ | ⟨hc, -⟩
      · rw [hc] at h
        cases h
        exact .inr ⟨rfl, c, letter, rest, hraw, rfl, rfl⟩
      · rw [hc] at h
        cases h
        exact .inl ⟨rest, rfl, rfl⟩

/-- Only the empty text is spelled out as the empty text. -/
theorem spellOut_eq_nil {cs : List Char} (h : spellOut cs = []) : cs = [] := by
  cases cs with
  | nil => rfl
  | cons c rest =>
      rw [spellOut_cons] at h
      rcases spellOutChar_cases c with ⟨letter, -, hc⟩ | ⟨hc, -⟩
      · rw [hc] at h
        cases h
      · rw [hc] at h
        cases h

/-- No backslash, no spelling out. -/
theorem spellOut_eq_append {front cs back : List Char} (hfront : ∀ c ∈ front, c ≠ '\\')
    (h : spellOut cs = front ++ back) : ∃ rest, cs = front ++ rest ∧ back = spellOut rest := by
  induction front generalizing cs with
  | nil => exact ⟨cs, rfl, h.symm⟩
  | cons x front ih =>
      obtain ⟨hx, hrest⟩ := List.forall_mem_cons.mp hfront
      rcases spellOut_eq_cons h with ⟨rest, rfl, hback⟩ | ⟨hx', -⟩
      · obtain ⟨rest, rfl, rfl⟩ := ih hrest hback.symm
        exact ⟨rest, rfl, rfl⟩
      · exact absurd hx' hx

/-- An escape that starts with a letter other than `u` is that letter. -/
theorem Escape.of_cons {front cs back : List Char} {x v : Char} (hescape : Escape front v)
    (h : front ++ cs = x :: back) (hx : x ≠ 'u') :
    front = [x] ∧ cs = back ∧ (x, v) ∈ shortEscapes := by
  cases hescape with
  | short hshort =>
      cases h
      exact ⟨rfl, rfl, hshort⟩
  | unit => exact absurd (List.cons.inj h).1.symm hx
  | pair => exact absurd (List.cons.inj h).1.symm hx

/-- An escape of the spelled-out text behind a backslash is an escape of the text, unless it
came about because the character behind the backslash was spelled out. -/
theorem Escape.of_spellOut {front cs back : List Char} {v : Char} (hescape : Escape front v)
    (h : spellOut cs = front ++ back) :
    (∃ rest, cs = front ++ rest ∧ back = spellOut rest) ∨
      v = '\\' ∧ ∃ c letter rest, (c, letter) ∈ rawEscapes ∧ cs = c :: rest ∧
        back = letter :: spellOut rest := by
  have hmarked : ∀ {digits : List Char} {unit : Nat}, digits.length = 4 →
      hexQuad? digits = some unit → ∀ c ∈ 'u' :: digits, c ≠ '\\' := by
    intro digits unit hsize hvalue
    have hplain := (digits_plain hsize hvalue).2.2
    exact List.forall_mem_cons.mpr ⟨by decide, fun c hc => (hplain c hc).2.1⟩
  cases hescape with
  | @short letter v hshort =>
      rcases spellOut_eq_cons h with hrest | ⟨rfl, hslip⟩
      · exact .inl hrest
      · refine .inr ⟨?_, hslip⟩
        simpa [shortEscapes] using hshort
  | unit hsize hvalue => exact .inl (spellOut_eq_append (hmarked hsize hvalue) h)
  | pair hsize hleading _ hsize' htrailing _ _ =>
      rw [List.append_assoc] at h
      obtain ⟨rest, rfl, hrest⟩ := spellOut_eq_append (hmarked hsize hleading) h
      rcases spellOut_eq_cons hrest.symm with ⟨rest, rfl, hback⟩ | ⟨-, c, letter, _, hraw, -, hback⟩
      · obtain ⟨rest, rfl, rfl⟩ := spellOut_eq_append (hmarked hsize' htrailing) hback.symm
        exact .inl ⟨rest, by simp, rfl⟩
      · -- what is spelled out is no code unit
        obtain rfl : 'u' = letter := (List.cons.inj hback).1
        simp [rawEscapes] at hraw

/-- The text of an escape is left alone. -/
theorem Escape.spellOut {front : List Char} {v : Char} (h : Escape front v) :
    spellOut front = front := by
  have hmarked : ∀ {digits : List Char} {unit : Nat}, digits.length = 4 →
      hexQuad? digits = some unit → Text.spellOut ('u' :: digits) = 'u' :: digits := by
    intro digits unit hsize hvalue
    have hplain := (digits_plain hsize hvalue).2.2
    have hdigits : Text.spellOut digits = digits := by
      rw [Text.spellOut, List.flatMap_congr fun c hc => (hplain c hc).2.2, List.flatMap_singleton']
    rw [spellOut_cons, hdigits]
    rfl
  cases h with
  | short hshort =>
      have hall : ∀ short ∈ shortEscapes, Text.spellOut [short.1] = [short.1] := by decide
      exact hall _ hshort
  | unit hsize hvalue => exact hmarked hsize hvalue
  | pair hsize hleading _ hsize' htrailing _ _ =>
      rw [spellOut_append, hmarked hsize hleading, spellOut_cons, hmarked hsize' htrailing]
      rfl

/-- What a text says are the items of the spelled-out text. -/
theorem Spells.items {body text : List Char} (h : Spells body text) :
    Items (spellOut body) text := by
  induction h with
  | done => exact .nil
  | @item front cs text v hitem _ ih =>
      rw [spellOut_append]
      cases hitem with
      | plain hplain =>
          rw [spellOut_cons, spellOut_nil, List.append_nil]
          rcases spellOutChar_cases v with ⟨letter, hraw, hv⟩ | ⟨hv, hline, hreturn, htab⟩
          · rw [hv]
            exact .cons (.escape (.short (((shortEscape_raw hraw).2 v).mpr rfl))) ih
          · rw [hv]
            refine .cons (.plain ⟨hplain.1, hplain.2.1, ?_⟩) ih
            simpa [hline, hreturn, htab] using hplain.2.2
      | @escape front v hescape =>
          rw [spellOut_cons, hescape.spellOut]
          exact .cons (.escape hescape) ih
  | @slip c letter cs text hraw _ ih =>
      rw [spellOut_cons, spellOut_cons, (spellOutChar_raw hraw).1]
      show Items (['\\', '\\'] ++ ([letter] ++ spellOut cs)) _
      exact .cons (.escape (.short (by decide))) (.cons (.plain (letter_raw hraw).1) ih)

/-- A text that starts with a character other than a backslash says that character first. -/
theorem Spells.of_cons {c : Char} {cs text : List Char} (h : Spells (c :: cs) text)
    (hc : c ≠ '\\') : ∃ rest, text = c :: rest ∧ Spells cs rest := by
  generalize hbody : c :: cs = body at h
  cases h with
  | done => cases hbody
  | slip => exact absurd (List.cons.inj hbody).1 hc
  | item hitem hrest =>
      cases hitem with
      | plain =>
          cases hbody
          exact ⟨_, rfl, hrest⟩
      | escape => exact absurd (List.cons.inj hbody).1 hc

/-- The items of a spelled-out text are what the text says. -/
theorem Items.spells {w body text : List Char} (h : Items w text) (hw : spellOut body = w) :
    Spells body text := by
  induction h generalizing body with
  | nil =>
      rw [spellOut_eq_nil hw]
      exact .done
  | @cons front cs text v hitem _ ih =>
      cases hitem with
      | plain hplain =>
          rcases spellOut_eq_cons hw with ⟨rest, rfl, hrest⟩ | ⟨hbackslash, -⟩
          · show Spells ([v] ++ rest) (v :: text)
            exact .item (.plain ⟨hplain.1, hplain.2.1, .inl hplain.2.2⟩) (ih hrest.symm)
          · exact absurd hbackslash hplain.2.1
      | @escape front v hescape =>
          rcases spellOut_eq_cons hw with
            ⟨rest, rfl, hrest⟩ | ⟨-, c, letter, rest, hraw, rfl, hrest⟩
          · rcases hescape.of_spellOut hrest.symm with
              ⟨rest, rfl, hback⟩ | ⟨rfl, c, letter, rest, hraw, rfl, hback⟩
            · exact .item (.escape hescape) (ih hback.symm)
            · have hrest : spellOut (letter :: rest) = letter :: spellOut rest := by
                rw [spellOut_cons, (spellOutChar_raw hraw).2]
                rfl
              obtain ⟨text, rfl, hspells⟩ :=
                (ih (hrest.trans hback.symm)).of_cons (letter_raw hraw).1.2.1
              exact .slip hraw hspells
          · obtain ⟨rfl, rfl, hshort⟩ := hescape.of_cons hrest (letter_raw hraw).2
            obtain ⟨hplain, hvalue⟩ := shortEscape_raw hraw
            obtain rfl := (hvalue v).mp hshort
            show Spells ([v] ++ rest) (v :: text)
            exact .item (.plain hplain) (ih rfl)

/-- The items of the spelled-out text are what the text says. -/
theorem items_spellOut {body text : List Char} : Items (spellOut body) text ↔ Spells body text :=
  ⟨fun h => h.spells rfl, Spells.items⟩

/-! ### The quotes -/

/-- What may stand between the quotes of a literal: no quote without a backslash before it,
and no backslash without a character behind it. -/
inductive Enclosed : List Char → Prop
  | nil : Enclosed []
  | plain {c : Char} {cs : List Char} (hquote : c ≠ '"') (hbackslash : c ≠ '\\')
      (h : Enclosed cs) : Enclosed (c :: cs)
  | escaped {cs : List Char} (c : Char) (h : Enclosed cs) : Enclosed ('\\' :: c :: cs)

/-- A literal ends at the first quote that is not escaped. -/
theorem literalLength?_of_enclosed {body : List Char} (h : Enclosed body) (rest : List Char) :
    Reader.literalLength? (body ++ '"' :: rest) = some (body.length + 1) := by
  induction h with
  | nil => simp [Reader.literalLength?]
  | plain hquote hbackslash _ ih =>
      rw [List.cons_append, Reader.literalLength?, if_neg hquote, if_neg hbackslash, ih]
      · rfl
      · exact fun _ _ heq => absurd heq hbackslash
  | escaped c _ ih =>
      rw [List.cons_append, List.cons_append, Reader.literalLength?, ih]
      rfl

/-- Where a literal is found to end, it does. -/
theorem exists_enclosed {cs : List Char} {n : Nat} (h : Reader.literalLength? cs = some n) :
    ∃ body rest, cs = body ++ '"' :: rest ∧ Enclosed body ∧ n = body.length + 1 := by
  fun_induction Reader.literalLength? cs generalizing n with
  | case1 => cases h
  | case2 c cs ih =>
      obtain ⟨k, hk, rfl⟩ := Option.map_eq_some_iff.mp h
      obtain ⟨body, rest, rfl, hbody, rfl⟩ := ih hk
      exact ⟨'\\' :: c :: body, rest, rfl, .escaped c hbody, rfl⟩
  | case3 cs =>
      cases h
      exact ⟨[], cs, rfl, .nil, rfl⟩
  | case4 => cases h
  | case5 c cs _ hquote hbackslash ih =>
      obtain ⟨k, hk, rfl⟩ := Option.map_eq_some_iff.mp h
      obtain ⟨body, rest, rfl, hbody, rfl⟩ := ih hk
      exact ⟨c :: body, rest, rfl, .plain hquote hbackslash hbody, rfl⟩

/-- A literal ends behind what may stand in it, at a quote. -/
theorem literalLength?_eq_some {cs : List Char} {n : Nat} :
    Reader.literalLength? cs = some n ↔
      ∃ body rest, cs = body ++ '"' :: rest ∧ Enclosed body ∧ n = body.length + 1 := by
  constructor
  · exact exists_enclosed
  · rintro ⟨body, rest, rfl, hbody, rfl⟩
    exact literalLength?_of_enclosed hbody rest

/-- Two literals at one place are the same. -/
theorem Enclosed.unique {body body' rest rest' : List Char} (h : Enclosed body)
    (h' : Enclosed body') (heq : body ++ '"' :: rest = body' ++ '"' :: rest') : body = body' := by
  have hlength := literalLength?_of_enclosed h rest
  rw [heq, literalLength?_of_enclosed h' rest', Option.some.injEq] at hlength
  exact (List.append_inj heq (by omega)).1

/-- What may stand in a literal, put together. -/
theorem Enclosed.append {cs ds : List Char} (hcs : Enclosed cs) (hds : Enclosed ds) :
    Enclosed (cs ++ ds) := by
  induction hcs with
  | nil => exact hds
  | plain hquote hbackslash _ ih => exact .plain hquote hbackslash ih
  | escaped c _ ih => exact .escaped c ih

/-- Spelling out leaves the quotes where they are. -/
theorem Enclosed.spellOut {body : List Char} (h : Enclosed body) : Enclosed (spellOut body) := by
  induction h with
  | nil => exact .nil
  | @plain c cs hquote hbackslash _ ih =>
      rw [spellOut_cons]
      rcases spellOutChar_cases c with ⟨letter, -, hc⟩ | ⟨hc, -⟩
      · rw [hc]
        exact .escaped letter ih
      · rw [hc]
        exact .plain hquote hbackslash ih
  | @escaped cs c _ ih =>
      rw [spellOut_cons, spellOut_cons]
      rcases spellOutChar_cases c with ⟨letter, hraw, hc⟩ | ⟨hc, -⟩
      · obtain ⟨hquote, hbackslash, -⟩ := (letter_raw hraw).1
        rw [hc]
        exact .escaped '\\' (.plain hquote hbackslash ih)
      · rw [hc]
        exact .escaped c ih

/-- Items have no quote among them. -/
theorem Items.enclosed {body text : List Char} (h : Items body text) : Enclosed body := by
  have hdigits : ∀ {digits : List Char} {unit : Nat}, digits.length = 4 →
      hexQuad? digits = some unit → Enclosed digits := by
    intro digits unit hsize hvalue
    have hplain := (digits_plain hsize hvalue).2.2
    clear hsize hvalue
    induction digits with
    | nil => exact .nil
    | cons c cs ih =>
        obtain ⟨hc, hcs⟩ := List.forall_mem_cons.mp hplain
        exact .plain hc.1 hc.2.1 (ih hcs)
  induction h with
  | nil => exact .nil
  | cons hitem _ ih =>
      refine Enclosed.append ?_ ih
      cases hitem with
      | plain h => exact .plain h.1 h.2.1 .nil
      | escape hescape =>
          cases hescape with
          | short => exact .escaped _ .nil
          | unit hsize hvalue => exact .escaped 'u' (hdigits hsize hvalue)
          | pair hsize hleading _ hsize' htrailing _ _ =>
              exact .escaped 'u' ((hdigits hsize hleading).append
                (.escaped 'u' (hdigits hsize' htrailing)))

/-- A literal is decoded as what it says. -/
theorem unquote_eq_ok {body : List Char} (hbody : Enclosed body) {s : String} :
    unquote ('"' :: (body ++ ['"'])) = .ok s ↔
      ∃ text, Spells body text ∧ String.ofList text = s := by
  have hquote : spellOut (body ++ ['"']) = spellOut body ++ ['"'] := by
    rw [spellOut_append]
    rfl
  unfold unquote
  rw [List.tail_cons, hquote, Reader.map_eq_ok]
  constructor
  · rintro ⟨text, htext, rfl⟩
    obtain ⟨other, rest, heq, hitems⟩ := exists_items htext
    obtain rfl := hbody.spellOut.unique hitems.enclosed heq
    exact ⟨text, items_spellOut.mp hitems, rfl⟩
  · rintro ⟨text, hspells, rfl⟩
    exact ⟨text, decode_of_items hspells.items 1 [], rfl⟩

end Text

namespace Reader

open Text (Item Spells Enclosed)

/-- A text literal is read if and only if it is a sequence of items, but for the backslashes
before characters that are spelled out, and as the characters that they stand for; else it is
a syntax error, for the whole of it. -/
theorem readText_iff_spells {c : Cursor} {body rest : List Char}
    (hc : c.rest = '"' :: (body ++ '"' :: rest)) (hbody : Enclosed body) :
    (∀ v after, readText c = .ok (v, after) ↔ ∃ text, Spells body text ∧
      v = .str (String.ofList text) ∧ after = c.advance (body.length + 2)) ∧
    ((¬ ∃ text, Spells body text) →
      ∃ flaw, readText c = .error (.invalidText flaw (c.spanTo (c.advance (body.length + 2)))) ∧
        (Failure.invalidText flaw (c.spanTo (c.advance (body.length + 2)))).cause.name =
          "syntax") := by
  have hlength : literalLength? c.rest.tail = some (body.length + 1) := by
    refine Text.literalLength?_eq_some.mpr ⟨body, rest, ?_, hbody, rfl⟩
    rw [hc, List.tail_cons]
  have htake : c.rest.take (body.length + 1 + 1) = '"' :: (body ++ ['"']) := by
    rw [hc, List.take_succ_cons, List.take_length_add_append]
    rfl
  cases hunquote : Text.unquote ('"' :: (body ++ ['"'])) with
  | ok s =>
      have hread : readText c = .ok (.str s, c.advance (body.length + 2)) := by
        simp only [readText, hlength, Cursor.take, htake, hunquote]
      rw [hread]
      obtain ⟨text, hspells, htext⟩ := (Text.unquote_eq_ok hbody).mp hunquote
      refine ⟨?_, fun hnone => absurd ⟨text, hspells⟩ hnone⟩
      intro v after
      constructor
      · intro h
        cases h
        exact ⟨text, hspells, by rw [htext], rfl⟩
      · rintro ⟨other, hother, rfl, rfl⟩
        have hsame := (Text.unquote_eq_ok hbody).mpr ⟨other, hother, rfl⟩
        rw [hunquote, Except.ok.injEq] at hsame
        rw [hsame]
  | error flaw =>
      have hread : readText c =
          .error (.invalidText flaw (c.spanTo (c.advance (body.length + 2)))) := by
        simp only [readText, hlength, Cursor.take, htake, hunquote]
      rw [hread]
      refine ⟨?_, fun _ => ⟨flaw, rfl, rfl⟩⟩
      intro v after
      constructor
      · intro h
        cases h
      · rintro ⟨other, hother, rfl, rfl⟩
        have hsame := (Text.unquote_eq_ok hbody).mpr ⟨other, hother, rfl⟩
        cases hunquote.symm.trans hsame

/-- A code unit, a newline that stands for itself, and a tab behind a backslash, which gives
the letter of its escape; and a backslash before a letter that is no escape. -/
theorem readText_iff_spells_slip :
    (∃ after, readText (.start "\"\\u0041\n\\\t\" ()" "sample") =
      .ok (.str "A\n\\t", after)) ∧
    ∃ f, readText (.start "\"\\q\"" "sample") = .error f ∧ f.cause.name = "syntax" := by
  have hplain : Enclosed "\\u0041\n\\\t".toList :=
    .escaped _ (.plain (by decide) (by decide) (.plain (by decide) (by decide)
      (.plain (by decide) (by decide) (.plain (by decide) (by decide)
        (.plain (by decide) (by decide) (.escaped _ .nil))))))
  have hspells : Spells "\\u0041\n\\\t".toList "A\n\\t".toList := by
    have hunit : Item Text.IsPlain ['\\', 'u', '0', '0', '4', '1'] 'A' :=
      .escape (.unit rfl (by decide))
    have hnewline : Item Text.IsPlain ['\n'] '\n' := by
      refine .plain ?_
      unfold Text.IsPlain
      decide
    exact .item hunit (.item hnewline (.slip (by decide) .done))
  have hodd : Enclosed "\\q".toList := .escaped _ .nil
  have hliteral := @readText_iff_spells (.start "\"\\u0041\n\\\t\" ()" "sample") _
    " ()".toList rfl hplain
  have hrefused := @readText_iff_spells (.start "\"\\q\"" "sample") _ [] rfl hodd
  refine ⟨⟨_, (hliteral.1 _ _).mpr ⟨_, hspells, rfl, rfl⟩⟩, ?_⟩
  have hfailed : (readText (.start "\"\\q\"" "sample")).toOption.isNone = true := by
    decide +kernel
  obtain ⟨flaw, hflaw, hname⟩ := hrefused.2 (by
    rintro ⟨text, htext⟩
    rw [(hrefused.1 _ _).mpr ⟨text, htext, rfl, rfl⟩] at hfailed
    cases hfailed)
  exact ⟨_, hflaw, hname⟩

end Reader

end Lisp
