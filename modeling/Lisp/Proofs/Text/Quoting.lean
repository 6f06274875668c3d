import Lisp.Reader

/-!
# Quoted texts read back

Reading a literal takes what writing it made, one character at a time: the three
passes over a literal, which look for its end, spell out raw blanks and decode
its items, each go over the written form of one character in one step.

* `literalLength?_quoted`: a literal ends at the quote that closes it;
* `unquote_quoted`: its content is the text that was written.
-/

namespace Lisp.Text

/-! ### Control characters -/

/-- The hexadecimal digit of a number is read as that number. -/
theorem hexValue?_digitChar {n : Nat} (h : n < 16) : hexValue? (Nat.digitChar n) = some n := by
  have hall : ∀ n : Fin 16, hexValue? (Nat.digitChar n) = some n.val := by decide
  exact hall ⟨n, h⟩

/-- A hexadecimal digit takes one byte, and is neither a quote nor a backslash. -/
theorem digitChar_plain {n : Nat} (h : n < 16) :
    (Nat.digitChar n).utf8Size = 1 ∧ Nat.digitChar n ≠ '"' ∧ Nat.digitChar n ≠ '\\' ∧
      spellOutChar (Nat.digitChar n) = [Nat.digitChar n] := by
  have hall : ∀ n : Fin 16, (Nat.digitChar n).utf8Size = 1 ∧ Nat.digitChar n ≠ '"' ∧
      Nat.digitChar n ≠ '\\' ∧ spellOutChar (Nat.digitChar n) = [Nat.digitChar n] := by decide
  exact hall ⟨n, h⟩

/-- A code point below the space as a code unit. -/
theorem codeUnit_control (taken : Nat) {n : Nat} (h : n < 32) (cs : List Char) :
    codeUnit taken ('0' :: '0' :: Nat.digitChar (n / 16) :: Nat.digitChar (n % 16) :: cs) =
      .ok n := by
  have hhigh : n / 16 < 16 := by omega
  have hlow : n % 16 < 16 := by omega
  have hzero : hexValue? '0' = some 0 := by decide
  have hvalue : ((0 * 16 + 0) * 16 + n / 16) * 16 + n % 16 = n := by omega
  have hbytes : byteLength (['0', '0', Nat.digitChar (n / 16), Nat.digitChar (n % 16)]) = 4 := by
    simp only [byteLength, (digitChar_plain hhigh).1, (digitChar_plain hlow).1]
    decide
  unfold codeUnit
  simp only [List.take_succ_cons, List.take_zero, hbytes, hexQuad?, hzero,
    hexValue?_digitChar hhigh, hexValue?_digitChar hlow]
  show (if 4 < 4 then _ else Except.ok (((0 * 16 + 0) * 16 + n / 16) * 16 + n % 16)) = _
  rw [if_neg (by decide), hvalue]

/-- The escape of a control character. -/
theorem escape_control (taken : Nat) {c : Char} (h : c.toNat < 32) (cs : List Char) :
    escape taken ('u' :: '0' :: '0' :: Nat.digitChar (c.toNat / 16) ::
      Nat.digitChar (c.toNat % 16) :: cs) = .ok (c, 5) := by
  have htrailing : isTrailing c.toNat = false := by
    unfold isTrailing
    simp only [Bool.and_eq_false_iff, decide_eq_false_iff_not]
    omega
  have hleading : isLeading c.toNat = false := by
    unfold isLeading
    simp only [Bool.and_eq_false_iff, decide_eq_false_iff_not]
    omega
  unfold escape
  simp only [codeUnit_control (taken + 1) h cs, htrailing, hleading, Char.ofNat_toNat]
  rfl

/-! ### One character -/

/-- Decoding takes an escape in one step. -/
theorem decode_escape {taken : Nat} {c : Char} (escaped : List Char) {cs : List Char}
    (h : escape (taken + 1) (escaped ++ cs) = .ok (c, escaped.length)) :
    decode taken ('\\' :: escaped ++ cs) =
      (decode (taken + 1 + escaped.length) cs).map (c :: ·) := by
  rw [List.cons_append, decode, if_neg (by decide), if_pos rfl, h]
  dsimp only
  rw [List.drop_left]

/-- Decoding takes the written form of a character in one step. -/
theorem decode_quoteChar (taken : Nat) (c : Char) (cs : List Char) :
    ∃ taken', decode taken (quoteChar c ++ cs) = (decode taken' cs).map (c :: ·) := by
  unfold quoteChar
  split
  · exact ⟨_, decode_escape ['"'] rfl⟩
  · exact ⟨_, decode_escape ['\\'] rfl⟩
  · exact ⟨_, decode_escape ['b'] rfl⟩
  · exact ⟨_, decode_escape ['t'] rfl⟩
  · exact ⟨_, decode_escape ['n'] rfl⟩
  · exact ⟨_, decode_escape ['f'] rfl⟩
  · exact ⟨_, decode_escape ['r'] rfl⟩
  · next hquote hbackslash _ _ _ _ _ =>
      split
      · next hcontrol =>
          exact ⟨_, decode_escape ['u', '0', '0', Nat.digitChar (c.toNat / 16),
            Nat.digitChar (c.toNat % 16)] (escape_control (taken + 1) hcontrol cs)⟩
      · next hplain =>
          refine ⟨taken + c.utf8Size, ?_⟩
          rw [List.singleton_append, decode, if_neg (fun h => hquote h),
            if_neg (fun h => hbackslash h), if_neg hplain]

/-- No raw blank stands in the written form of a character. -/
theorem spellOut_quoteChar (c : Char) : spellOut (quoteChar c) = quoteChar c := by
  unfold quoteChar
  split
  · rfl
  · rfl
  · rfl
  · rfl
  · rfl
  · rfl
  · rfl
  · next _ _ _ htab hnewline _ hreturn =>
      split
      · have hhigh : c.toNat / 16 < 16 := by omega
        have hlow : c.toNat % 16 < 16 := by omega
        unfold spellOut
        simp only [List.flatMap_cons, List.flatMap_nil, (digitChar_plain hhigh).2.2.2,
          (digitChar_plain hlow).2.2.2]
        rfl
      · unfold spellOut spellOutChar
        rw [List.flatMap_cons, List.flatMap_nil, List.append_nil]
        split
        · exact absurd rfl hnewline
        · exact absurd rfl hreturn
        · exact absurd rfl htab
        · rfl

/-- The search for the end goes over the written form of a character. -/
theorem literalLength?_quoteChar (c : Char) (cs : List Char) :
    Reader.literalLength? (quoteChar c ++ cs) =
      (Reader.literalLength? cs).map (· + (quoteChar c).length) := by
  have hone : ∀ (d : Char) (ds : List Char), d ≠ '"' → d ≠ '\\' →
      Reader.literalLength? (d :: ds) = (Reader.literalLength? ds).map (· + 1) := by
    intro d ds hquote hbackslash
    rw [Reader.literalLength?, if_neg hquote, if_neg hbackslash]
    exact fun _ _ heq => absurd heq hbackslash
  unfold quoteChar
  split
  · rfl
  · rfl
  · rfl
  · rfl
  · rfl
  · rfl
  · rfl
  · next hquote hbackslash _ _ _ _ _ =>
      split
      · have hhigh : c.toNat / 16 < 16 := by omega
        have hlow : c.toNat % 16 < 16 := by omega
        obtain ⟨-, hhighQuote, hhighBackslash, -⟩ := digitChar_plain hhigh
        obtain ⟨-, hlowQuote, hlowBackslash, -⟩ := digitChar_plain hlow
        simp only [List.cons_append, List.nil_append]
        rw [Reader.literalLength?, hone _ _ (by decide) (by decide),
          hone _ _ (by decide) (by decide), hone _ _ hhighQuote hhighBackslash,
          hone _ _ hlowQuote hlowBackslash]
        simp only [Option.map_map]
        rfl
      · exact hone c cs (fun h => hquote h) (fun h => hbackslash h)

/-! ### Whole texts -/

/-- The written form of a text, between its quotes. -/
def quotedChars (text : List Char) : List Char :=
  text.flatMap quoteChar

/-- A literal ends at the quote that closes it. -/
theorem literalLength?_quoted (text rest : List Char) :
    Reader.literalLength? (quotedChars text ++ '"' :: rest) =
      some ((quotedChars text).length + 1) := by
  induction text with
  | nil => rfl
  | cons c text ih =>
      unfold quotedChars at ih ⊢
      rw [List.flatMap_cons, List.append_assoc, literalLength?_quoteChar, ih, List.length_append]
      show some ((quotedChars text).length + 1 + (quoteChar c).length) = _
      unfold quotedChars
      congr 1
      omega

/-- No raw blank stands in a written literal. -/
theorem spellOut_quoted (text : List Char) :
    spellOut (quotedChars text ++ ['"']) = quotedChars text ++ ['"'] := by
  induction text with
  | nil => rfl
  | cons c text ih =>
      have hc := spellOut_quoteChar c
      unfold spellOut at ih hc ⊢
      unfold quotedChars at ih ⊢
      rw [List.flatMap_cons, List.append_assoc, List.flatMap_append, hc, ih]

/-- The content of a written literal is the text. -/
theorem decode_quoted (taken : Nat) (text : List Char) :
    decode taken (quotedChars text ++ ['"']) = .ok text := by
  induction text generalizing taken with
  | nil =>
      show decode taken ['"'] = .ok []
      rw [decode, if_pos rfl]
  | cons c text ih =>
      unfold quotedChars at ih ⊢
      rw [List.flatMap_cons, List.append_assoc]
      obtain ⟨taken', hstep⟩ := decode_quoteChar taken c (text.flatMap quoteChar ++ ['"'])
      rw [hstep, ih]
      rfl

/-- A written literal reads back as the text. -/
theorem unquote_quoted (text : List Char) :
    unquote ('"' :: (quotedChars text ++ ['"'])) = .ok (String.ofList text) := by
  unfold unquote
  rw [List.tail_cons, spellOut_quoted, decode_quoted]
  rfl

end Lisp.Text
