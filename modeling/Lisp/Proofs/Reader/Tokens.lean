import Lisp.Proofs.Number.Numerals
import Lisp.Proofs.Reader.Productions
import Lisp.Value.Equality

/-!
# Tokens

A token is the longest run of token characters, and what it denotes is decided by
its characters alone: `Denotes`.  The reader gets as far as looking for a token
unless a bracket, a quote or one of the wrapping marks comes first, so a token that
starts with no mark is taken as a whole, whatever stands behind it
(`readNested_token`).

The atoms each have a token that denotes them: the named constants, the keywords,
the symbols that no other reading claims (`denotes_symbol`), and the text of every
number, finite or not (`denotes_num`).
-/

namespace Lisp.Reader

open Text (EndsRun endsRun_cons takeWhile_run)
open Number (signChars)

/-! ### Characters -/

/-- A digit is a token character. -/
theorem isTokenChar_of_isDigit {c : Char} (h : c.isDigit = true) : isTokenChar c = true := by
  have hall : ∀ n : Fin 10, isTokenChar (Char.ofNat (48 + n)) = true := by decide
  have hbounds : 48 ≤ c.toNat ∧ c.toNat ≤ 57 := by
    simpa [Char.isDigit, Char.le_def, UInt32.le_iff_toNat_le] using h
  have hc : Char.ofNat (48 + (c.toNat - 48)) = c := by
    rw [Nat.add_sub_cancel' hbounds.1, Char.ofNat_toNat]
  rw [← hc]
  exact hall ⟨c.toNat - 48, by omega⟩

/-- Moving over a run of characters leaves what follows them. -/
theorem rest_advance {c : Cursor} (run : List Char) {rest : List Char} (h : c.rest = run ++ rest) :
    (c.advance run.length).rest = rest := by
  show c.rest.drop run.length = rest
  rw [h, List.drop_left]

/-- A character at which blanks or a comment start. -/
def isGap (c : Char) : Bool :=
  Text.isBlank c || c = ';'

/-- A character that a form can start with. -/
def isInk (c : Char) : Bool :=
  !isGap c && !isCloser c

/-- A form can start with every token character. -/
theorem isInk_of_isTokenChar {c : Char} (h : isTokenChar c = true) : isInk c = true := by
  simp only [isTokenChar, endsToken, Bool.not_eq_true', Bool.or_eq_false_iff,
    decide_eq_false_iff_not] at h
  simp only [isInk, isGap, isCloser, Bool.and_eq_true, Bool.not_eq_true', Bool.or_eq_false_iff,
    decide_eq_false_iff_not]
  tauto

/-- Ink ends a gap. -/
theorem not_isGap_of_isInk {c : Char} (h : isInk c = true) : isGap c = false := by
  rw [isInk, Bool.and_eq_true, Bool.not_eq_true'] at h
  exact h.1

/-- The length of a gap that is none. -/
theorem blankLength_eq_zero {cs : List Char} (h : EndsRun isGap cs) : blankLength false cs = 0 := by
  cases cs with
  | nil => rfl
  | cons c cs =>
      have hc := h c rfl
      rw [isGap, Bool.or_eq_false_iff, decide_eq_false_iff_not] at hc
      rw [blankLength, if_neg Bool.false_ne_true, hc.1, if_neg Bool.false_ne_true, if_neg hc.2]

/-- Nothing is skipped where no gap starts. -/
theorem skipBlanks_eq_self {c : Cursor} (h : EndsRun isGap c.rest) : skipBlanks c = c := by
  unfold skipBlanks
  rw [blankLength_eq_zero h]
  rfl

/-- Nothing is skipped before a character that starts no gap. -/
theorem skipBlanks_of_cons {c : Cursor} {next : Char} {rest : List Char}
    (hc : c.rest = next :: rest) (hnext : isGap next = false) : skipBlanks c = c := by
  refine skipBlanks_eq_self ?_
  rw [hc]
  exact endsRun_cons hnext rest

/-- One blank is skipped. -/
theorem rest_skipBlanks_blank {c : Cursor} {cs : List Char} (hc : c.rest = ' ' :: cs)
    (h : EndsRun isGap cs) : (skipBlanks c).rest = cs := by
  have hlength : blankLength false (' ' :: cs) = 1 := by
    rw [blankLength, if_neg Bool.false_ne_true, if_pos (by decide), blankLength_eq_zero h]
  unfold skipBlanks
  rw [hc, hlength]
  exact rest_advance [' '] hc

/-! ### Marks -/

/-- The marks that wrap the form after them. -/
def marks : List (List Char) :=
  [['\x27'], ['\x60'], [','], ['.', '.', '.']]

/-- A text that starts with a mark. -/
def isMarked (cs : List Char) : Bool :=
  marks.any fun mark => mark.isPrefixOf cs

/-- What ends a token does not make a mark of it: all marks are runs of token
characters. -/
theorem isMarked_append {token rest : List Char} (hmark : isMarked token = false)
    (htoken : ∀ c ∈ token, isTokenChar c = true) (hrest : EndsRun isTokenChar rest) :
    isMarked (token ++ rest) = false := by
  have hruns : (marks.all fun mark => mark.all isTokenChar) = true := by decide
  simp only [List.all_eq_true] at hruns
  simp only [isMarked, List.any_eq_false, List.isPrefixOf_iff_prefix] at hmark ⊢
  intro mark hmem hprefix
  refine hmark mark hmem ?_
  obtain ⟨tail, htail⟩ := hprefix
  have hrun : (mark ++ tail).takeWhile isTokenChar = token := by
    rw [htail]
    exact takeWhile_run htoken hrest
  rw [List.takeWhile_append_of_pos (hruns mark hmem)] at hrun
  exact ⟨_, hrun⟩

/-- A token starts where no bracket, quote or mark stands. -/
theorem opening_of_unmarked {next : Char} {rest : List Char} (hnext : isTokenChar next = true)
    (hmark : isMarked (next :: rest) = false) : opening (next :: rest) = .token := by
  have hbracket : ∀ d, isTokenChar d = false → ¬ next = d := by
    rintro d hd rfl
    rw [hd] at hnext
    cases hnext
  have hwrap : ∀ d, [d].isPrefixOf (next :: rest) = false → ¬ next = d := by
    rintro d hd rfl
    simp at hd
  simp only [isMarked, marks, List.any_cons, List.any_nil, Bool.or_false,
    Bool.or_eq_false_iff] at hmark
  obtain ⟨hquote, hquasi, hunquote, hdots⟩ := hmark
  have hspread : ¬ (next = '.' && ['.', '.'].isPrefixOf rest) = true := by
    intro hprefix
    rw [Bool.and_eq_true, decide_eq_true_eq] at hprefix
    obtain ⟨rfl, hprefix⟩ := hprefix
    rw [List.isPrefixOf, hprefix] at hdots
    cases hdots
  rw [opening, if_neg (hbracket '(' rfl), if_neg (hbracket '[' rfl), if_neg (hbracket '\x7b' rfl),
    if_neg (hwrap _ hquote), if_neg (hwrap _ hquasi), if_neg (hwrap _ hunquote), if_neg hspread,
    if_neg (hbracket '"' rfl)]

/-- The reader looks for a token where no bracket, quote or mark stands. -/
theorem readNested_unmarked (readForm : Cursor → Result Value) (dots : Bool) {c : Cursor}
    {next : Char} {rest : List Char} (hc : c.rest = next :: rest)
    (hnext : isTokenChar next = true) (hmark : isMarked c.rest = false) :
    readNested readForm dots c = readToken dots c := by
  rw [hc] at hmark
  rw [readNested_eq, skipBlanks_of_cons hc (not_isGap_of_isInk (isInk_of_isTokenChar hnext)), hc,
    opening_of_unmarked hnext hmark]
  rfl

/-! ### Dots -/

/-- The token splits at its dots: it is the segments with a dot between neighbours.  There are
several segments, each of which has a character and none of which has a dot. -/
structure Splits (token : List Char) (segments : List (List Char)) : Prop where
  joined : ['.'].intercalate segments = token
  several : 2 ≤ segments.length
  nonempty : ∀ segment ∈ segments, segment ≠ []
  undotted : ∀ segment ∈ segments, '.' ∉ segment

/-- The reader looks for dots as `List.splitOn` does. -/
theorem splitDots_eq_splitOn (cs : List Char) : splitDots cs = cs.splitOn '.' := by
  induction cs with
  | nil => rfl
  | cons c cs ih =>
      rw [splitDots, ih, List.splitOn_cons_eq_if_modifyHead]
      obtain ⟨part, rest, hparts⟩ := List.exists_cons_of_ne_nil (List.splitOn_ne_nil '.' cs)
      rw [hparts]
      by_cases hc : c = '.'
      · simp [hc]
      · simp [hc]

/-- A part between dots has characters of the text, and no dot. -/
theorem mem_of_mem_splitDots {cs part : List Char} (hpart : part ∈ splitDots cs) :
    ∀ c ∈ part, c ∈ cs ∧ c ≠ '.' := by
  induction cs generalizing part with
  | nil =>
      rw [List.mem_singleton.mp hpart]
      nofun
  | cons c cs ih =>
      have hmore : ∀ {part}, part ∈ splitDots cs → ∀ d ∈ part, d ∈ c :: cs ∧ d ≠ '.' :=
        fun hpart d hd => ⟨List.mem_cons_of_mem c (ih hpart d hd).1, (ih hpart d hd).2⟩
      rw [splitDots] at hpart
      split at hpart
      · next hnone =>
          rw [splitDots_eq_splitOn] at hnone
          exact absurd hnone (List.splitOn_ne_nil '.' cs)
      · next first rest hparts =>
          rw [hparts] at hmore
          split at hpart
          · rcases List.mem_cons.mp hpart with rfl | hold
            · nofun
            · exact hmore hold
          · next hdot =>
              rcases List.mem_cons.mp hpart with rfl | hold
              · exact List.forall_mem_cons.mpr
                  ⟨⟨List.mem_cons_self, hdot⟩, hmore List.mem_cons_self⟩
              · exact hmore (List.mem_cons_of_mem first hold)

/-- A token splits in one way only, into what is between its dots. -/
theorem splits_iff {token : List Char} {segments : List (List Char)} :
    Splits token segments ↔
      segments = splitDots token ∧ 2 ≤ segments.length ∧ ∀ segment ∈ segments, segment ≠ [] := by
  constructor
  · intro h
    have hne : segments ≠ [] := List.ne_nil_of_length_pos (by have := h.several; omega)
    refine ⟨?_, h.several, h.nonempty⟩
    rw [splitDots_eq_splitOn, ← h.joined, List.splitOn_intercalate '.' h.undotted hne]
  · rintro ⟨rfl, hseveral, hnonempty⟩
    refine ⟨?_, hseveral, hnonempty, ?_⟩
    · rw [splitDots_eq_splitOn, List.intercalate_splitOn]
    · intro segment hsegment hdot
      exact (mem_of_mem_splitDots hsegment '.' hdot).2 rfl

/-- The segments have the characters of the token. -/
theorem Splits.mem {token segment : List Char} {segments : List (List Char)}
    (h : Splits token segments) (hsegment : segment ∈ segments) {c : Char} (hc : c ∈ segment) :
    c ∈ token := by
  rw [(splits_iff.mp h).1] at hsegment
  exact (mem_of_mem_splitDots hsegment c hc).1

/-- The reader finds the segments of every token that splits and is no numeral. -/
theorem dotSegments?_eq_some {token : List Char} {segments : List (List Char)} :
    dotSegments? token = some segments ↔
      Splits token segments ∧ Number.isNumeral token = false := by
  rw [splits_iff, dotSegments?]
  constructor
  · intro h
    split at h
    · cases h
    · next hvalid =>
        cases h
        simp only [Bool.or_eq_true, decide_eq_true_eq, List.any_eq_true, List.isEmpty_iff,
          not_or, not_exists, not_and, Bool.not_eq_true, Nat.not_lt] at hvalid
        exact ⟨⟨rfl, hvalid.1.1, hvalid.1.2⟩, hvalid.2⟩
  · rintro ⟨⟨rfl, hseveral, hnonempty⟩, hnumeral⟩
    refine if_neg ?_
    simp only [Bool.or_eq_true, decide_eq_true_eq, List.any_eq_true, List.isEmpty_iff,
      not_or, not_exists, not_and, Bool.not_eq_true, Nat.not_lt]
    exact ⟨⟨hseveral, hnonempty⟩, hnumeral⟩

/-- A token that the reader leaves whole does not split, unless it is a numeral. -/
theorem not_splits {token : List Char} (h : dotSegments? token = none)
    (hnumeral : Number.isNumeral token = false) (segments : List (List Char)) :
    ¬ Splits token segments := by
  intro hsplits
  rw [dotSegments?_eq_some.mpr ⟨hsplits, hnumeral⟩] at h
  cases h

/-- A text without dots does not split. -/
theorem dotSegments?_of_not_mem {token : List Char} (h : '.' ∉ token) :
    dotSegments? token = none := by
  unfold dotSegments?
  dsimp only
  rw [splitDots_eq_splitOn, List.splitOn_eq_singleton h]
  rfl

/-! ### What a token denotes -/

/-- A token that is read as a form equal to `v`, wherever it stands. -/
structure Denotes (token : List Char) (v : Value) : Prop where
  nonempty : token ≠ []
  run : ∀ c ∈ token, isTokenChar c = true
  unmarked : isMarked token = false
  form : ∀ at_, ∃ form, classify true token at_ = .ok form ∧ form.same v = true

/-- The reader takes a token as a whole, up to what ends it. -/
theorem readNested_token {token : List Char} {v : Value} (h : Denotes token v)
    (readForm : Cursor → Result Value) {c : Cursor} {rest : List Char}
    (hc : c.rest = token ++ rest) (hrest : EndsRun isTokenChar rest) :
    ∃ form after, readNested readForm true c = .ok (form, after) ∧ after.rest = rest ∧
      form.same v = true := by
  obtain ⟨next, tail, hcons⟩ := List.exists_cons_of_ne_nil h.nonempty
  have hnext : isTokenChar next = true := h.run next (by rw [hcons]; exact List.mem_cons_self)
  have hmark : isMarked c.rest = false := by
    rw [hc]
    exact isMarked_append h.unmarked h.run hrest
  have htake : c.rest.takeWhile isTokenChar = token := by
    rw [hc]
    exact takeWhile_run h.run hrest
  obtain ⟨form, hform, hsame⟩ := h.form (c.spanTo (c.advance token.length))
  refine ⟨form, c.advance token.length, ?_, rest_advance token hc, hsame⟩
  rw [readNested_unmarked readForm true (hc.trans (by rw [hcons]; rfl)) hnext hmark]
  have hlength : (c.rest.takeWhile isTokenChar).length = tail.length + 1 := by
    rw [htake, hcons, List.length_cons]
  rw [hcons, List.length_cons] at hform
  rw [readToken_eq true hlength, htake, hcons, hform]
  rfl

/-- An atom is equal to itself. -/
theorem Denotes.of_atom {token : List Char} {v : Value} (hne : token ≠ [])
    (hrun : ∀ c ∈ token, isTokenChar c = true) (hmark : isMarked token = false)
    (hdots : dotSegments? token = none)
    (hatom : ∀ at_, ∃ form, atom token at_ = .ok form ∧ form.same v = true) :
    Denotes token v where
  nonempty := hne
  run := hrun
  unmarked := hmark
  form at_ := by
    unfold classify
    rw [if_pos rfl, hdots]
    exact hatom at_

/-! ### Names -/

/-- The texts of the constants that have a name. -/
def constantNames : List String :=
  ["nil", "true", "false", "infinity", "-infinity", "nan"]

/-- A constant is denoted by its name. -/
theorem denotes_constant {name : String} {form v : Value} (hname : name ∈ constantNames)
    (hatom : ∀ at_, atom name.toList at_ = .ok form) (hsame : form.same v = true) :
    Denotes name.toList v := by
  have hall : (constantNames.all fun name =>
      !name.toList.isEmpty && name.toList.all isTokenChar && !isMarked name.toList &&
        (dotSegments? name.toList).isNone) = true := by decide
  have hplain := List.all_eq_true.mp hall name hname
  simp only [Bool.and_eq_true, Bool.not_eq_true', List.isEmpty_eq_false_iff, List.all_eq_true,
    Option.isNone_iff_eq_none] at hplain
  obtain ⟨⟨⟨hne, hrun⟩, hmark⟩, hdots⟩ := hplain
  exact .of_atom hne hrun hmark hdots fun at_ => ⟨form, hatom at_, hsame⟩

/-- The constant `nil`. -/
theorem denotes_nil : Denotes "nil".toList .nil :=
  denotes_constant (by decide) (fun _ => rfl) rfl

/-- The two truth values. -/
theorem denotes_bool (b : Bool) : Denotes (if b then "true" else "false").toList (.bool b) := by
  cases b with
  | true => exact denotes_constant (by decide) (fun _ => rfl) rfl
  | false => exact denotes_constant (by decide) (fun _ => rfl) rfl

/-- A token that names no constant is a keyword if it starts with a colon, else a
numeral if it has the shape of one, and else a symbol. -/
theorem atom_of_not_constant (token : List Char) (at_ : Span) :
    String.ofList token ∉ constantNames →
    atom token at_ =
      match token with
      | ':' :: name => .ok (.keyword (String.ofList name))
      | _ =>
        match Number.Numeral.parse? Text.isDecimal token with
        | none => .ok (.symbol (String.ofList token))
        | some numeral =>
          match numeral.value? with
          | some n => .ok (.num n)
          | none => .error (.invalidNumber (String.ofList token) at_) := by
  intro h
  simp only [constantNames, List.mem_cons, List.not_mem_nil, or_false, not_or] at h
  obtain ⟨hnil, htrue, hfalse, hinfinity, hnegative, hnan⟩ := h
  unfold atom
  split
  · next heq => exact absurd heq hnil
  · next heq => exact absurd heq htrue
  · next heq => exact absurd heq hfalse
  · next heq => exact absurd heq hinfinity
  · next heq => exact absurd heq hnegative
  · next heq => exact absurd heq hnan
  · rfl

/-- The numeral test fails on the named constants. -/
theorem not_isNumeral_of_mem {token : List Char} (h : String.ofList token ∈ constantNames) :
    Number.isNumeral token = false := by
  have hall : ∀ name ∈ constantNames, Number.isNumeral name.toList = false := by decide
  have htoken := hall _ h
  rw [String.toList_ofList] at htoken
  exact htoken

/-- The numeral test fails on what starts with a mark. -/
theorem not_isMarked_of_isNumeral {token : List Char} (h : Number.isNumeral token = true) :
    isMarked token = false := by
  refine List.any_eq_false.mpr ?_
  intro mark hmem hprefix
  obtain ⟨tail, rfl⟩ := List.isPrefixOf_iff_prefix.mp hprefix
  simp only [marks, List.mem_cons, List.not_mem_nil, or_false] at hmem
  rcases hmem with rfl | rfl | rfl | rfl
  all_goals cases h

/-- A keyword whose text is one token without inner dots. -/
theorem denotes_keyword {name : List Char} (hrun : ∀ c ∈ name, isTokenChar c = true)
    (hdots : dotSegments? (':' :: name) = none) :
    Denotes (':' :: name) (.keyword (String.ofList name)) := by
  have hconstant : String.ofList (':' :: name) ∉ constantNames := by
    intro hmem
    have hall : ∀ constant ∈ constantNames, constant.toList.head? ≠ some ':' := by decide
    exact hall _ hmem (by rw [String.toList_ofList]; rfl)
  refine .of_atom (List.cons_ne_nil _ _) (List.forall_mem_cons.mpr ⟨by decide, hrun⟩) rfl hdots ?_
  intro at_
  refine ⟨_, atom_of_not_constant _ at_ hconstant, ?_⟩
  simp only [Value.same, beq_self_eq_true]

/-- A symbol that reads as nothing else. -/
theorem denotes_symbol {name : List Char} (hne : name ≠ [])
    (hrun : ∀ c ∈ name, isTokenChar c = true) (hmark : isMarked name = false)
    (hdots : dotSegments? name = none) (hconstant : String.ofList name ∉ constantNames)
    (hcolon : name.head? ≠ some ':') (hnumeral : Number.isNumeral name = false) :
    Denotes name (.symbol (String.ofList name)) := by
  have hparse : Number.Numeral.parse? Text.isDecimal name = none :=
    Option.isSome_eq_false_iff.mp hnumeral |> Option.isNone_iff_eq_none.mp
  refine .of_atom hne hrun hmark hdots ?_
  intro at_
  refine ⟨.symbol (String.ofList name), ?_, ?_⟩
  · rw [atom_of_not_constant _ at_ hconstant]
    split
    · exact absurd rfl hcolon
    · rw [hparse]
  · simp only [Value.symbol, Value.same, beq_self_eq_true]

/-! ### Numbers -/

/-- A numeral with a value. -/
theorem denotes_numeral {token : List Char} {numeral : Number.Numeral} {x y : Float}
    (hrun : ∀ c ∈ token, isTokenChar c = true)
    (hparse : Number.Numeral.parse? Text.isDecimal token = some numeral)
    (hvalue : numeral.value? = some x) (hsame : Number.same x y = true) :
    Denotes token (.num y) := by
  have hnumeral : Number.isNumeral token = true := by
    unfold Number.isNumeral
    rw [hparse]
    rfl
  have hconstant : String.ofList token ∉ constantNames := by
    intro hmem
    rw [not_isNumeral_of_mem hmem] at hnumeral
    cases hnumeral
  have hne : token ≠ [] := by
    rintro rfl
    cases hparse
  have hdots : dotSegments? token = none := by
    unfold dotSegments?
    dsimp only
    rw [hnumeral, Bool.or_true]
    rfl
  refine .of_atom hne hrun (not_isMarked_of_isNumeral hnumeral) hdots ?_
  intro at_
  refine ⟨.num x, ?_, hsame⟩
  rw [atom_of_not_constant _ at_ hconstant]
  split
  · cases hparse
  · rw [hparse]
    dsimp only
    rw [hvalue]

/-- The text of a decimal, with either sign, denotes the nearest double. -/
theorem denotes_decimal (d : Number.Decimal) (negative : Bool) {x : Float}
    (hsame : Number.same (Number.ofPattern negative d.pattern) x = true) :
    Denotes (signChars negative ++ d.text.toList) (.num x) := by
  obtain ⟨numeral, hparse, hvalue⟩ := d.parse?_text negative
  refine denotes_numeral ?_ hparse hvalue hsame
  intro c hc
  rcases List.mem_append.mp hc with hsign | htext
  · cases negative with
    | true =>
        rw [List.mem_singleton.mp hsign]
        decide
    | false => cases hsign
  · rcases d.isDigit_or_point_of_mem_text htext with hdigit | rfl
    · exact isTokenChar_of_isDigit hdigit
    · decide

/-- The names of the infinite values. -/
theorem denotes_infinity {x : Float} (h : Number.magnitude x = Number.infinityPattern) :
    Denotes (signChars (Number.isNegative x) ++ "infinity".toList) (.num x) := by
  have hsame := Number.same_ofPattern x (Nat.le_of_eq h)
  rw [h] at hsame
  generalize Number.isNegative x = negative at hsame ⊢
  cases negative with
  | true => exact @denotes_constant "-infinity" _ _ (by decide) (fun _ => rfl) hsame
  | false => exact @denotes_constant "infinity" _ _ (by decide) (fun _ => rfl) hsame

/-- The text of a number denotes it. -/
theorem denotes_num (x : Float) : Denotes (Number.text x).toList (.num x) := by
  have hsign : (if Number.isNegative x then "-" else "").toList =
      signChars (Number.isNegative x) := by
    cases Number.isNegative x <;> rfl
  unfold Number.text
  dsimp only
  split
  · next hnan =>
      exact denotes_constant (by decide) (fun _ => rfl) (Number.same_notANumber x hnan)
  · next hnumber =>
      split
      · next hinfinite =>
          rw [String.toList_append, hsign]
          exact denotes_infinity hinfinite
      · next hfinite =>
          split
          · next hzero =>
              exact denotes_decimal ⟨0, 0⟩ false (Number.same_zero x hzero)
          · next hpositive =>
              have hlt : Number.magnitude x < Number.infinityPattern := by omega
              rw [String.toList_append, hsign]
              refine denotes_decimal _ _ ?_
              rw [Number.Decimal.pattern_shortest (Nat.pos_of_ne_zero hpositive) hlt]
              exact Number.same_ofPattern x (Nat.le_of_lt hlt)

end Lisp.Reader
