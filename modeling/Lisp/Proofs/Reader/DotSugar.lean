import Lisp.Proofs.Reader.Spans

/-!
# Dot sugar

Dot sugar rewrites atoms, and changes nothing else: a text without digits of other scripts
is read with the sugar on as it is with the sugar off, but for the symbols and keywords whose
token splits at its dots, each of which becomes a member access to its segments
(`read_dots`).  If it is refused, then for the same reason at the same place.

Which tokens split is said of their text alone (`Splits`): they are several segments with
dots between them.  The reader finds the segments of all of them but the numerals
(`dotSegments?_eq_some`), and a numeral is no symbol and no keyword.

Both readers take the same lexemes, so they stand at the same cursors all along.  What they
have read there is compared form by form (`Sugared`), and only at a token there is anything
to compare (`readToken_rewrites`).  Digits of other scripts are left out because a segment
written in them is refused as a numeral, which the whole token need not be.
-/

namespace Lisp

namespace Value

/-- The token that a symbol or a keyword is written as. -/
def token? : Value → Option (List Char)
  | .sym s => some s.name.toList
  | .keyword name => some (':' :: name.toList)
  | _ => none

/-- The second value is the first one, which was read from the text, with its dotted atoms
rewritten as member accesses: every symbol and keyword whose token splits, and no other value.
The spans of the accesses are those of the tokens. -/
inductive Sugared (text file : String) : Value → Value → Prop
  | atom {v : Value} (hlist : ¬ v.IsList)
      (hwhole : ∀ token, v.token? = some token → ∀ segments, ¬ Reader.Splits token segments) :
      Sugared text file v v
  | access {v : Value} {token : List Char} {segments : List (List Char)} {parts : List Value}
      {s : Span} (htoken : v.token? = some token) (hsplits : Reader.Splits token segments)
      (hnumeral : Number.isNumeral token = false)
      (hparts : List.Forall₂ (fun segment part => ∀ at_, Reader.atom segment at_ = .ok part)
        segments parts)
      (hfile : s.file = file) (htext : s.text = text) (himage : s.image = String.ofList token) :
      Sugared text file v (.list (.sym SpecialForm.member.symbol :: parts) (some s))
  | list {items others : List Value} {source : Option Span}
      (hitems : List.Forall₂ (Sugared text file) items others) :
      Sugared text file (.list items source) (.list others source)

end Value

namespace Reader

open Value (Sugared)

/-! ### Atoms -/

/-- All decimal digits of the text are ASCII. -/
def PlainDigits (cs : List Char) : Prop :=
  ∀ c ∈ cs, Text.isDecimal c = true → c.isDigit = true

/-- A token in plain digits is an atom, and the same one everywhere. -/
theorem exists_atom {token : List Char} (h : PlainDigits token) :
    ∃ v, ∀ at_, atom token at_ = .ok v := by
  have hsome : ∃ v, atom token default = .ok v := by
    cases hatom : atom token default with
    | ok v => exact ⟨v, rfl⟩
    | error f =>
        unfold atom at hatom
        repeat' split at hatom
        all_goals cases hatom
        next numeral hparse _ hvalue =>
          obtain ⟨x, hx⟩ := Number.Numeral.exists_value? hparse h
          cases hvalue.symm.trans hx
  obtain ⟨v, hv⟩ := hsome
  exact ⟨v, atom_eq_ok hv⟩

/-- The segments of a dotted token in plain digits are atoms. -/
theorem exists_atoms {segments : List (List Char)} (h : ∀ segment ∈ segments, PlainDigits segment)
    (at_ : Span) :
    ∃ parts, atoms at_ segments = .ok parts ∧
      List.Forall₂ (fun segment part => ∀ at_, atom segment at_ = .ok part) segments parts := by
  induction segments with
  | nil => exact ⟨[], rfl, .nil⟩
  | cons segment segments ih =>
      obtain ⟨hfirst, hothers⟩ := List.forall_mem_cons.mp h
      obtain ⟨v, hv⟩ := exists_atom hfirst
      obtain ⟨parts, hparts, hall⟩ := ih hothers
      refine ⟨v :: parts, ?_, .cons hv hall⟩
      rw [atoms, hv]
      dsimp only
      rw [hparts]
      rfl

/-- A token that denotes a symbol or a keyword is the token of that, and no numeral.  The
other tokens, constants and numerals, are left whole. -/
theorem token?_of_atom {token : List Char} {at_ : Span} {v : Value}
    (h : atom token at_ = .ok v) :
    v.token? = some token ∧ Number.isNumeral token = false ∨
      v.token? = none ∧ dotSegments? token = none := by
  by_cases hconstant : String.ofList token ∈ constantNames
  · have hdot : '.' ∉ token := by
      have hall : ∀ name ∈ constantNames, '.' ∉ name.toList := by decide
      have htoken := hall _ hconstant
      rw [String.toList_ofList] at htoken
      exact htoken
    refine .inr ⟨?_, dotSegments?_of_not_mem hdot⟩
    simp only [constantNames, List.mem_cons, List.not_mem_nil, or_false] at hconstant
    rcases hconstant with heq | heq | heq | heq | heq | heq
    all_goals
      rw [atom, heq] at h
      cases h
      rfl
  · rw [atom_of_not_constant token at_ hconstant] at h
    split at h
    · next name =>
        cases h
        refine .inl ⟨?_, rfl⟩
        rw [Value.token?, String.toList_ofList]
    · split at h
      · next hparse =>
          cases h
          refine .inl ⟨?_, ?_⟩
          · rw [Value.symbol, Value.token?, Symbol.intern, String.toList_ofList]
          · rw [Number.isNumeral, hparse]
            rfl
      · next hparse =>
          have hnumeral : Number.isNumeral token = true := by
            rw [Number.isNumeral, hparse]
            rfl
          have hnone : dotSegments? token = none := by
            rw [dotSegments?]
            simp [hnumeral]
          split at h
          · cases h
            exact .inr ⟨rfl, hnone⟩
          · cases h

/-! ### Two readers at one cursor -/

/-- What the two readers come to at a cursor: the second one's result is the first one's,
rewritten, at the same cursor of the text, or both complain alike. -/
inductive Rewrites (text file : String) {α : Type} (R : α → α → Prop) :
    Result α → Result α → Prop
  | ok {a b : α} {c : Cursor} (hresult : R a b) (hc : c.Stands text file) :
      Rewrites text file R (.ok (a, c)) (.ok (b, c))
  | error (f : Failure) : Rewrites text file R (.error f) (.error f)

section Readers

variable {text file : String} {c : Cursor}

/-- The symbols that the reader puts in front of forms stay what they are. -/
theorem sugared_symbol {name : String} (hname : dotSegments? name.toList = none)
    (hnumeral : Number.isNumeral name.toList = false) :
    Sugared text file (.symbol name) (.symbol name) := by
  refine .atom nofun ?_
  intro token htoken
  cases htoken
  exact not_splits hname hnumeral

theorem sugared_form (form : SpecialForm) :
    Sugared text file (.sym form.symbol) (.sym form.symbol) := by
  have hname : dotSegments? form.name.toList = none ∧
      Number.isNumeral form.name.toList = false := by
    cases form
    all_goals decide
  exact sugared_symbol hname.1 hname.2

/-- A token is an atom, or becomes a member access to its segments. -/
theorem classify_rewrites {token : List Char} (hdigits : PlainDigits token) {s : Span}
    (hfile : s.file = file) (htext : s.text = text) (himage : s.image = String.ofList token) :
    ∃ v u, classify false token s = .ok v ∧ classify true token s = .ok u ∧
      Sugared text file v u := by
  obtain ⟨v, hv⟩ := exists_atom hdigits
  have htoken := token?_of_atom (hv s)
  cases hdots : dotSegments? token with
  | none =>
      refine ⟨v, v, hv s, ?_, .atom (not_isList_of_atom (hv s)) ?_⟩
      · rw [classify, if_pos rfl, hdots]
        exact hv s
      · intro other hother
        rcases htoken with ⟨hsame, hnumeral⟩ | ⟨hnone, -⟩
        · cases hsame.symm.trans hother
          exact not_splits hdots hnumeral
        · cases hnone.symm.trans hother
  | some segments =>
      obtain ⟨hsplits, hnumeral⟩ := dotSegments?_eq_some.mp hdots
      have hplain : ∀ segment ∈ segments, PlainDigits segment :=
        fun segment hsegment d hd => hdigits d (hsplits.mem hsegment hd)
      obtain ⟨parts, hparts, hall⟩ := exists_atoms hplain s
      have hsame : v.token? = some token := by
        rcases htoken with ⟨hsame, -⟩ | ⟨-, hnone⟩
        · exact hsame
        · cases hdots.symm.trans hnone
      refine ⟨v, .list (.sym SpecialForm.member.symbol :: parts) (some s), hv s, ?_,
        .access hsame hsplits hnumeral hall hfile htext himage⟩
      rw [classify, if_pos rfl, hdots]
      dsimp only
      rw [hparts]
      rfl

/-- A token. -/
theorem readToken_rewrites (hdigits : PlainDigits text.toList) (hc : c.Stands text file) :
    Rewrites text file (Sugared text file) (readToken false c) (readToken true c) := by
  cases hlength : (c.rest.takeWhile isTokenChar).length with
  | zero =>
      rw [readToken_of_none false hlength, readToken_of_none true hlength]
      exact .error _
  | succ n =>
      rw [readToken_eq false hlength, readToken_eq true hlength]
      have hpassed : c.rest.take (n + 1) = c.rest.takeWhile isTokenChar := by
        rw [← hlength]
        exact (List.prefix_iff_eq_take.mp (List.takeWhile_prefix isTokenChar)).symm
      have hpasses : c.Passes (c.rest.takeWhile isTokenChar) (c.advance (n + 1)) := by
        refine ⟨rfl, rfl, ?_, ?_⟩
        · rw [← hpassed]
          rfl
        · rw [← hpassed]
          exact (List.take_append_drop (n + 1) c.rest).symm
      obtain ⟨before, htext, -, -, himage⟩ := hc.spanTo hpasses
      have hplain : PlainDigits (c.rest.takeWhile isTokenChar) := by
        intro d hd
        refine hdigits d ?_
        rw [htext]
        exact List.mem_append_left _ (List.mem_append_right _ hd)
      obtain ⟨v, u, hv, hu, hsugared⟩ := classify_rewrites hplain
        (s := c.spanTo (c.advance (n + 1))) hc.inFile hc.inText himage
      rw [hv, hu]
      exact .ok hsugared (hc.of_before (.advance c _))

/-- A text literal. -/
theorem readText_rewrites (hc : c.Stands text file) :
    Rewrites text file (Sugared text file) (readText c) (readText c) := by
  cases hread : readText c with
  | error f => exact .error f
  | ok result =>
      obtain ⟨v, after⟩ := result
      refine .ok ?_ (hc.of_before (before_of_readText hread))
      obtain ⟨_, text, -, -, rfl, -⟩ := readText_eq_ok hread
      exact .atom nofun nofun

/-! ### Forms -/

/-- Two readers of nested forms, the second of which rewrites what the first one reads. -/
def RewritesNested (text file : String) (plain sugar : Cursor → Result Value) : Prop :=
  ∀ {c : Cursor}, c.Stands text file →
    Rewrites text file (Sugared text file) (plain c) (sugar c)

variable {plain sugar : Cursor → Result Value} (hnested : RewritesNested text file plain sugar)
include hnested

/-- A mark and the form after it. -/
theorem readWrapped_rewrites (form : SpecialForm) (opened : Cursor) (hc : c.Stands text file) :
    Rewrites text file (Sugared text file) (readWrapped plain form opened c)
      (readWrapped sugar form opened c) := by
  have hinner := hnested hc
  unfold readWrapped
  generalize plain c = x at hinner ⊢
  generalize sugar c = y at hinner ⊢
  cases hinner with
  | ok hsugared hafter => exact .ok (.list (.cons (sugared_form form) (.cons hsugared .nil))) hafter
  | error f => exact .error f

/-- A `...` and what follows it. -/
theorem readSplice_rewrites (hc : c.Stands text file) :
    Rewrites text file (Sugared text file) (readSplice plain c) (readSplice sugar c) := by
  have hafter : (skipBlanks (c.advance 3)).Stands text file :=
    hc.of_before ((Cursor.Before.advance c 3).trans (.skipBlanks _))
  unfold readSplice
  dsimp only
  split
  · exact .ok (sugared_form _) hafter
  · split
    · exact .ok (sugared_form _) hafter
    · exact readWrapped_rewrites hnested .splice c hafter

/-- The elements of a list. -/
theorem readItems_rewrites (opened : Span) (close : Char) (turns : Nat) {read read' : List Value}
    (hread : List.Forall₂ (Sugared text file) read read') (hc : c.Stands text file) :
    Rewrites text file (List.Forall₂ (Sugared text file)) (readItems plain opened close turns read c)
      (readItems sugar opened close turns read' c) := by
  induction turns generalizing c read read' with
  | zero => exact .error _
  | succ turns ih =>
      have hskip : (skipBlanks c).Stands text file := hc.of_before (.skipBlanks c)
      unfold readItems
      dsimp only
      split
      · exact .error _
      · split
        · exact .ok (List.rel_reverse hread) (hskip.of_before (.advance _ 1))
        · have hitem := hnested hskip
          generalize plain (skipBlanks c) = x at hitem ⊢
          generalize sugar (skipBlanks c) = y at hitem ⊢
          cases hitem with
          | ok hsugared hafter => exact ih (.cons hsugared hread) hafter
          | error f => exact .error f

/-- A list. -/
theorem readList_rewrites (close : Char) {head : List Value}
    (hhead : List.Forall₂ (Sugared text file) head head) (hc : c.Stands text file) :
    Rewrites text file (Sugared text file) (readList plain close head c)
      (readList sugar close head c) := by
  have hitems := readItems_rewrites hnested (c.spanTo (c.advance 1)) close
    ((c.advance 1).rest.length + 1) hhead (hc.of_before (.advance c 1))
  unfold readList
  dsimp only [Cursor.take]
  generalize readItems plain _ close _ head (c.advance 1) = x at hitems ⊢
  generalize readItems sugar _ close _ head (c.advance 1) = y at hitems ⊢
  cases hitems with
  | ok hsugared hafter => exact .ok (.list hsugared) hafter
  | error f => exact .error f

/-- A form is rewritten if the forms nested in it are. -/
theorem readNested_rewrites (hdigits : PlainDigits text.toList) :
    RewritesNested text file (readNested plain false) (readNested sugar true) := by
  intro c hc
  rw [readNested_eq, readNested_eq]
  have hskip : (skipBlanks c).Stands text file := hc.of_before (.skipBlanks c)
  generalize skipBlanks c = c at hskip ⊢
  cases hopening : opening c.rest with
  | nothing => exact .error _
  | list close head =>
      refine readList_rewrites hnested close ?_ hskip
      rcases head_of_opening hopening with rfl | rfl | rfl
      · exact .nil
      · exact .cons (sugared_symbol (by decide) (by decide)) .nil
      · exact .cons (sugared_symbol (by decide) (by decide)) .nil
  | wrapped form size =>
      exact readWrapped_rewrites hnested form c (hskip.of_before (.advance c size))
  | splice => exact readSplice_rewrites hnested hskip
  | text => exact readText_rewrites hskip
  | token => exact readToken_rewrites hdigits hskip

omit hnested in
/-- Forms are rewritten at every depth. -/
theorem readForm_rewrites (hdigits : PlainDigits text.toList) (levels : Nat) :
    RewritesNested text file (readForm false levels) (readForm true levels) := by
  induction levels with
  | zero => exact fun _ => .error _
  | succ levels ih => exact readNested_rewrites ih hdigits

omit hnested in
/-- The forms of a text are rewritten one by one. -/
theorem readForms_rewrites (hdigits : PlainDigits text.toList) {turns : Nat}
    {read read' : List Value} (hread : List.Forall₂ (Sugared text file) read read')
    (hc : c.Stands text file) :
    (∃ forms forms', readForms false turns read c = .ok forms ∧
      readForms true turns read' c = .ok forms' ∧
      List.Forall₂ (Sugared text file) forms forms') ∨
    ∃ f, readForms false turns read c = .error f ∧ readForms true turns read' c = .error f := by
  induction turns generalizing c read read' with
  | zero => exact .inl ⟨_, _, rfl, rfl, List.rel_reverse hread⟩
  | succ turns ih =>
      have hskip : (skipBlanks c).Stands text file := hc.of_before (.skipBlanks c)
      have hform := readForm_rewrites hdigits maxNesting hskip
      by_cases hink : (skipBlanks c).rest = []
      · rw [readForms, readForms, Cursor.atEnd, hink]
        exact .inl ⟨_, _, rfl, rfl, List.rel_reverse hread⟩
      · rw [readForms_of_ink hink, readForms_of_ink hink]
        generalize readForm false maxNesting (skipBlanks c) = x at hform ⊢
        generalize readForm true maxNesting (skipBlanks c) = y at hform ⊢
        cases hform with
        | ok hsugared hafter => exact ih (.cons hsugared hread) hafter
        | error f => exact .inr ⟨f, rfl, rfl⟩

end Readers

end Reader

open Reader

/-- **Dot sugar rewrites atoms.**  A text in plain digits is read with dot sugar on as it is
with the sugar off, with the symbols and keywords rewritten whose tokens split at their dots;
or it is refused with the same complaint. -/
theorem read_dots {text : String} (file : String) (hdigits : PlainDigits text.toList) :
    (∃ forms forms', read text file false = .ok forms ∧ read text file true = .ok forms' ∧
      List.Forall₂ (Value.Sugared text file) forms forms') ∨
    ∃ f, read text file false = .error f ∧ read text file true = .error f :=
  readForms_rewrites hdigits .nil (Cursor.stands_start text file)

/-- Tokens that split at the top and in brackets, a numeral and a name with two dots in a row
that do not, and a stray bracket. -/
def dottedText : String :=
  "(a.nil [:k.v ...x.y] 1.5 a..b)"

/-- What is read with dot sugar off; the numeral is `1.5`. -/
def dottedForms : List Value :=
  let at_ := fun position length => some (Span.mk "sample" dottedText position length)
  [.list [.symbol "a.nil",
    .list [.symbol "List", .keyword "k.v",
      .list [.sym SpecialForm.splice.symbol, .symbol "x.y"] (at_ 13 6)] (at_ 7 13),
    .num (Float.ofBits 0x3FF8000000000000), .symbol "a..b"] (at_ 0 30)]

/-- What is read with dot sugar on. -/
def sugaredForms : List Value :=
  let at_ := fun position length => some (Span.mk "sample" dottedText position length)
  let access := fun parts source => Value.list (.sym SpecialForm.member.symbol :: parts) source
  [.list [access [.symbol "a", .nil] (at_ 1 5),
    .list [.symbol "List", access [.keyword "k", .symbol "v"] (at_ 8 4),
      .list [.sym SpecialForm.splice.symbol, access [.symbol "x", .symbol "y"] (at_ 16 3)]
        (at_ 13 6)] (at_ 7 13),
    .num (Float.ofBits 0x3FF8000000000000), .symbol "a..b"] (at_ 0 30)]

/-- Three tokens of the sample are rewritten, and the numeral and the name with two dots in a
row are not. -/
theorem read_dots_dottedText :
    PlainDigits dottedText.toList ∧
    read dottedText "sample" false = .ok dottedForms ∧
    read dottedText "sample" true = .ok sugaredForms ∧
    List.Forall₂ (Value.Sugared dottedText "sample") dottedForms sugaredForms := by
  have hplain : PlainDigits dottedText.toList := by
    have hall : (dottedText.toList.all fun c => !Text.isDecimal c || c.isDigit) = true := by rfl
    intro c hc hdecimal
    have hdigit := List.all_eq_true.mp hall c hc
    rw [hdecimal] at hdigit
    exact hdigit
  -- To compute the double that the numeral is rounded to takes the kernel.
  have hnumeral : (0x3FF8000000000000 : UInt64) =
      UInt64.ofNat (Number.Decimal.pattern ⟨15, -1⟩) := by decide +kernel
  have hoff : read dottedText "sample" false = .ok dottedForms := by
    unfold dottedForms
    rw [hnumeral]
    rfl
  have hon : read dottedText "sample" true = .ok sugaredForms := by
    unfold sugaredForms
    rw [hnumeral]
    rfl
  refine ⟨hplain, hoff, hon, ?_⟩
  rcases read_dots "sample" hplain with ⟨forms, forms', hforms, hforms', hsugared⟩ | ⟨f, hf, -⟩
  · cases hoff.symm.trans hforms
    cases hon.symm.trans hforms'
    exact hsugared
  · cases hoff.symm.trans hf

end Lisp
