import Lisp.Proofs.Reader.RoundTrip

/-!
# What the reader has read reads back

The forms that come out of a text can be printed, and what is printed can be read
again.  Two things can go wrong with that, and no others (`read_printed`):

* The segments of a dotted token are atoms, whatever they start with, so one of them
  may be a symbol that starts with a mark.  Printed on its own, such a symbol is taken
  for a mark and what it marks.
* A dotted token, a pair of square brackets and a pair of braces take up no level of
  their own when they are empty or hold atoms only, but they print as lists with a head,
  and so a level deeper.  At the limit of nesting that is a level too many.

All other forms are readable (`Value.readable`).  An atom is, because the token it comes
from is no other atom and does not split at its dots.  A row is, because a form that
ends in a bare `...` is followed by a closing bracket or the end of the text
(`Written.bare`), where the row ends, for no form can be read there (`Legible.refuses`).
-/

namespace Lisp

namespace Value

open Reader (isMarked)

mutual

/-- No symbol of the form starts with a mark, other than `...` itself. -/
def unmarked : Value → Bool
  | .sym s => s.isSplice || !isMarked s.name.toList
  | .list items _ => unmarkedItems items
  | _ => true

/-- No symbol of the forms starts with a mark. -/
def unmarkedItems : List Value → Bool
  | [] => true
  | item :: rest => unmarked item && unmarkedItems rest

end

/-- Only the last one of the forms may end in a bare `...`. -/
def bareLast : List Value → Bool
  | [] => true
  | item :: rest => (rest.isEmpty || !endsBare item) && bareLast rest

theorem unmarkedItems_iff {items : List Value} :
    unmarkedItems items = true ↔ ∀ v ∈ items, unmarked v = true := by
  induction items with
  | nil => simp [unmarkedItems]
  | cons item rest ih => simp [unmarkedItems, ih]

/-- What a readable row is. -/
theorem readableItems_iff {items : List Value} :
    readableItems items = true ↔ (∀ v ∈ items, readable v = true) ∧ bareLast items = true := by
  induction items with
  | nil => simp [readableItems, bareLast]
  | cons item rest ih =>
      simp only [readableItems, bareLast, Bool.and_eq_true, ih, List.forall_mem_cons]
      tauto

/-- Forms that do not end in a bare `...` may stand before any others. -/
theorem bareLast_append {front back : List Value} (hfront : ∀ v ∈ front, endsBare v = false)
    (hback : bareLast back = true) : bareLast (front ++ back) = true := by
  induction front with
  | nil => exact hback
  | cons v rest ih =>
      obtain ⟨hv, hrest⟩ := List.forall_mem_cons.mp hfront
      rw [List.cons_append, bareLast, hv, ih hrest]
      simp

/-- A list is readable if its elements are, as a row. -/
theorem readable_list {items : List Value} {source : Option Span}
    (h : readableItems items = true) : readable (.list items source) = true := by
  cases hspread : spreadOperand? (.list items source) with
  | none => exact (readable_row hspread).trans h
  | some operand =>
      refine (readable_spread hspread).trans (readable_of_mem h ?_)
      rw [spread_pair hspread]
      simp

/-- The marker ends in a bare `...`. -/
theorem endsBare_of_isSpliceMarker {v : Value} (h : v.isSpliceMarker = true) :
    endsBare v = true := by
  cases v with
  | sym s => exact h
  | _ => cases h

/-- A list in brackets does not end in a bare `...`. -/
theorem endsBare_list {items : List Value} {source : Option Span} (h : bareLast items = true) :
    endsBare (.list items source) = false := by
  unfold endsBare
  split
  · next heq => cases heq
  · next head operand _ heq =>
      cases heq
      cases hmarker : head.isSpliceMarker with
      | false => rfl
      | true => simp [bareLast, endsBare_of_isSpliceMarker hmarker] at h
  · rfl

end Value

namespace Reader

open Text (EndsRun endsRun_nil endsRun_cons)
open Value (readable readableItems endsBare unmarked unmarkedItems bareLast)

/-! ### Tokens -/

/-- A form that is readable unless a symbol in it starts with a mark, and does not end
in a bare `...`. -/
structure Sound (v : Value) : Prop where
  readable : unmarked v = true → readable v = true
  closed : endsBare v = false

/-- A list in brackets is sound if the forms in it are a row of readable ones. -/
theorem Sound.of_items {items : List Value} {source : Option Span}
    (hreadable : ∀ v ∈ items, unmarked v = true → Value.readable v = true)
    (hbare : bareLast items = true) : Sound (.list items source) where
  readable hmarks := by
    rw [unmarked] at hmarks
    have hitems := Value.unmarkedItems_iff.mp hmarks
    exact Value.readable_list
      (Value.readableItems_iff.mpr ⟨fun v hv => hreadable v hv (hitems v hv), hbare⟩)
  closed := Value.endsBare_list hbare

/-- Forms that are sound may stand in any row. -/
theorem bareLast_of_sound {items : List Value} (h : ∀ v ∈ items, Sound v) :
    bareLast items = true := by
  have hbare : bareLast (items ++ []) = true :=
    Value.bareLast_append (fun v hv => (h v hv).closed) rfl
  rwa [List.append_nil] at hbare

/-- A symbol whose token nothing else claims. -/
theorem symbol_sound {token : List Char} (hne : token ≠ [])
    (hrun : ∀ c ∈ token, isTokenChar c = true) (hdots : dotSegments? token = none)
    (hspread : token ≠ ['.', '.', '.']) (hconstant : String.ofList token ∉ constantNames)
    (hcolon : ∀ name, token ≠ ':' :: name)
    (hparse : Number.Numeral.parse? Text.isDecimal token = none) :
    Sound (.symbol (String.ofList token)) := by
  have hsplice : (Symbol.intern (String.ofList token)).isSplice = false := by
    refine Bool.eq_false_iff.mpr fun heq => hspread ?_
    have hname := congrArg Symbol.name (eq_of_beq heq)
    exact String.ofList_injective hname
  have hhead : token.head? ≠ some ':' := by
    cases token with
    | nil => nofun
    | cons c cs => exact fun heq => hcolon cs (by rw [Option.some.inj heq])
  have hnumeral : Number.isNumeral token = false := by
    rw [Number.isNumeral, hparse]
    rfl
  refine ⟨fun hmarks => ?_, hsplice⟩
  rw [Value.symbol, unmarked, hsplice, Bool.false_or, Symbol.intern, String.toList_ofList] at hmarks
  have hname : Value.isSymbolName token = true := by
    simpa [Value.isSymbolName, hne, hmarks, hconstant, hhead, hnumeral, hdots] using hrun
  rw [Value.symbol, Value.readable, Symbol.intern, String.toList_ofList, hname, Bool.or_true]
  rfl

/-- The atom that a token denotes is denoted by no other kind of token. -/
theorem atom_sound {token : List Char} {at_ : Span} {v : Value} (hne : token ≠ [])
    (hrun : ∀ c ∈ token, isTokenChar c = true) (hdots : dotSegments? token = none)
    (hspread : token ≠ ['.', '.', '.']) (h : atom token at_ = .ok v) : Sound v := by
  by_cases hconstant : String.ofList token ∈ constantNames
  · simp only [constantNames, List.mem_cons, List.not_mem_nil, or_false] at hconstant
    unfold atom at h
    rcases hconstant with heq | heq | heq | heq | heq | heq
    all_goals
      rw [heq] at h
      cases h
      exact ⟨fun _ => rfl, rfl⟩
  · rw [atom_of_not_constant token at_ hconstant] at h
    split at h
    · next name =>
        cases h
        refine ⟨fun _ => ?_, rfl⟩
        have hname := (List.forall_mem_cons.mp hrun).2
        simp only [Value.readable, Value.isKeywordName, String.toList_ofList, Bool.and_eq_true,
          List.all_eq_true, hdots]
        exact ⟨hname, rfl⟩
    · next hcolon =>
        split at h
        · next hparse =>
            cases h
            exact symbol_sound hne hrun hdots hspread hconstant hcolon hparse
        · split at h
          · cases h
            exact ⟨fun _ => rfl, rfl⟩
          · cases h

/-- The atoms of segments. -/
theorem atoms_sound {segments : List (List Char)} {at_ : Span} {parts : List Value}
    (hsegments : ∀ segment ∈ segments, segment ≠ [] ∧ '.' ∉ segment ∧
      ∀ c ∈ segment, isTokenChar c = true)
    (h : List.Forall₂ (fun segment v => atom segment at_ = .ok v) segments parts) :
    ∀ v ∈ parts, Sound v := by
  induction h with
  | nil => nofun
  | @cons segment v segments parts hatom _ ih =>
      obtain ⟨⟨hne, hplain, hchars⟩, hrest⟩ := List.forall_mem_cons.mp hsegments
      refine List.forall_mem_cons.mpr ⟨?_, ih hrest⟩
      refine atom_sound hne hchars (dotSegments?_of_not_mem hplain) ?_ hatom
      rintro rfl
      exact hplain (by simp)

/-- A token other than `...` denotes a sound form. -/
theorem classify_sound {token : List Char} {at_ : Span} {v : Value} (hne : token ≠ [])
    (hrun : ∀ c ∈ token, isTokenChar c = true) (hspread : token ≠ ['.', '.', '.'])
    (h : classify true token at_ = .ok v) : Sound v := by
  rcases classify_eq_ok h with ⟨hdots, hatom⟩ | ⟨segments, parts, hdots, hparts, rfl⟩
  · exact atom_sound hne hrun (hdots rfl) hspread hatom
  · obtain ⟨hsplits, -⟩ := dotSegments?_eq_some.mp hdots
    have hsegments : ∀ segment ∈ segments, segment ≠ [] ∧ '.' ∉ segment ∧
        ∀ c ∈ segment, isTokenChar c = true := by
      intro segment hsegment
      exact ⟨hsplits.nonempty segment hsegment, hsplits.undotted segment hsegment,
        fun c hc => hrun c (hsplits.mem hsegment hc)⟩
    have hitems : ∀ v ∈ .sym SpecialForm.member.symbol :: parts, Sound v :=
      List.forall_mem_cons.mpr ⟨⟨fun _ => rfl, rfl⟩, atoms_sound hsegments hparts⟩
    exact .of_items (fun v hv => (hitems v hv).readable) (bareLast_of_sound hitems)

/-- A token that does not start with `...` is a sound form. -/
theorem readToken_sound {c after : Cursor} {v : Value} (hopening : opening c.rest = .token)
    (h : readToken true c = .ok (v, after)) : Sound v := by
  obtain ⟨span, hscan, hclass⟩ := readToken_eq_ok h
  refine classify_sound ?_ (fun _ hd => List.mem_takeWhile_imp hd) ?_ hclass
  · intro hnone
    rw [Cursor.scanRun, hnone] at hscan
    cases hscan
  · intro hbare
    obtain ⟨tail, htail⟩ := List.takeWhile_prefix (l := c.rest) isTokenChar
    rw [hbare] at htail
    rw [← htail] at hopening
    cases hopening

/-- There is no token where no character of one stands. -/
theorem readToken_refuses {c after : Cursor} {v : Value} {next : Char} {tail : List Char}
    (hrest : c.rest = next :: tail) (hnext : isTokenChar next = false) :
    readToken true c ≠ .ok (v, after) := by
  intro h
  obtain ⟨span, hscan, -⟩ := readToken_eq_ok h
  rw [Cursor.scanRun, hrest, List.takeWhile_cons, hnext] at hscan
  cases hscan

/-! ### Forms -/

/-- What was read up to a cursor: a form that is readable unless a symbol in it starts
with a mark, and one that ends in a bare `...` only where nothing can be spread. -/
structure Written (v : Value) (after : Cursor) : Prop where
  readable : unmarked v = true → readable v = true
  bare : endsBare v = true → EndsRun (fun c => !isCloser c) (skipBlanks after).rest

/-- A sound form may be followed by anything. -/
theorem Sound.written {v : Value} (h : Sound v) (after : Cursor) : Written v after where
  readable := h.readable
  bare hbare := by
    rw [h.closed] at hbare
    cases hbare

/-- A reader of forms whose results can be printed, and which reads nothing where a row
ends. -/
structure Legible (nested : Cursor → Result Value) : Prop where
  written : ∀ {c after v}, nested c = .ok (v, after) → Written v after
  refuses : ∀ {c result}, EndsRun (fun c => !isCloser c) c.rest → nested c ≠ .ok result

section Nested

variable {nested : Cursor → Result Value} (hnested : Legible nested)
include hnested

/-- A row ends with a form that ends in a bare `...`. -/
theorem Row.written {c stop : Cursor} {forms : List Value} (h : Row nested c forms stop) :
    (∀ v ∈ forms, unmarked v = true → readable v = true) ∧ bareLast forms = true := by
  induction h with
  | stop => exact ⟨nofun, rfl⟩
  | @form c middle stop v forms hform hforms ih =>
      obtain ⟨hreadable, hbare⟩ := hnested.written hform
      refine ⟨List.forall_mem_cons.mpr ⟨hreadable, ih.1⟩, ?_⟩
      rw [bareLast, ih.2, Bool.and_true]
      cases hends : endsBare v with
      | false => exact Bool.or_true _
      | true =>
          cases hforms with
          | stop => rfl
          | form hnext _ => exact absurd hnext (hnested.refuses (hbare hends))

/-- A list in brackets, under a head of its own or none. -/
theorem Row.list_sound {c stop : Cursor} {head forms : List Value} {source : Option Span}
    (hhead : ∀ v ∈ head, Sound v) (h : Row nested c forms stop) :
    Sound (.list (head ++ forms) source) := by
  obtain ⟨hreadable, hbare⟩ := h.written hnested
  refine .of_items ?_ (Value.bareLast_append (fun v hv => (hhead v hv).closed) hbare)
  exact List.forall_mem_append.mpr ⟨fun v hv => (hhead v hv).readable, hreadable⟩

/-- A form that stands after its mark. -/
theorem wrapped_sound {form : SpecialForm} {c after : Cursor} {inner : Value}
    {source : Option Span} (hform : form ≠ .splice) (hinner : nested c = .ok (inner, after)) :
    Sound (.list [.sym form.symbol, inner] source) := by
  have hhead : Sound (.sym form.symbol) := by
    cases form <;> first | exact ⟨fun _ => rfl, rfl⟩ | exact absurd rfl hform
  refine .of_items ?_ (Value.bareLast_append (List.forall_mem_singleton.mpr hhead.closed) rfl)
  exact List.forall_mem_cons.mpr ⟨hhead.readable, List.forall_mem_singleton.mpr
    (hnested.written hinner).readable⟩

/-- A spread ends as the form that it spreads. -/
theorem spread_written {c after : Cursor} {inner : Value} {source : Option Span}
    (hinner : nested c = .ok (inner, after)) :
    Written (.list [.sym SpecialForm.splice.symbol, inner] source) after := by
  obtain ⟨hreadable, hbare⟩ := hnested.written hinner
  have hspread : Value.spreadOperand? (.list [.sym SpecialForm.splice.symbol, inner] source) =
      some inner := rfl
  constructor
  · intro hmarks
    rw [unmarked] at hmarks
    rw [Value.readable_spread hspread]
    exact hreadable (Value.unmarkedItems_iff.mp hmarks inner (by simp))
  · intro hends
    exact hbare ((Value.endsBare_spread hspread).symm.trans hends)

omit hnested in
/-- A bare `...` is read only where nothing can be spread. -/
theorem splice_written {after : Cursor} (h : EndsRun (fun c => !isCloser c) after.rest) :
    Written (.sym SpecialForm.splice.symbol) after where
  readable _ := rfl
  bare _ := by
    rw [skipBlanks_eq_self (endsRun_isGap_of_closed h)]
    exact h

/-- A reader of nested forms makes a reader of forms. -/
theorem readNested_legible : Legible (readNested nested true) where
  written {c after v} h := by
    cases readNested_production h with
    | @list close head forms stop tail hopening hrow _ =>
        have hhead : ∀ v ∈ head.reverse, Sound v := by
          rcases head_of_opening hopening with rfl | rfl | rfl
          · nofun
          · exact List.forall_mem_singleton.mpr ⟨fun _ => rfl, rfl⟩
          · exact List.forall_mem_singleton.mpr ⟨fun _ => rfl, rfl⟩
        exact (hrow.list_sound hnested hhead).written _
    | wrapped hopening hinner =>
        exact (wrapped_sound hnested (form_of_opening hopening) hinner).written after
    | spread _ hinner => exact spread_written hnested hinner
    | bare _ hend => exact splice_written hend
    | text => exact Sound.written ⟨fun _ => rfl, rfl⟩ after
    | token hopening htoken => exact (readToken_sound hopening htoken).written after
  refuses {c result} hclosed h := by
    rw [readNested_eq, skipBlanks_eq_self (endsRun_isGap_of_closed hclosed)] at h
    cases hrest : c.rest with
    | nil =>
        rw [hrest] at h
        cases h
    | cons next tail =>
        have hcloser : isCloser next = true := by
          simpa using hclosed next (by rw [hrest]; rfl)
        rw [hrest] at h
        simp only [isCloser, Bool.or_eq_true, decide_eq_true_eq] at hcloser
        -- no closing bracket is an opening one or a mark, so a token is looked for
        rcases hcloser with (rfl | rfl) | rfl <;> exact readToken_refuses hrest rfl h

end Nested

/-- The reader of forms is legible at every depth. -/
theorem readForm_legible (levels : Nat) : Legible (readForm true levels) := by
  induction levels with
  | zero => exact ⟨nofun, nofun⟩
  | succ levels ih => exact readNested_legible ih

/-- **Reading, printing and reading again.**  The forms of a text, printed and joined by
blanks, are read as forms equal to them, unless a symbol among them starts with a mark or
one of them is nested deeper than it was read. -/
theorem read_printed (h : Heap) (file : String) {text file' : String} {forms : List Value}
    (hread : read text file true = .ok forms) (hmarks : unmarkedItems forms = true)
    (hnesting : ∀ v ∈ forms, v.nesting ≤ maxNesting) :
    ∃ forms', read (" ".intercalate (forms.map (Value.print h))) file' true = .ok forms' ∧
      Value.sameItems forms' forms = true := by
  obtain ⟨others, stop, hrow, hforms⟩ := row_of_readForms hread
  obtain rfl : forms = others := hforms
  obtain ⟨hreadable, hbare⟩ := hrow.written (readForm_legible maxNesting)
  have hmarked := Value.unmarkedItems_iff.mp hmarks
  have hall : ∀ v ∈ forms, readable v = true := fun v hv => hreadable v hv (hmarked v hv)
  exact read_of_reads h file' (fun v hv => reads_readable h (hall v hv) (hnesting v hv))
    (Value.readableItems_iff.mpr ⟨hall, hbare⟩)

/-- A call with a dotted token, brackets of three kinds, marks, a spread, a bare `...` and a
comment. -/
def sampleText : String :=
  "(f a.1.b [] '\x7b:k \"s\"\x7d ...xs ...) ; done"

/-- The sample reads back. -/
theorem read_printed_sample :
    ∃ forms, read sampleText "sample" true = .ok forms ∧ unmarkedItems forms = true ∧
      (∀ v ∈ forms, v.nesting ≤ maxNesting) ∧
      ∃ forms', read (" ".intercalate (forms.map (Value.print {}))) "sample" true = .ok forms' ∧
        Value.sameItems forms' forms = true := by
  have hsample : ((read sampleText "sample" true).toOption.any fun forms =>
      unmarkedItems forms && forms.all (·.nesting ≤ maxNesting)) = true := by
    decide +kernel
  cases hread : read sampleText "sample" true with
  | error f =>
      rw [hread] at hsample
      cases hsample
  | ok forms =>
      rw [hread] at hsample
      obtain ⟨hmarks, hall⟩ := Bool.and_eq_true_iff.mp hsample
      have hnesting : ∀ v ∈ forms, v.nesting ≤ maxNesting := by
        simpa using hall
      exact ⟨forms, rfl, hmarks, hnesting, read_printed {} "sample" hread hmarks hnesting⟩

/-- A segment that starts with a mark is printed as that mark. -/
example :
    ∃ v w, read "a.'b" "sample" true = .ok [v] ∧ v.print {} = "(. a 'b)" ∧
      read (v.print {}) "sample" true = .ok [w] ∧ w.same v = false :=
  ⟨_, _, rfl, by decide, by cbv, by decide⟩

/-- A dotted token takes up one level, and its text two. -/
example :
    (readForm true 1 (.start "a.b" "sample")).isOk = true ∧
      (readForm true 1 (.start "(. a b)" "sample")).isOk = false :=
  ⟨rfl, rfl⟩

end Reader

end Lisp
