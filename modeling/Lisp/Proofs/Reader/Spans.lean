import Lisp.Proofs.Reader.Cut

/-!
# What the spans of lists cover

Every list that the reader makes remembers the span it was read from.  These spans tell
the truth about the text (`read_spans`): a span starts and ends between characters of
the text, its image is read as the one list that it belongs to, the spans of the
elements of a list lie inside the span of the list, and they are disjoint and in order.

A span reaches from the first character of a form to the cursor behind it, whichever
way the form was put together (`Located`).  So the spans of a row are in order because
each form is read where the one before it ended (`Row.inOrder`), and the image of a span
is what `readForm_cuts` is about: the text up to the end of the form, cut off there.
-/

namespace Lisp

open Text (byteLength byteLength_append takeBytes_byteLength dropBytes_byteLength)

namespace Value

/-- The span that a list was read from. -/
def source? : Value → Option Span
  | .list _ source => source
  | _ => none

/-- The value is a list. -/
def IsList (v : Value) : Prop :=
  ∃ items source, v = .list items source

/-- Only lists have a span. -/
theorem isList_of_source? {v : Value} {s : Span} (h : v.source? = some s) : v.IsList := by
  cases v with
  | list items source => exact ⟨items, source, rfl⟩
  | _ => cases h

/-- The first value is the second one or stands in it, at whatever depth. -/
inductive Within : Value → Value → Prop
  | self (v : Value) : Within v v
  | item {v item : Value} {items : List Value} {source : Option Span} (hitem : item ∈ items)
      (h : Within v item) : Within v (.list items source)

/-- A list stands in lists only. -/
theorem Within.isList {items : List Value} {source : Option Span} {v : Value}
    (h : (Value.list items source).Within v) : v.IsList := by
  cases h with
  | self => exact ⟨items, source, rfl⟩
  | item _ _ => exact ⟨_, _, rfl⟩

/-- The spans of the values are disjoint, and in the order of the values. -/
def InOrder (values : List Value) : Prop :=
  values.Pairwise fun a b => ∀ s t, a.source? = some s → b.source? = some t → s.stop ≤ t.position

/-- Values that are no lists do not disturb the order. -/
theorem InOrder.append {atoms forms : List Value} (hatoms : ∀ v ∈ atoms, ¬ v.IsList)
    (h : InOrder forms) : InOrder (atoms ++ forms) := by
  induction atoms with
  | nil => exact h
  | cons atom atoms ih =>
      obtain ⟨hatom, hatoms⟩ := List.forall_mem_cons.mp hatoms
      exact .cons (fun _ _ s _ hs => absurd (isList_of_source? hs) hatom) (ih hatoms)

end Value

/-- The span tells the truth about a list of the elements that was read from the text. -/
structure Span.Faithful (text file : String) (dots : Bool) (items : List Value) (s : Span) :
    Prop where
  inFile : s.file = file
  inText : s.text = text
  /-- It starts and ends at boundaries between characters of the text. -/
  boundaries : ∃ before after, text.toList = before ++ s.image.toList ++ after ∧
    s.position = byteLength before ∧ s.length = byteLength s.image.toList
  /-- Its image is read as one form, which is the list. -/
  rereads : ∀ name, ∃ form, read s.image name dots = .ok [form] ∧
    form.same (.list items (some s)) = true
  /-- It encloses the spans of the elements. -/
  encloses : ∀ item ∈ items, ∀ t, item.source? = some t →
    s.position ≤ t.position ∧ t.stop ≤ s.stop
  inOrder : Value.InOrder items

namespace Cursor

/-- The second cursor is the first one moved over the characters. -/
structure Passes (c : Cursor) (passed : List Char) (d : Cursor) : Prop where
  file : d.file = c.file
  text : d.text = c.text
  position : d.position = c.position + byteLength passed
  rest : c.rest = passed ++ d.rest

/-- The second cursor is the first one moved on. -/
def Before (c d : Cursor) : Prop :=
  ∃ passed, c.Passes passed d

namespace Before

variable {c d e : Cursor}

theorem refl (c : Cursor) : c.Before c :=
  ⟨[], rfl, rfl, rfl, rfl⟩

theorem trans (hcd : c.Before d) (hde : d.Before e) : c.Before e := by
  obtain ⟨passed, hcd⟩ := hcd
  obtain ⟨more, hde⟩ := hde
  refine ⟨passed ++ more, hde.file.trans hcd.file, hde.text.trans hcd.text, ?_, ?_⟩
  · rw [hde.position, hcd.position, byteLength_append, Nat.add_assoc]
  · rw [hcd.rest, hde.rest, List.append_assoc]

theorem advance (c : Cursor) (n : Nat) : c.Before (c.advance n) :=
  ⟨c.rest.take n, rfl, rfl, rfl, (List.take_append_drop n c.rest).symm⟩

theorem skipBlanks (c : Cursor) : c.Before (Reader.skipBlanks c) :=
  advance c _

theorem position_le (h : c.Before d) : c.position ≤ d.position := by
  obtain ⟨passed, h⟩ := h
  rw [h.position]
  exact Nat.le_add_right _ _

/-- The span between the two ends at the second. -/
theorem stop_spanTo (h : c.Before d) : (c.spanTo d).stop = d.position :=
  Nat.add_sub_cancel' h.position_le

end Before

/-- The cursor stands in the text, between two characters of it. -/
structure Stands (c : Cursor) (text file : String) : Prop where
  inFile : c.file = file
  inText : c.text = text
  place : ∃ before, text.toList = before ++ c.rest ∧ c.position = byteLength before

variable {c d : Cursor} {text file : String}

theorem stands_start (text file : String) : (start text file).Stands text file :=
  ⟨rfl, rfl, [], rfl, rfl⟩

/-- A cursor that is moved on stands in the same text. -/
theorem Stands.of_before (h : c.Stands text file) (hcd : c.Before d) : d.Stands text file := by
  obtain ⟨passed, hcd⟩ := hcd
  obtain ⟨before, htext, hposition⟩ := h.place
  refine ⟨hcd.file.trans h.inFile, hcd.text.trans h.inText, before ++ passed, ?_, ?_⟩
  · rw [htext, hcd.rest, List.append_assoc]
  · rw [hcd.position, hposition, byteLength_append]

/-- The span between two cursors, and its image. -/
theorem Stands.spanTo (h : c.Stands text file) {passed : List Char} (hcd : c.Passes passed d) :
    ∃ before, text.toList = before ++ passed ++ d.rest ∧ (c.spanTo d).position = byteLength before ∧
      (c.spanTo d).length = byteLength passed ∧ (c.spanTo d).image = String.ofList passed := by
  obtain ⟨before, htext, hposition⟩ := h.place
  have hlength : (c.spanTo d).length = byteLength passed := by
    show d.position - c.position = byteLength passed
    rw [hcd.position, Nat.add_sub_cancel_left]
  refine ⟨before, ?_, hposition, hlength, ?_⟩
  · rw [htext, hcd.rest, List.append_assoc]
  · unfold Span.image
    have hdrop : Text.dropBytes c.position c.text.toList = passed ++ d.rest := by
      rw [h.inText, htext, hposition, dropBytes_byteLength, hcd.rest]
    rw [hlength]
    show String.ofList (Text.takeBytes _ (Text.dropBytes c.position c.text.toList)) = _
    rw [hdrop, takeBytes_byteLength]

end Cursor

namespace Reader

/-! ### Where forms are -/

/-- The first blank that is skipped is the last. -/
theorem blankLength_drop (inComment : Bool) (cs : List Char) :
    blankLength false (cs.drop (blankLength inComment cs)) = 0 := by
  induction cs generalizing inComment with
  | nil => rfl
  | cons c cs ih =>
      rcases blankLength_cons inComment c with ⟨inside, hmore⟩ | hnone
      · rw [hmore, List.drop_succ_cons]
        exact ih inside
      · cases inComment with
        | true => cases hnone []
        | false =>
            rw [hnone]
            exact hnone cs

/-- There are no blanks left to skip. -/
theorem skipBlanks_skipBlanks (c : Cursor) : skipBlanks (skipBlanks c) = skipBlanks c := by
  have hnone : blankLength false (skipBlanks c).rest = 0 := blankLength_drop false c.rest
  rw [skipBlanks, hnone]
  rfl

/-- A form is read from its first character to the cursor behind it, and if it is a list,
its span says so. -/
structure Located (reader : Cursor → Result Value) (c : Cursor) (v : Value) (after : Cursor) :
    Prop where
  /-- The blanks before the form may as well have been skipped. -/
  skipped : reader (skipBlanks c) = .ok (v, after)
  before : (skipBlanks c).Before after
  source : v.IsList → v.source? = some ((skipBlanks c).spanTo after)

/-- All forms that are read are located. -/
def Locates (reader : Cursor → Result Value) : Prop :=
  ∀ {c v after}, reader c = .ok (v, after) → Located reader c v after

/-- An atom is no list. -/
theorem not_isList_of_atom {token : List Char} {at_ : Span} {v : Value}
    (h : atom token at_ = .ok v) : ¬ v.IsList := by
  rintro ⟨items, source, rfl⟩
  unfold atom at h
  repeat' split at h
  all_goals cases h

/-- Neither are the parts of a dotted token. -/
theorem not_isList_of_atoms {segments : List (List Char)} {at_ : Span} {parts : List Value}
    (h : List.Forall₂ (fun segment v => atom segment at_ = .ok v) segments parts) :
    ∀ part ∈ parts, ¬ Value.IsList part := by
  induction h with
  | nil => exact nofun
  | cons hatom _ ih => exact List.forall_mem_cons.mpr ⟨not_isList_of_atom hatom, ih⟩

/-- A text literal ends behind its first character. -/
theorem before_of_readText {c after : Cursor} {v : Value} (h : readText c = .ok (v, after)) :
    c.Before after := by
  obtain ⟨n, _, -, -, -, rfl⟩ := readText_eq_ok h
  exact .advance c (n + 1)

/-- A token ends behind its first character, and a dotted one spans all of its
characters. -/
theorem readToken_spans {dots : Bool} {c after : Cursor} {v : Value}
    (h : readToken dots c = .ok (v, after)) :
    c.Before after ∧
      (¬ v.IsList ∨ ∃ parts, (∀ part ∈ parts, ¬ Value.IsList part) ∧
        v = .list parts (some (c.spanTo after))) := by
  obtain ⟨span, hscan, hclassify⟩ := readToken_eq_ok h
  unfold Cursor.scanRun at hscan
  split at hscan
  · cases hscan
  · cases hscan
    refine ⟨.advance c _, ?_⟩
    rcases classify_eq_ok hclassify with ⟨-, hatom⟩ | ⟨segments, parts, -, hparts, rfl⟩
    · exact .inl (not_isList_of_atom hatom)
    · have hmember : ¬ (Value.sym SpecialForm.member.symbol).IsList := nofun
      exact .inr ⟨_, List.forall_mem_cons.mpr ⟨hmember, not_isList_of_atoms hparts⟩, rfl⟩

section Nested

variable {nested : Cursor → Result Value} {c stop after : Cursor} {v : Value}

/-- The cursor goes on over a form. -/
theorem Located.onward (h : Located nested c v after) : c.Before after :=
  (Cursor.Before.skipBlanks c).trans h.before

/-- A row of forms goes on. -/
theorem Row.before (hnested : Locates nested) {forms : List Value}
    (h : Row nested c forms stop) : c.Before stop := by
  induction h with
  | stop c => exact .refl c
  | form hform _ ih => exact ((Cursor.Before.skipBlanks _).trans (hnested hform).onward).trans ih

/-- Every form of a row is read inside it. -/
theorem Row.exists_read (hnested : Locates nested) {forms : List Value}
    (h : Row nested c forms stop) (hv : v ∈ forms) :
    ∃ d middle, c.Before d ∧ nested d = .ok (v, middle) ∧ middle.Before stop := by
  induction h with
  | stop c => cases hv
  | form hform hforms ih =>
      rcases List.mem_cons.mp hv with rfl | hv
      · exact ⟨_, _, .skipBlanks _, hform, hforms.before hnested⟩
      · obtain ⟨d, middle, hd, hread, hmiddle⟩ := ih hv
        have hfirst := (Cursor.Before.skipBlanks _).trans (hnested hform).onward
        exact ⟨d, middle, hfirst.trans hd, hread, hmiddle⟩

/-- The span of a form goes from the cursor to where the form ends. -/
theorem Located.of_source? (h : Located nested c v after) {s : Span} (hs : v.source? = some s) :
    c.position ≤ s.position ∧ s.stop = after.position := by
  cases hs.symm.trans (h.source (Value.isList_of_source? hs))
  exact ⟨(Cursor.Before.skipBlanks c).position_le, h.before.stop_spanTo⟩

/-- The spans in a row are inside it. -/
theorem Row.encloses (hnested : Locates nested) {forms : List Value}
    (h : Row nested c forms stop) (hv : v ∈ forms) {s : Span} (hs : v.source? = some s) :
    c.position ≤ s.position ∧ s.stop ≤ stop.position := by
  obtain ⟨d, middle, hd, hread, hmiddle⟩ := h.exists_read hnested hv
  obtain ⟨hposition, hstop⟩ := (hnested hread).of_source? hs
  exact ⟨Nat.le_trans hd.position_le hposition, hstop ▸ hmiddle.position_le⟩

/-- The spans in a row are in order, since each form is read where the one before it
ended. -/
theorem Row.inOrder (hnested : Locates nested) {forms : List Value}
    (h : Row nested c forms stop) : Value.InOrder forms := by
  induction h with
  | stop c => exact .nil
  | form hform hforms ih =>
      refine .cons (fun other hother s t hs ht => ?_) ih
      rw [((hnested hform).of_source? hs).2]
      exact (hforms.encloses hnested hother ht).1

/-- A list is made of symbols that its opening stands for and of a row of forms between
its ends; the parts of a dotted token are atoms altogether. -/
theorem Production.parts (hnested : Locates nested) {dots : Bool} {items : List Value}
    {source : Option Span} (h : Production nested dots c (.list items source) after) :
    ∃ atoms forms start stop, items = atoms ++ forms ∧ (∀ v ∈ atoms, ¬ Value.IsList v) ∧
      c.Before start ∧ Row nested start forms stop ∧ stop.Before after := by
  cases h with
  | list hopening hrow hclose =>
      have hafter {d : Cursor} : d.Before ((skipBlanks d).advance 1) :=
        (Cursor.Before.skipBlanks d).trans (.advance _ 1)
      refine ⟨_, _, _, _, rfl, ?_, .advance c 1, hrow, hafter⟩
      rcases head_of_opening hopening with rfl | rfl | rfl
      · exact nofun
      · exact List.forall_mem_singleton.mpr nofun
      · exact List.forall_mem_singleton.mpr nofun
  | wrapped hopening hinner =>
      exact ⟨[_], [_], _, _, rfl, List.forall_mem_singleton.mpr nofun, .advance c _,
        .form (hnested hinner).skipped (.stop _), .refl _⟩
  | spread hopening hinner =>
      exact ⟨[_], [_], _, _, rfl, List.forall_mem_singleton.mpr nofun, .advance c 3,
        .form hinner (.stop _), .refl _⟩
  | token hopening htoken =>
      obtain ⟨hbefore, hnone | ⟨parts, hparts, heq⟩⟩ := readToken_spans htoken
      · exact absurd ⟨items, source, rfl⟩ hnone
      · cases heq
        exact ⟨items, [], c, c, (List.append_nil _).symm, hparts, .refl c, .stop c, hbefore⟩

/-- Forms are located if the forms nested in them are. -/
theorem readNested_locates (hnested : Locates nested) (dots : Bool) :
    Locates (readNested nested dots) := by
  intro c v after h
  have hproduction := readNested_production h
  refine ⟨?_, ?_, ?_⟩
  · rw [readNested_eq] at h ⊢
    rw [skipBlanks_skipBlanks]
    exact h
  · generalize skipBlanks c = d at hproduction ⊢
    cases hproduction with
    | list hopening hrow hclose =>
        exact ((Cursor.Before.advance d 1).trans (hrow.before hnested)).trans
          ((Cursor.Before.skipBlanks _).trans (.advance _ 1))
    | wrapped hopening hinner =>
        exact (Cursor.Before.advance d _).trans (hnested hinner).onward
    | spread hopening hinner =>
        exact ((Cursor.Before.advance d 3).trans (.skipBlanks _)).trans (hnested hinner).onward
    | bare hopening hend => exact (Cursor.Before.advance d 3).trans (.skipBlanks _)
    | text hopening htext => exact before_of_readText htext
    | token hopening htoken => exact (readToken_spans htoken).1
  · generalize skipBlanks c = d at hproduction ⊢
    rintro ⟨items, source, rfl⟩
    cases hproduction with
    | list hopening hrow hclose => rfl
    | wrapped hopening hinner => rfl
    | spread hopening hinner => rfl
    | token hopening htoken =>
        obtain ⟨-, hnone | ⟨parts, -, heq⟩⟩ := readToken_spans htoken
        · exact absurd ⟨items, source, rfl⟩ hnone
        · cases heq
          rfl

end Nested

/-- The forms of the reader are located. -/
theorem readForm_locates (dots : Bool) (levels : Nat) : Locates (readForm dots levels) := by
  induction levels with
  | zero => exact nofun
  | succ levels ih => exact readNested_locates ih dots

/-! ### Reading the image of a span -/

section Images

variable {text file : String} {dots : Bool} {levels : Nat} {c after : Cursor} {v : Value}

/-- The image of a form is read as the form. -/
theorem read_image (hlevels : levels ≤ maxNesting) (hc : c.Stands text file)
    (h : readForm dots levels c = .ok (v, after)) (name : String) :
    ∃ form, read ((skipBlanks c).spanTo after).image name dots = .ok [form] ∧
      form.same v = true := by
  have hlocated := readForm_locates dots levels h
  obtain ⟨passed, hpassed⟩ := hlocated.before
  obtain ⟨-, -, -, -, himage⟩ := (hc.of_before (.skipBlanks c)).spanTo hpassed
  have hcut : (skipBlanks c).rest =
      (Cursor.start (String.ofList passed) name).rest ++ after.rest := by
    rw [hpassed.rest, Cursor.start, String.toList_ofList]
  obtain ⟨form, end_, hform, hend, hsame⟩ :=
    readForm_cuts dots hlevels hlocated.skipped hcut (Nat.le_refl _)
  have hnone : end_.rest = [] := List.self_eq_append_left.mp hend
  have hskipped := (readForm_locates dots maxNesting hform).skipped
  have hink : (skipBlanks (Cursor.start (String.ofList passed) name)).rest ≠ [] := by
    intro hblank
    rw [maxNesting, readForm, readNested_eq, skipBlanks_skipBlanks, hblank] at hskipped
    cases hskipped
  refine ⟨form, ?_, hsame⟩
  rw [himage, read, readForms_of_ink hink, hskipped]
  exact readForms_of_end hnone

/-- The span of a list tells the truth. -/
theorem readForm_span (hlevels : levels ≤ maxNesting) (hc : c.Stands text file)
    {items : List Value} {source : Option Span}
    (h : readForm dots levels c = .ok (.list items source, after)) :
    ∃ s, source = some s ∧ s.Faithful text file dots items := by
  cases levels with
  | zero => cases h
  | succ levels =>
      have hlocates : Locates (readForm dots levels) := readForm_locates dots levels
      have hlocated := readForm_locates dots (levels + 1) h
      have hsource : source = some ((skipBlanks c).spanTo after) := hlocated.source ⟨_, _, rfl⟩
      have hstands := hc.of_before (.skipBlanks c)
      obtain ⟨passed, hpassed⟩ := hlocated.before
      obtain ⟨front, htext, hposition, hlength, himage⟩ := hstands.spanTo hpassed
      obtain ⟨atoms, forms, start, stop, rfl, hatoms, hstart, hrow, hstop⟩ :=
        (readNested_production h).parts hlocates
      refine ⟨_, hsource, hstands.inFile, hstands.inText, ?_, ?_, ?_, ?_⟩
      · refine ⟨front, after.rest, ?_, hposition, ?_⟩
        · rw [himage, String.toList_ofList, htext]
        · rw [himage, String.toList_ofList, hlength]
      · intro name
        obtain ⟨form, hread, hsame⟩ := read_image hlevels hc h name
        rw [hsource] at hsame
        exact ⟨form, hread, hsame⟩
      · intro item hitem t ht
        have hform : item ∈ forms := (List.mem_append.mp hitem).resolve_left fun hatom =>
          hatoms item hatom (Value.isList_of_source? ht)
        obtain ⟨hfirst, hlast⟩ := hrow.encloses hlocates hform ht
        rw [hlocated.before.stop_spanTo]
        exact ⟨Nat.le_trans hstart.position_le hfirst, Nat.le_trans hlast hstop.position_le⟩
      · exact .append hatoms (hrow.inOrder hlocates)

/-- So do the spans of all lists in a form, which were read at other cursors of the same
text. -/
theorem readForm_faithful (hlevels : levels ≤ maxNesting) (hc : c.Stands text file)
    (h : readForm dots levels c = .ok (v, after)) {items : List Value} {source : Option Span}
    (hwithin : (Value.list items source).Within v) :
    ∃ s, source = some s ∧ s.Faithful text file dots items := by
  induction levels generalizing c v after with
  | zero => cases h
  | succ levels ih =>
      cases hwithin with
      | self => exact readForm_span hlevels hc h
      | item hitem hinner =>
          have hlocates : Locates (readForm dots levels) := readForm_locates dots levels
          obtain ⟨atoms, forms, start, stop, rfl, hatoms, hstart, hrow, -⟩ :=
            (readNested_production h).parts hlocates
          have hform := (List.mem_append.mp hitem).resolve_left fun hatom =>
            hatoms _ hatom hinner.isList
          obtain ⟨d, middle, hd, hread, -⟩ := hrow.exists_read hlocates hform
          have hstands := hc.of_before (((Cursor.Before.skipBlanks c).trans hstart).trans hd)
          exact ih (Nat.le_of_succ_le hlevels) hstands hread hinner

end Images

end Reader

open Reader (row_of_readForms readForm_locates readForm_faithful)

/-- **Spans tell the truth.**  In the forms of every text that the reader accepts, every
list has a span, which starts and ends at boundaries of the text, whose image is read as
that list and nothing else, and which encloses the spans of the list's elements.  The
spans of the elements of a list, and those of the forms, are disjoint and in order. -/
theorem read_spans {text file : String} {dots : Bool} {forms : List Value}
    (h : read text file dots = .ok forms) :
    Value.InOrder forms ∧ ∀ form ∈ forms, ∀ items source, (Value.list items source).Within form →
      ∃ s, source = some s ∧ s.Faithful text file dots items := by
  obtain ⟨_, stop, hrow, rfl⟩ := row_of_readForms h
  have hlocates : Reader.Locates (Reader.readForm dots Reader.maxNesting) :=
    readForm_locates dots Reader.maxNesting
  refine ⟨hrow.inOrder hlocates, fun form hform items source hwithin => ?_⟩
  obtain ⟨d, middle, hd, hread, -⟩ := hrow.exists_read hlocates hform
  have hstands := (Cursor.stands_start text file).of_before hd
  exact readForm_faithful (Nat.le_refl _) hstands hread hwithin

/-- A call with a dotted token and with a quote mark before a bare `...`, whose span
reaches over the blanks and the comment that follow; and a form behind it. -/
def quotedDots : String :=
  "(f a.b '... ; end\n) 'x"

/-- The forms that it is read as. -/
def quotedDotsForms : List Value :=
  let at_ := fun position length => some (Span.mk "sample" quotedDots position length)
  [.list [.symbol "f",
    .list [.sym SpecialForm.member.symbol, .symbol "a", .symbol "b"] (at_ 3 3),
    .list [.sym SpecialForm.quote.symbol, .sym SpecialForm.splice.symbol] (at_ 7 11)] (at_ 0 19),
    .list [.sym SpecialForm.quote.symbol, .symbol "x"] (at_ 20 2)]

/-- The spans of these forms. -/
theorem read_spans_quotedDots :
    read quotedDots "sample" true = .ok quotedDotsForms ∧ Value.InOrder quotedDotsForms ∧
      ∀ form ∈ quotedDotsForms, ∀ items source, (Value.list items source).Within form →
        ∃ s, source = some s ∧ s.Faithful quotedDots "sample" true items := by
  have hread : read quotedDots "sample" true = .ok quotedDotsForms := by rfl
  exact ⟨hread, read_spans hread⟩

end Lisp
