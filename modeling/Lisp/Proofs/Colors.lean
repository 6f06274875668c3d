import Lisp.Proofs.Equality.Structural
import Lisp.Proofs.Number.Numerals
import Lisp.Value.Printer

/-!
# Colours only add colour

The two printers set the same pieces, and the coloured one wraps the text of a piece in
the sequence that turns its colour on and the one that turns it off again.  So the plain
text is what remains of the coloured one when all such sequences are deleted
(`stripColors_printColored`).

What is deleted is decided by the text alone, read from its first character to its last:
an escape, an opening bracket and the characters up to the next `m`.  Therefore the text
of a piece must not have an escape in it (`escapeFree_pieces`).  Text values and the messages
of errors are quoted, which spells every escape out; numbers, brackets and the names of
builtins have none; the names that programs give are asked not to have any.
-/

namespace Lisp

/-- The number of characters of the colour sequence that a text starts with. -/
def colorLength : List Char → Nat
  | '\x1b' :: '[' :: cs => if 'm' ∈ cs then (cs.takeWhile (· ≠ 'm')).length + 3 else 0
  | _ => 0

/-- Deletes the given number of characters, and every colour sequence after them. -/
def stripFrom : (deleted : Nat) → List Char → List Char
  | _, [] => []
  | deleted + 1, _ :: cs => stripFrom deleted cs
  | 0, c :: cs =>
    match colorLength (c :: cs) with
    | 0 => c :: stripFrom 0 cs
    | more + 1 => stripFrom more cs

/-- Deletes every colour sequence from a text. -/
def stripColors (cs : List Char) : List Char :=
  stripFrom 0 cs

/-- No character of the text is an escape. -/
def EscapeFree (text : List Char) : Prop :=
  '\x1b' ∉ text

instance (text : List Char) : Decidable (EscapeFree text) :=
  inferInstanceAs (Decidable (¬ _))

/-! ### Deleting colours -/

/-- The characters to delete are deleted. -/
theorem stripFrom_length (deleted more : List Char) :
    stripFrom deleted.length (deleted ++ more) = stripColors more := by
  induction deleted with
  | nil => rfl
  | cons c cs ih => exact ih

/-- A text without an escape stays. -/
theorem stripColors_escapeFree {text : List Char} (h : EscapeFree text) (more : List Char) :
    stripColors (text ++ more) = text ++ stripColors more := by
  induction text with
  | nil => rfl
  | cons c cs ih =>
      have hescape : '\x1b' ≠ c := fun heq => h (heq ▸ List.mem_cons_self)
      have hcs : EscapeFree cs := fun hmem => h (List.mem_cons_of_mem c hmem)
      have hnone : colorLength (c :: (cs ++ more)) = 0 := by
        unfold colorLength
        split
        · next heq => exact absurd (List.cons.inj heq).1.symm hescape
        · rfl
      rw [List.cons_append, stripColors, stripFrom, hnone]
      exact congrArg (c :: ·) (ih hcs)

/-- A colour sequence is deleted. -/
theorem stripColors_sequence {code : List Char} (h : 'm' ∉ code) (more : List Char) :
    stripColors ('\x1b' :: '[' :: (code ++ 'm' :: more)) = stripColors more := by
  have hrun : (code ++ 'm' :: more).takeWhile (· ≠ 'm') = code := by
    rw [List.takeWhile_append_of_pos]
    · simp
    · intro c hc
      simpa using fun heq : c = 'm' => h (heq ▸ hc)
  have hlength : colorLength ('\x1b' :: '[' :: (code ++ 'm' :: more)) = code.length + 3 := by
    rw [colorLength, if_pos (List.mem_append_right _ List.mem_cons_self), hrun]
  have hdeleted := stripFrom_length ('[' :: (code ++ ['m'])) more
  rw [stripColors, stripFrom, hlength]
  simpa using hdeleted

/-- The colours of inks are numbers. -/
theorem Ink.color?_numeric {ink : Ink} {code : String} (h : ink.color? = some code) :
    'm' ∉ code.toList := by
  cases ink <;> cases h <;> decide

/-- A piece is its own text when its colour is deleted. -/
theorem stripColors_paint {text : String} (h : EscapeFree text.toList) (ink : Ink)
    (more : List Char) :
    stripColors ((ink.paint text).toList ++ more) = text.toList ++ stripColors more := by
  unfold Ink.paint
  split
  · exact stripColors_escapeFree h more
  · next code hcode =>
      split
      · exact stripColors_escapeFree h more
      · have hpainted : (s!"\x1b[{code}m{text}\x1b[0m").toList ++ more =
            '\x1b' :: '[' :: (code.toList ++ 'm' :: (text.toList ++
              '\x1b' :: '[' :: (['0'] ++ 'm' :: more))) := by
          simp [toString]
        rw [hpainted, stripColors_sequence (Ink.color?_numeric hcode), stripColors_escapeFree h,
          stripColors_sequence (by decide)]

/-- So is a row of pieces. -/
theorem stripColors_pieces {row : List Piece} (h : ∀ piece ∈ row, EscapeFree piece.2.toList) :
    stripColors (row.flatMap fun piece => (piece.1.paint piece.2).toList) =
      row.flatMap fun piece => piece.2.toList := by
  induction row with
  | nil => rfl
  | cons piece row ih =>
      obtain ⟨hpiece, hrow⟩ := List.forall_mem_cons.mp h
      rw [List.flatMap_cons, List.flatMap_cons, stripColors_paint hpiece, ih hrow]

/-! ### Texts without an escape -/

/-- Two texts without an escape have none together. -/
theorem EscapeFree.append {s t : String} (hs : EscapeFree s.toList) (ht : EscapeFree t.toList) :
    EscapeFree (s ++ t).toList := by
  unfold EscapeFree
  rw [String.toList_append, List.mem_append]
  exact not_or.mpr ⟨hs, ht⟩

/-- A quoted text spells its escapes out. -/
theorem escapeFree_quote (text : String) : EscapeFree (Text.quote text).toList := by
  have hdigit : ∀ n : Fin 16, '\x1b' ≠ Nat.digitChar n := by decide
  have hchar : ∀ c, EscapeFree (Text.quoteChar c) := by
    intro c hmem
    unfold Text.quoteChar at hmem
    split at hmem
    case h_8 =>
      split at hmem
      · have hhigh := hdigit ⟨c.toNat / 16, by omega⟩
        have hlow := hdigit ⟨c.toNat % 16, by omega⟩
        simp_all
      · next hprinted =>
          obtain rfl := List.mem_singleton.mp hmem
          exact hprinted (by decide)
    all_goals exact absurd hmem (by decide)
  unfold Text.quote EscapeFree
  rw [String.toList_ofList]
  simp only [List.mem_append, List.mem_cons, List.mem_flatMap, not_or, List.cons_append]
  exact ⟨by decide, fun ⟨c, _, hmem⟩ => hchar c hmem, by decide, nofun⟩

/-- A number has none. -/
theorem escapeFree_number (x : Float) : EscapeFree (Number.text x).toList := by
  have hdigits : ∀ d : Number.Decimal, EscapeFree d.text.toList := by
    intro d hmem
    rcases Number.Decimal.isDigit_or_point_of_mem_text hmem with hdigit | hpoint
    · exact absurd hdigit (by decide)
    · exact absurd hpoint (by decide)
  have hsign : ∀ negative : Bool, EscapeFree (if negative then "-" else "").toList := by decide
  unfold Number.text
  dsimp only
  split
  · decide
  · split
    · exact (hsign _).append (by decide)
    · split
      · decide
      · exact (hsign _).append (hdigits _)

/-- The name of a builtin has none. -/
theorem Builtin.escapeFree_name (b : Builtin) : EscapeFree b.name.toList := by
  have hnone : b.name.toList.contains '\x1b' = false := by
    cases b with
    | type op => cases op <;> rfl
    | number op => cases op <;> rfl
    | sequence op => cases op <;> rfl
    | error op => cases op <;> rfl
    | reflection op => cases op <;> rfl
    | system op => cases op <;> rfl
    | core op => cases op <;> rfl
  exact fun hmem => Bool.false_ne_true (hnone.symm.trans (List.contains_iff_mem.mpr hmem))

/-! ### The pieces of a value -/

namespace Value

mutual

/-- The names given by programs that are shown in the text of a value: those of symbols,
keywords, record types, procedures and interfaces. -/
def names (h : Heap) : Value → List String
  | .sym s => [s.name]
  | .keyword name => [name]
  | .list items _ => namesOfItems h items
  | .map entries => namesOfEntries h entries
  | .record ty fields => h.typeName (.record ty) :: namesOfItems h fields
  | .type tag => [h.typeName tag]
  | .closure id => (h.closures[id]?.map Closure.displayName).toList
  | .bound _ target => names h target
  | .interface id => (h.interfaces[id]?.map fun i => i.name.name).toList
  | _ => []

/-- The names shown in the texts of elements. -/
def namesOfItems (h : Heap) : List Value → List String
  | [] => []
  | item :: rest => names h item ++ namesOfItems h rest

/-- The names shown in the texts of keys and values. -/
def namesOfEntries (h : Heap) : List (Value × Value) → List String
  | [] => []
  | (key, value) :: rest => names h key ++ names h value ++ namesOfEntries h rest

end

variable {h : Heap}

/-- A list is set between brackets, or behind dots if it is a spread. -/
theorem pieces_list (items : List Value) (source : Option Span) :
    pieces h (.list items source) = (.punctuation, "(") :: spaced h items ++ [(.punctuation, ")")] ∨
      ∃ head operand, items = [head, operand] ∧
        pieces h (.list items source) = (.punctuation, "...") :: pieces h operand := by
  match items with
  | [head, operand] =>
      rw [pieces]
      split
      · exact .inr ⟨head, operand, rfl, rfl⟩
      · exact .inl (by simp [spaced, prefixed])
  | [] | [_] | _ :: _ :: _ :: _ => exact .inl (by rw [pieces]; simp)

/-- The one piece of a value. -/
theorem escapeFree_atom {v : Value} {ink : Ink} {text : String}
    (hpieces : pieces h v = [(ink, text)])
    (htext : EscapeFree text.toList) : ∀ piece ∈ pieces h v, EscapeFree piece.2.toList := by
  rw [hpieces]
  exact List.forall_mem_singleton.mpr htext

/-- The tag of a value without readable text. -/
theorem escapeFree_tagged {v : Value} {name kind : String}
    (hpieces : pieces h v = [tagged name kind])
    (hname : EscapeFree name.toList) (hkind : EscapeFree kind.toList) :
    ∀ piece ∈ pieces h v, EscapeFree piece.2.toList := by
  have hopened : EscapeFree ("#<" ++ name ++ "::").toList :=
    (EscapeFree.append (by decide) hname).append (by decide)
  exact escapeFree_atom hpieces ((hopened.append hkind).append (by decide))

/-- The names shown in the texts of elements are those of the elements. -/
theorem namesOfItems_eq (items : List Value) : namesOfItems h items = items.flatMap (names h) := by
  induction items with
  | nil => rfl
  | cons item rest ih => rw [namesOfItems, ih, List.flatMap_cons]

/-- The names shown in the texts of keys and values are those of both. -/
theorem namesOfEntries_eq (entries : List (Value × Value)) :
    namesOfEntries h entries = entries.flatMap fun e => names h e.1 ++ names h e.2 := by
  induction entries with
  | nil => rfl
  | cons entry rest ih =>
      obtain ⟨key, value⟩ := entry
      rw [namesOfEntries, ih, List.flatMap_cons]

/-- No piece of the text of the value has an escape. -/
def EscapeFreeText (h : Heap) (v : Value) : Prop :=
  ∀ piece ∈ pieces h v, EscapeFree piece.2.toList

/-- Elements with a blank before each. -/
theorem escapeFree_prefixed {items : List Value}
    (hitems : ∀ item ∈ items, EscapeFreeText h item) :
    ∀ piece ∈ prefixed h items, EscapeFree piece.2.toList := by
  induction items with
  | nil =>
      rw [prefixed]
      exact nofun
  | cons item rest ih =>
      obtain ⟨hitem, hrest⟩ := List.forall_mem_cons.mp hitems
      rw [prefixed, List.cons_append, List.forall_mem_cons, List.forall_mem_append]
      exact ⟨by decide, hitem, ih hrest⟩

/-- Elements with a blank between neighbours. -/
theorem escapeFree_spaced {items : List Value} (hitems : ∀ item ∈ items, EscapeFreeText h item) :
    ∀ piece ∈ spaced h items, EscapeFree piece.2.toList := by
  cases items with
  | nil =>
      rw [spaced]
      exact nofun
  | cons item rest =>
      obtain ⟨hitem, hrest⟩ := List.forall_mem_cons.mp hitems
      rw [spaced, List.forall_mem_append]
      exact ⟨hitem, escapeFree_prefixed hrest⟩

/-- Keys and values with a blank before each. -/
theorem escapeFree_prefixedEntries {entries : List (Value × Value)}
    (hentries : ∀ e ∈ entries, EscapeFreeText h e.1 ∧ EscapeFreeText h e.2) :
    ∀ piece ∈ prefixedEntries h entries, EscapeFree piece.2.toList := by
  induction entries with
  | nil =>
      rw [prefixedEntries]
      exact nofun
  | cons entry rest ih =>
      obtain ⟨key, value⟩ := entry
      obtain ⟨⟨hkey, hvalue⟩, hrest⟩ := List.forall_mem_cons.mp hentries
      rw [prefixedEntries, List.cons_append, List.cons_append, List.append_assoc,
        List.forall_mem_cons, List.forall_mem_append, List.cons_append, List.forall_mem_cons,
        List.forall_mem_append]
      exact ⟨by decide, hkey, by decide, hvalue, ih hrest⟩

/-- Keys and values with a blank between neighbours. -/
theorem escapeFree_spacedEntries {entries : List (Value × Value)}
    (hentries : ∀ e ∈ entries, EscapeFreeText h e.1 ∧ EscapeFreeText h e.2) :
    ∀ piece ∈ spacedEntries h entries, EscapeFree piece.2.toList := by
  cases entries with
  | nil =>
      rw [spacedEntries]
      exact nofun
  | cons entry rest =>
      obtain ⟨key, value⟩ := entry
      obtain ⟨⟨hkey, hvalue⟩, hrest⟩ := List.forall_mem_cons.mp hentries
      rw [spacedEntries, List.append_assoc, List.forall_mem_append, List.cons_append,
        List.forall_mem_cons, List.forall_mem_append]
      exact ⟨hkey, by decide, hvalue, escapeFree_prefixedEntries hrest⟩

/-- A list, in brackets or as a spread form. -/
theorem escapeFree_list {items : List Value} (source : Option Span)
    (hitems : ∀ item ∈ items, EscapeFreeText h item) : EscapeFreeText h (.list items source) := by
  unfold EscapeFreeText
  rcases pieces_list (h := h) items source with hrow | ⟨head, operand, rfl, hspread⟩
  · rw [hrow, List.cons_append, List.forall_mem_cons, List.forall_mem_append,
      List.forall_mem_singleton]
    exact ⟨by decide, escapeFree_spaced hitems, by decide⟩
  · rw [hspread, List.forall_mem_cons]
    exact ⟨by decide, hitems operand (by simp)⟩

/-- A map, in braces. -/
theorem escapeFree_map {entries : List (Value × Value)}
    (hentries : ∀ e ∈ entries, EscapeFreeText h e.1 ∧ EscapeFreeText h e.2) :
    EscapeFreeText h (.map entries) := by
  unfold EscapeFreeText
  rw [pieces, List.cons_append, List.forall_mem_cons, List.forall_mem_append,
    List.forall_mem_singleton]
  exact ⟨by decide, escapeFree_spacedEntries hentries, by decide⟩

/-- A record, as a call of its type. -/
theorem escapeFree_record {ty : RecordTypeId} {fields : List Value}
    (hname : EscapeFree (h.typeName (.record ty)).toList)
    (hfields : ∀ field ∈ fields, EscapeFreeText h field) :
    EscapeFreeText h (.record ty fields) := by
  unfold EscapeFreeText
  rw [pieces, List.cons_append, List.cons_append, List.forall_mem_cons, List.forall_mem_cons,
    List.forall_mem_append, List.forall_mem_singleton]
  exact ⟨by decide, hname, escapeFree_prefixed hfields, by decide⟩

/-- If the names shown in a text have no escape, the pieces of the text have none. -/
theorem escapeFree_pieces (v : Value) (hnames : ∀ name ∈ names h v, EscapeFree name.toList) :
    EscapeFreeText h v := by
  induction v using part_induction with
  | h v ih =>
      cases v with
      | nil => exact escapeFree_atom (by rw [pieces]) (by decide)
      | bool b => exact escapeFree_atom (by rw [pieces]) (by cases b <;> decide)
      | num n => exact escapeFree_atom (by rw [pieces]) (escapeFree_number n)
      | str text => exact escapeFree_atom (by rw [pieces]) (escapeFree_quote text)
      | sym s =>
          rw [names] at hnames
          exact escapeFree_atom (by rw [pieces]) (hnames s.name List.mem_cons_self)
      | keyword name =>
          rw [names] at hnames
          have hname := hnames name List.mem_cons_self
          exact escapeFree_atom (by rw [pieces]) (EscapeFree.append (by decide) hname)
      | list items source =>
          rw [names, namesOfItems_eq, List.forall_mem_flatMap] at hnames
          refine escapeFree_list source fun item hitem => ?_
          exact ih item (.item hitem) (hnames item hitem)
      | map entries =>
          rw [names, namesOfEntries_eq, List.forall_mem_flatMap] at hnames
          refine escapeFree_map fun e he => ?_
          obtain ⟨hkey, hvalue⟩ := List.forall_mem_append.mp (hnames e he)
          exact ⟨ih e.1 (.key he) hkey, ih e.2 (.value he) hvalue⟩
      | record ty fields =>
          rw [names, List.forall_mem_cons, namesOfItems_eq, List.forall_mem_flatMap] at hnames
          refine escapeFree_record hnames.1 fun field hfield => ?_
          exact ih field (.field hfield) (hnames.2 field hfield)
      | type tag =>
          rw [names] at hnames
          exact escapeFree_atom (by rw [pieces]) (hnames (h.typeName tag) List.mem_cons_self)
      | closure id =>
          rw [names] at hnames
          cases hfound : h.closures[id]? with
          | none => exact escapeFree_tagged (by rw [pieces, hfound]) (by decide) (by decide)
          | some c =>
              rw [hfound] at hnames
              have hname := hnames c.displayName List.mem_cons_self
              exact escapeFree_tagged (by rw [pieces, hfound]) hname (by split <;> decide)
      | builtin b => exact escapeFree_tagged (by rw [pieces]) b.escapeFree_name (by decide)
      | accessor serial way subject =>
          exact escapeFree_tagged (by rw [pieces]) (by cases way <;> decide) (by decide)
      | bound receiver target =>
          rw [names] at hnames
          unfold EscapeFreeText
          rw [pieces]
          exact ih target .target hnames
      | interface id =>
          rw [names] at hnames
          have hname :
              EscapeFree ((h.interfaces[id]?.map fun i => i.name.name).getD "").toList := by
            cases hfound : h.interfaces[id]? with
            | none => decide
            | some i =>
                rw [hfound] at hnames
                exact hnames i.name.name List.mem_cons_self
          exact escapeFree_tagged (by rw [pieces]) hname (by decide)
      | error serial message data kind =>
          exact escapeFree_tagged (by rw [pieces]) (by decide) (escapeFree_quote message)

/-- **Colours only add colour.**  If no name shown in the text of a value has an escape,
deleting every colour sequence from its coloured text gives its plain text. -/
theorem stripColors_printColored (v : Value) (hnames : ∀ name ∈ names h v, EscapeFree name.toList) :
    String.ofList (stripColors (printColored h v).toList) = print h v := by
  unfold printColored print
  rw [String.toList_join, List.flatMap_map, stripColors_pieces (escapeFree_pieces v hnames),
    ← String.toList_inj, String.toList_ofList, String.toList_join, List.flatMap_map]

/-- A heap with a record type. -/
def inkHeap : Heap :=
  { recordTypes := #[{ name := .intern "P", fields := [.intern "x", .intern "y"] }] }

/-- A record of it, with a text that looks like a colour sequence and a spread keyword. -/
def inkRow : Value :=
  .record 0 [.str "\x1b[1m", .list [.sym SpecialForm.splice.symbol, .keyword "k"] none]

/-- Its colours and nothing else are deleted. -/
theorem stripColors_printColored_row :
    (∀ name ∈ names inkHeap inkRow, EscapeFree name.toList) ∧
    printColored inkHeap inkRow = "\x1b[35m(\x1b[0mP \x1b[32m\"\\u001b[1m\"\x1b[0m " ++
      "\x1b[35m...\x1b[0m\x1b[32m:k\x1b[0m\x1b[35m)\x1b[0m" ∧
    String.ofList (stripColors (printColored inkHeap inkRow).toList) = print inkHeap inkRow := by
  have hnames : ∀ name ∈ names inkHeap inkRow, EscapeFree name.toList := by decide
  exact ⟨hnames, by rfl, stripColors_printColored inkRow hnames⟩

end Value

end Lisp
