import Lisp.Proofs.Reader.Tokens
import Lisp.Proofs.Text.Quoting
import Lisp.Value.Printer

/-!
# Readable forms

A form is **readable** when its text can be told apart from every other text: an
atom must be spelled by a token that nothing else claims, and a text that ends in
a bare `...` must not be followed by a form, which it would spread.  The test is a
function on values, and so is the nesting of a form, which the reader limits.

The second half lays out the text of a readable form for the reader: a list is its
elements in a row between brackets (`chars_list`), except that a spread is its
operand behind three dots (`chars_spread`), and the forms of a whole text stand in
the same kind of row (`toList_intercalate_print`).
-/

namespace Lisp.Value

open Reader (Denotes isTokenChar isMarked isInk constantNames dotSegments?)

/-! ### The test -/

/-- A name that reads as a symbol and nothing else. -/
def isSymbolName (name : List Char) : Bool :=
  !name.isEmpty && name.all isTokenChar && !isMarked name &&
    !constantNames.contains (String.ofList name) && name.head? != some ':' &&
    !Number.isNumeral name && (dotSegments? name).isNone

/-- A name that reads as a keyword behind a colon. -/
def isKeywordName (name : List Char) : Bool :=
  name.all isTokenChar && (dotSegments? (':' :: name)).isNone

/-- The text of a form ends in a bare `...`: the symbol, or a spread of such a
form. -/
def endsBare : Value → Bool
  | .sym s => s.isSplice
  | .list [head, operand] _ => head.isSpliceMarker && endsBare operand
  | _ => false

mutual

/-- The levels of a form: one more than those of its elements. -/
def nesting : Value → Nat
  | .list items _ => nestingItems items + 1
  | _ => 1

/-- The levels of the deepest element. -/
def nestingItems : List Value → Nat
  | [] => 0
  | item :: rest => max (nesting item) (nestingItems rest)

end

mutual

/-- A form whose text reads back as the form. -/
def readable : Value → Bool
  | .nil | .bool _ | .num _ | .str _ => true
  | .sym s => s.isInterned && (s.isSplice || isSymbolName s.name.toList)
  | .keyword name => isKeywordName name.toList
  | .list [head, operand] _ =>
    (head.isSpliceMarker || readable head && !endsBare head) && readable operand
  | .list items _ => readableItems items
  | _ => false

/-- Readable forms in a row, of which only the last may end in a bare `...`. -/
def readableItems : List Value → Bool
  | [] => true
  | item :: rest => readable item && (rest.isEmpty || !endsBare item) && readableItems rest

end

/-- Every form takes up a level. -/
theorem nesting_pos (v : Value) : 0 < nesting v := by
  unfold nesting
  split
  · exact Nat.succ_pos _
  · exact Nat.one_pos

/-- An element is not nested deeper than the deepest one. -/
theorem nesting_le_nestingItems {item : Value} {items : List Value} (h : item ∈ items) :
    nesting item ≤ nestingItems items := by
  induction items with
  | nil => cases h
  | cons first rest ih =>
      rw [nestingItems]
      rcases List.mem_cons.mp h with rfl | hmem
      · exact Nat.le_max_left _ _
      · exact Nat.le_trans (ih hmem) (Nat.le_max_right _ _)

/-- The elements of a readable row are readable. -/
theorem readable_of_mem {item : Value} {items : List Value} (hitems : readableItems items = true)
    (h : item ∈ items) : readable item = true := by
  induction items with
  | nil => cases h
  | cons first rest ih =>
      rw [readableItems, Bool.and_eq_true, Bool.and_eq_true] at hitems
      rcases List.mem_cons.mp h with rfl | hmem
      · exact hitems.1.1
      · exact ih hitems.2 hmem

/-! ### Spreads and rows -/

/-- A spread is a pair headed by `...`. -/
theorem spread_pair {items : List Value} {source : Option Span} {operand : Value}
    (h : spreadOperand? (.list items source) = some operand) :
    items = [.sym SpecialForm.splice.symbol, operand] := by
  unfold spreadOperand? at h
  split at h
  · next s operand' _ heq =>
      cases heq
      split at h
      · next hsplice =>
          cases h
          rw [eq_of_beq hsplice]
      · cases h
  · cases h

/-- The symbol `...` is the marker. -/
theorem isSpliceMarker_splice : isSpliceMarker (.sym SpecialForm.splice.symbol) = true := rfl

/-- A list that is no spread has another number of elements or another head. -/
theorem row_shape {items : List Value} {source : Option Span}
    (h : spreadOperand? (.list items source) = none) :
    (∃ head operand, items = [head, operand] ∧ head.isSpliceMarker = false) ∨
      ∀ head operand, items = [head, operand] → False := by
  by_cases hpair : ∃ head operand, items = [head, operand]
  · obtain ⟨head, operand, rfl⟩ := hpair
    refine .inl ⟨head, operand, rfl, ?_⟩
    cases head with
    | sym s =>
        rw [spreadOperand?] at h
        split at h
        · cases h
        · next hsplice => exact Bool.eq_false_iff.mpr hsplice
    | _ => rfl
  · refine .inr fun head operand heq => hpair ⟨head, operand, heq⟩

/-- A spread is readable if its operand is. -/
theorem readable_spread {items : List Value} {source : Option Span} {operand : Value}
    (h : spreadOperand? (.list items source) = some operand) :
    readable (.list items source) = readable operand := by
  rw [spread_pair h, readable, isSpliceMarker_splice, Bool.true_or, Bool.true_and]

/-- Any other list is readable if its elements are, as a row. -/
theorem readable_row {items : List Value} {source : Option Span}
    (h : spreadOperand? (.list items source) = none) :
    readable (.list items source) = readableItems items := by
  rcases row_shape h with ⟨head, operand, rfl, hmarker⟩ | hother
  · simp [readable, readableItems, hmarker]
  · rw [readable]
    exact hother

/-- A spread ends as its operand ends. -/
theorem endsBare_spread {items : List Value} {source : Option Span} {operand : Value}
    (h : spreadOperand? (.list items source) = some operand) :
    endsBare (.list items source) = endsBare operand := by
  rw [spread_pair h, endsBare, isSpliceMarker_splice, Bool.true_and]

/-! ### The text -/

/-- The characters of a form's text. -/
def chars (h : Heap) (v : Value) : List Char :=
  (v.print h).toList

/-- Forms in a row, a blank between neighbours. -/
def row (h : Heap) : List Value → List Char
  | [] => []
  | item :: rest => chars h item ++ rest.flatMap fun v => ' ' :: chars h v

/-- The text of a value is that of its pieces. -/
theorem chars_eq (h : Heap) (v : Value) :
    chars h v = (pieces h v).flatMap fun piece => piece.2.toList := by
  unfold chars print
  rw [String.toList_join, List.flatMap_map]

/-- A blank before each element. -/
theorem toList_prefixed (h : Heap) (items : List Value) :
    (prefixed h items).flatMap (fun piece => piece.2.toList) =
      items.flatMap fun v => ' ' :: chars h v := by
  induction items with
  | nil => rw [prefixed]; rfl
  | cons item rest ih =>
      rw [prefixed, List.cons_append, List.flatMap_cons, List.flatMap_append, ih, ← chars_eq,
        List.flatMap_cons]
      rfl

/-- A blank between neighbours. -/
theorem toList_spaced (h : Heap) (items : List Value) :
    (spaced h items).flatMap (fun piece => piece.2.toList) = row h items := by
  cases items with
  | nil => rw [spaced]; rfl
  | cons item rest =>
      rw [spaced, List.flatMap_append, toList_prefixed, ← chars_eq]
      rfl

/-- A spread is its operand behind three dots. -/
theorem chars_spread (h : Heap) {items : List Value} {source : Option Span} {operand : Value}
    (hspread : spreadOperand? (.list items source) = some operand) :
    chars h (.list items source) = '.' :: '.' :: '.' :: chars h operand := by
  rw [spread_pair hspread, chars_eq, pieces, if_pos isSpliceMarker_splice, List.flatMap_cons,
    ← chars_eq]
  rfl

/-- Any other list is its elements in a row between brackets. -/
theorem chars_list (h : Heap) {items : List Value} {source : Option Span}
    (hrow : spreadOperand? (.list items source) = none) :
    chars h (.list items source) = '(' :: (row h items ++ [')']) := by
  have hpieces : pieces h (.list items source) =
      (.punctuation, "(") :: spaced h items ++ [(.punctuation, ")")] := by
    rcases row_shape hrow with ⟨head, operand, rfl, hmarker⟩ | hother
    · simp [pieces, spaced, prefixed, hmarker]
    · rw [pieces]
      exact hother
  rw [chars_eq, hpieces, List.cons_append, List.flatMap_cons, List.flatMap_append, toList_spaced]
  rfl

/-- The texts of forms joined by blanks are their row. -/
theorem toList_intercalate_print (h : Heap) (forms : List Value) :
    (" ".intercalate (forms.map (print h))).toList = row h forms := by
  induction forms with
  | nil => rfl
  | cons form rest ih =>
      cases rest with
      | nil =>
          rw [List.map_singleton, String.intercalate_singleton]
          exact (List.append_nil _).symm
      | cons next rest =>
          rw [List.map_cons, List.map_cons, String.intercalate_cons_cons, ← List.map_cons,
            String.toList_append, String.toList_append, ih, List.append_assoc]
          rfl

/-! ### Atoms -/

/-- The text of a value with one piece. -/
theorem chars_atom {h : Heap} {v : Value} {ink : Ink} {text : String}
    (hpieces : pieces h v = [(ink, text)]) : chars h v = text.toList := by
  rw [chars_eq, hpieces, List.flatMap_singleton]

/-- The text of a keyword. -/
theorem denotes_keyword (h : Heap) {name : String} (hname : isKeywordName name.toList = true) :
    Denotes (chars h (.keyword name)) (.keyword name) := by
  simp only [isKeywordName, Bool.and_eq_true, List.all_eq_true, Option.isNone_iff_eq_none] at hname
  obtain ⟨hrun, hdots⟩ := hname
  have hdenotes := Reader.denotes_keyword hrun hdots
  rw [String.ofList_toList] at hdenotes
  rw [chars_atom (by rw [pieces]), String.toList_append]
  exact hdenotes

/-- The text of an interned symbol. -/
theorem denotes_sym (h : Heap) {s : Symbol} (hinterned : s.isInterned = true)
    (hname : isSymbolName s.name.toList = true) : Denotes (chars h (.sym s)) (.sym s) := by
  simp only [isSymbolName, Bool.and_eq_true, Bool.not_eq_true', List.isEmpty_eq_false_iff,
    List.all_eq_true, bne_iff_ne, Option.isNone_iff_eq_none, List.contains_eq_mem,
    decide_eq_false_iff_not] at hname
  obtain ⟨⟨⟨⟨⟨⟨hne, hrun⟩, hmark⟩, hconstant⟩, hcolon⟩, hnumeral⟩, hdots⟩ := hname
  have hdenotes := Reader.denotes_symbol hne hrun hmark hdots hconstant hcolon hnumeral
  have hintern : Symbol.intern s.name = s := by
    obtain ⟨name, serial⟩ := s
    rw [Symbol.isInterned, Option.isNone_iff_eq_none] at hinterned
    cases hinterned
    rfl
  rw [String.ofList_toList, symbol, hintern] at hdenotes
  rw [chars_atom (by rw [pieces])]
  exact hdenotes

end Lisp.Value
