import Lisp.Interpreter
import Lisp.Proofs.Equality.Undeclared

/-!
# Values that no program is involved in

A program has a say in what a value is made of if it implements `empty?` for the type of
the value, and in what it is equal to if it declares an equality for a type of records.
Where it has done neither, for any of the types in a value, the value is **uninvolved**:
a question for its elements calls nothing, and a comparison with any other value calls
nothing either and has an answer (`Machine.elements_uninvolved`,
`Machine.exists_equal_uninvolved`).
-/

namespace Lisp

/-- The elements that a row takes: of a list, the entries of a map, the characters of a
text, the fields of a record, and none of nil. -/
def Value.elements? : Value → Option (List Value)
  | .nil => some []
  | .list items _ => some items
  | .map entries => some (entries.map fun (key, value) => .ofList [key, value])
  | .str text => some (text.toList.map .ofChar)
  | .record _ fields => some fields
  | _ => none

/-- No program has said for values of the type when they are equal or empty. -/
structure Heap.Untouched (h : Heap) (tag : TypeTag) : Prop where
  equality : ∀ ty, tag = .record ty → h.equality? ty = none
  isEmpty : (h.interfaces[CoreInterface.isEmpty.id]?.bind (·.implementation? [tag])) = none

namespace Value

/-- No program has said for any type in the value when its values are equal or empty. -/
inductive Uninvolved (h : Heap) : Value → Prop
  | nil : Uninvolved h .nil
  | str (text : String) : Uninvolved h (.str text)
  | lone {v : Value} (hv : v.elements? = none) (htype : h.Untouched v.tag) : Uninvolved h v
  | list {items : List Value} {source : Option Span} (hitems : ∀ x ∈ items, Uninvolved h x) :
      Uninvolved h (.list items source)
  | map {entries : List (Value × Value)} (hkeys : ∀ e ∈ entries, Uninvolved h e.1)
      (hvalues : ∀ e ∈ entries, Uninvolved h e.2) : Uninvolved h (.map entries)
  | record {ty : RecordTypeId} {fields : List Value} (htype : h.Untouched (.record ty))
      (hfields : ∀ x ∈ fields, Uninvolved h x) : Uninvolved h (.record ty fields)

namespace Uninvolved

variable {h : Heap} {v : Value}

/-- An uninvolved value holds no record with a declared equality. -/
theorem not_declares (hv : v.Uninvolved h) : h.declaresEquality v = false := by
  induction hv with
  | nil => rfl
  | str text => rfl
  | @lone v hv _ => cases v <;> first | rfl | cases hv
  | list _ ih =>
      rw [Heap.declaresEquality, Bool.eq_false_iff, ne_eq, Heap.anyDeclaresEquality_iff]
      rintro ⟨x, hx, hdeclares⟩
      rw [ih x hx] at hdeclares
      cases hdeclares
  | map _ _ ihKeys ihValues =>
      rw [Heap.declaresEquality, Bool.eq_false_iff, ne_eq, Heap.entriesDeclareEquality_iff]
      rintro ⟨e, he, hdeclares | hdeclares⟩
      · rw [ihKeys e he] at hdeclares
        cases hdeclares
      · rw [ihValues e he] at hdeclares
        cases hdeclares
  | record htype _ ih =>
      rw [Heap.declaresEquality, htype.equality _ rfl, Option.isSome_none, Bool.false_or,
        Bool.eq_false_iff, ne_eq, Heap.anyDeclaresEquality_iff]
      rintro ⟨x, hx, hdeclares⟩
      rw [ih x hx] at hdeclares
      cases hdeclares

/-- The keys and the values of a map are uninvolved. -/
theorem of_map {entries : Entries} (hv : (Value.map entries).Uninvolved h) :
    ∀ e ∈ entries, e.1.Uninvolved h ∧ e.2.Uninvolved h := by
  cases hv with
  | lone hv _ => cases hv
  | map hkeys hvalues => exact fun e he => ⟨hkeys e he, hvalues e he⟩

/-- The fields of a record are uninvolved. -/
theorem of_record {ty : RecordTypeId} {fields : List Value}
    (hv : (Value.record ty fields).Uninvolved h) : ∀ x ∈ fields, x.Uninvolved h := by
  cases hv with
  | lone hv _ => cases hv
  | record _ hfields => exact hfields

/-- The elements of an uninvolved value are uninvolved. -/
theorem elements {items : List Value} (hv : v.Uninvolved h) (hitems : v.elements? = some items) :
    ∀ x ∈ items, x.Uninvolved h := by
  cases hv with
  | nil =>
      cases hitems
      exact fun x hx => nomatch hx
  | str text =>
      cases hitems
      intro x hx
      obtain ⟨c, -, rfl⟩ := List.mem_map.mp hx
      exact .str _
  | lone hv _ => cases hv.symm.trans hitems
  | list hall =>
      cases hitems
      exact hall
  | map hkeys hvalues =>
      cases hitems
      intro x hx
      obtain ⟨e, he, rfl⟩ := List.mem_map.mp hx
      refine .list fun y hy => ?_
      rcases List.mem_pair.mp hy with rfl | rfl
      · exact hkeys e he
      · exact hvalues e he
  | record _ hfields =>
      cases hitems
      exact hfields

/-- Frames have no say in it. -/
theorem of_frames {fs : Frames} (hv : v.Uninvolved h) : v.Uninvolved { h with frames := fs } := by
  induction hv with
  | nil => exact .nil
  | str text => exact .str text
  | lone hv htype => exact .lone hv ⟨htype.equality, htype.isEmpty⟩
  | list _ ih => exact .list ih
  | map _ _ ihKeys ihValues => exact .map ihKeys ihValues
  | record htype _ ih => exact .record ⟨htype.equality, htype.isEmpty⟩ ih

end Uninvolved

end Value

namespace Machine

variable (m : Machine) {w : World} {v : Value}

/-- A record whose type does not say when its records are empty has its fields for
elements. -/
theorem iterate_record {ty : RecordTypeId} {fields : List Value}
    (hregistered : w.heap.coreImplementation? .isEmpty [.record ty] = none) :
    m.iterate (.record ty fields) w = (.ok fields, w) := by
  unfold iterate
  dsimp only
  rw [Eval.bind_ask, hregistered]
  rfl

/-- A question for the elements of an uninvolved value calls nothing. -/
theorem elements_uninvolved (hv : v.Uninvolved w.heap) :
    m.elements .test v w = (.ok v.elements?, w) := by
  unfold elements
  cases hv with
  | nil => rfl
  | str text => rfl
  | list _ => rfl
  | map _ _ => rfl
  | @lone v hv htype =>
      have hfails : ∃ f, m.iterateByInterface v w = (.failed f, w) ∧
          ∃ message, f.cause = .complaint .typeMismatch message := by
        unfold iterateByInterface
        rw [Eval.bind_ask]
        simp only [List.all_cons, htype.isEmpty, Option.isSome_none, Bool.false_and]
        exact ⟨_, rfl, _, rfl⟩
      obtain ⟨f, hrun, message, hcause⟩ := hfails
      have hiterate : m.iterate v w = (.failed f, w) := by
        rw [← hrun]
        cases v <;> first | rfl | cases hv
      rw [hiterate, hv]
      dsimp only
      rw [hcause]
  | @record ty fields htype _ =>
      have hregistered : w.heap.coreImplementation? .isEmpty [.record ty] = none := by
        have hempty := htype.isEmpty
        unfold Heap.coreImplementation?
        cases hinterface : w.heap.interfaces[CoreInterface.isEmpty.id]? with
        | none => rfl
        | some i =>
            rw [hinterface] at hempty
            have hchoice : (i.registered? [.record ty] <|> i.fallback) = none := hempty
            show i.registered? [.record ty] = none
            cases hregistered : i.registered? [.record ty] with
            | none => rfl
            | some imp =>
                rw [hregistered] at hchoice
                cases hchoice
      rw [m.iterate_record hregistered]
      rfl

/-- A comparison with an uninvolved value has an answer, and calls nothing. -/
theorem exists_equal_uninvolved (a : Value) (hv : v.Uninvolved w.heap) :
    ∃ same, m.equal a v w = (.ok same, w) := by
  obtain ⟨same, hequal⟩ := Setting.exists_answers_equal (m := m) (.inr hv.not_declares)
  exact ⟨same, Setting.only_answers.mp hequal⟩

/-- A search for a key among uninvolved ones has an answer, and calls nothing. -/
theorem exists_storedKey?_uninvolved {entries : Entries} (key : Value)
    (hentries : ∀ e ∈ entries, e.1.Uninvolved w.heap) :
    ∃ found, m.storedKey? entries key w = (.ok found, w) := by
  have hequal : ∀ e ∈ entries, ∃ t, (Setting.only m w).Answers (m.equal e.1 key) t :=
    fun e he => Setting.exists_answers_equal (.inl (hentries e he).not_declares)
  obtain ⟨found, hfound⟩ := Setting.exists_answers_search hequal
  exact ⟨found, Setting.only_answers.mp hfound⟩

end Machine

end Lisp
