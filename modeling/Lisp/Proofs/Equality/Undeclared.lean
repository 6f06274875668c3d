import Lisp.Proofs.Equality.Comparison
import Lisp.Proofs.Equality.Proper

/-!
# Comparisons that no program has a say in

A declared equality has a say in a comparison only if *both* values hold a record of
its type.  If one of them holds no record with a declared equality, the comparison
calls nothing: it answers structural equality and leaves the world alone
(`Machine.equal_of_undeclared`).  So maps are then searched, extended and cut down by
structure: `Machine.structural_of_undeclared`.

A key that holds such a record is still compared with each stored key in turn, and
with the stored key on the left.  That finds nothing which the search by structure has
not found, since structural equality is symmetric on values whose maps have their keys
apart.  Whatever the keys, the comparison has an answer
(`Setting.exists_answers_equal`).
-/

namespace Lisp

open Value (Part KeysApart IsBase same same_equivalenceOn)

/-- A value that is taken apart declares what its parts declare. -/
theorem Heap.declaresEquality_of_part {h : Heap} {x v : Value} (hx : Part x v)
    (hv : ¬ v.IsBase fun _ => True) (hdeclares : h.declaresEquality x) : h.declaresEquality v := by
  cases hx with
  | item hmem => exact Heap.anyDeclaresEquality_iff.mpr ⟨x, hmem, hdeclares⟩
  | field hmem =>
      have hany := Heap.anyDeclaresEquality_iff.mpr ⟨x, hmem, hdeclares⟩
      simp [Heap.declaresEquality, hany]
  | key hmem => exact Heap.entriesDeclareEquality_iff.mpr ⟨_, hmem, .inl hdeclares⟩
  | value hmem => exact Heap.entriesDeclareEquality_iff.mpr ⟨_, hmem, .inr hdeclares⟩
  | receiver => exact absurd trivial hv
  | target => exact absurd trivial hv
  | data => exact absurd trivial hv

/-- One of the two values holds no record with a declared equality. -/
def Heap.Undeclared (h : Heap) (a b : Value) : Prop :=
  h.declaresEquality a = false ∨ h.declaresEquality b = false

namespace Heap.Undeclared

variable {h : Heap} {a b x y : Value}

theorem symm (hab : h.Undeclared a b) : h.Undeclared b a :=
  Or.symm hab

/-- What holds of two values holds of their parts. -/
theorem parts (hab : h.Undeclared a b) (hx : Part x a) (hy : Part y b)
    (ha : ¬ a.IsBase fun _ => True) (hb : ¬ b.IsBase fun _ => True) : h.Undeclared x y := by
  simp only [Undeclared, Bool.eq_false_iff] at hab ⊢
  exact hab.imp (mt (declaresEquality_of_part hx ha)) (mt (declaresEquality_of_part hy hb))

/-- No equality is declared for a type that both have. -/
theorem equality?_eq_none {ty : RecordTypeId} {xs ys : List Value}
    (hab : h.Undeclared (.record ty xs) (.record ty ys)) : h.equality? ty = none := by
  cases hequality : h.equality? ty with
  | none => rfl
  | some imp => simp [Undeclared, Heap.declaresEquality, hequality] at hab

end Heap.Undeclared

namespace Setting

/-- One world, with the types that are in place there. -/
def only (m : Machine) (w : World) : Setting where
  machine := m
  types := w.heap.recordTypes
  calm := (· = w)

variable {m : Machine} {w : World} {α : Type}

/-- An answer from one world leaves it alone. -/
theorem only_answers {x : Eval α} {a : α} : (only m w).Answers x a ↔ x w = (.ok a, w) := by
  constructor
  · intro h
    obtain ⟨_, rfl, hrun⟩ := h w rfl
    exact hrun
  · rintro hrun _ rfl
    exact ⟨_, rfl, hrun⟩

/-- A search by structure is not refined by a scan. -/
theorem only_answers_search {entries : Entries} {key : Value}
    (hentries : ∀ e ∈ entries, KeysApart same e.1) (hkey : KeysApart same key)
    (hequal : ∀ e ∈ entries, (only m w).Answers (m.equal e.1 key) (same e.1 key)) :
    (only m w).Answers (m.storedKey? entries key)
      ((Value.entry? key entries).map fun _ => key) := by
  refine answers_search (fun e hentry => ?_) (fun hentry => ?_) fun hentry _ _ _ => ?_
  · rw [hentry]
    rfl
  · -- No stored key is equal to this one the other way round either.
    have hnone : entries.find? (fun e => same e.1 key) = none := by
      refine List.find?_eq_none.mpr fun e he hsame => ?_
      exact List.find?_eq_none.mp hentry e he
        (same_equivalenceOn.symm (hentries e he) hkey hsame)
    have hscan := answers_scan hequal
    rw [hnone] at hscan
    rw [hentry]
    exact hscan
  · rw [hentry]
    rfl

/-- A comparison in which no declared equality has a say answers structural equality. -/
theorem only_answers_equal {a b : Value} (ha : KeysApart same a) (hb : KeysApart same b)
    (hab : w.heap.Undeclared a b) : (only m w).Answers (m.equal a b) (same a b) := by
  induction a, b using Value.part_induction₂ with
  | h a b ih =>
      have hpart : ∀ {x y : Value}, Part x a → Part y b → w.heap.Undeclared x y →
          (only m w).Answers (m.equal x y) (same x y) :=
        fun hx hy => (ih _ _ hx hy).1 (ha.part hx) (hb.part hy)
      have hback : ∀ {x y : Value}, Part x a → Part y b → w.heap.Undeclared y x →
          (only m w).Answers (m.equal y x) (same y x) :=
        fun hx hy => (ih _ _ hx hy).2 (hb.part hy) (ha.part hx)
      cases a, b using Value.pair_cases with
      | records ty xs ty' ys =>
          rw [Machine.equal, same]
          by_cases hty : ty = ty'
          · subst hty
            rw [if_pos rfl, beq_self_eq_true, Bool.true_and]
            refine .bind (.ask fun _ hw => hw ▸ hab.equality?_eq_none) ?_
            refine answers_items (fun x hx y hy => hpart (.field hx) (.field hy) ?_)
              Value.sameItems_iff
            exact hab.parts (.field hx) (.field hy) (absurd trivial) (absurd trivial)
          · rw [if_neg hty, beq_eq_false_iff_ne.mpr hty]
            exact .pure _
      | lists xs s ys t =>
          rw [Machine.equal, same]
          refine answers_items (fun x hx y hy => hpart (.item hx) (.item hy) ?_) Value.sameItems_iff
          exact hab.parts (.item hx) (.item hy) id id
      | maps xs ys =>
          rw [Machine.equal, same]
          refine answers_entries (fun key => (Value.entry? key ys).map fun _ => key)
            (fun e he => ?_) (fun e he f hf => hpart (.value he) (.value hf) ?_) ?_
          · refine only_answers_search (fun f hf => hb.part (.key hf)) (ha.part (.key he)) ?_
            exact fun f hf => hback (.key he) (.key hf) (hab.parts (.key he) (.key hf) id id).symm
          · exact hab.parts (.value he) (.value hf) id id
          · rw [Value.sameEntries_iff]
            refine forall₂_congr fun e he => ?_
            have hfound : ((Value.entry? e.1 ys).map fun _ => e.1).bind (Value.entry? · ys) =
                Value.entry? e.1 ys := by
              cases hentry : Value.entry? e.1 ys with
              | none => rfl
              | some f => exact hentry
            rw [hfound]
            rfl
      | others a b hrecord hlist hmap =>
          rw [Machine.equal] <;> try assumption
          exact .pure _

/-- What a comparison answers in the world, no if it does not answer. -/
noncomputable def answered (m : Machine) (w : World) (a b : Value) : Bool :=
  open Classical in decide ((m.equal a b w).1 = .ok true)

/-- An answer is that of the world. -/
theorem only_answers_answered {a b : Value} (h : ∃ t, (only m w).Answers (m.equal a b) t) :
    (only m w).Answers (m.equal a b) (answered m w a b) := by
  obtain ⟨t, ht⟩ := h
  have hrun := only_answers.mp ht
  have hanswered : answered m w a b = t := by
    unfold answered
    rw [hrun]
    cases t <;> simp
  exact hanswered ▸ ht

/-- A search answers if the comparisons with the stored keys do. -/
theorem exists_answers_search {entries : Entries} {key : Value}
    (hequal : ∀ e ∈ entries, ∃ t, (only m w).Answers (m.equal e.1 key) t) :
    ∃ found, (only m w).Answers (m.storedKey? entries key) found := by
  have hscan := answers_scan fun e he => only_answers_answered (hequal e he)
  cases hentry : Value.entry? key entries with
  | some e =>
      refine ⟨some key, answers_search (fun _ _ => rfl) (fun hnone => ?_) fun hnone => ?_⟩
      · cases hentry.symm.trans hnone
      · cases hentry.symm.trans hnone
  | none =>
      by_cases hdeclares : w.heap.declaresEquality key = true
      · refine ⟨_, answers_search (fun e he => ?_) (fun _ => hscan) fun _ u hu hnot => ?_⟩
        · cases hentry.symm.trans he
        · cases hu
          rw [hdeclares] at hnot
          cases hnot
      · refine ⟨none, ?_⟩
        rw [only_answers, Machine.storedKey?]
        simp only [hentry]
        rw [Eval.bind_ask, if_neg hdeclares]
        rfl

/-- A comparison in which no declared equality has a say answers. -/
theorem exists_answers_equal {a b : Value} (hab : w.heap.Undeclared a b) :
    ∃ t, (only m w).Answers (m.equal a b) t := by
  induction a, b using Value.part_induction₂ with
  | h a b ih =>
      cases a, b using Value.pair_cases with
      | records ty xs ty' ys =>
          rw [Machine.equal]
          by_cases hty : ty = ty'
          · subst hty
            rw [if_pos rfl]
            classical
            refine ⟨decide (List.Forall₂ (answered m w · ·) xs ys),
              .bind (.ask fun _ hw => hw ▸ hab.equality?_eq_none) ?_⟩
            refine answers_items (fun x hx y hy => only_answers_answered ?_) decide_eq_true_iff
            refine (ih _ _ (.field hx) (.field hy)).1 ?_
            exact hab.parts (.field hx) (.field hy) (absurd trivial) (absurd trivial)
          · rw [if_neg hty]
            exact ⟨_, .pure _⟩
      | lists xs s ys t =>
          rw [Machine.equal]
          classical
          refine ⟨decide (List.Forall₂ (answered m w · ·) xs ys), ?_⟩
          refine answers_items (fun x hx y hy => only_answers_answered ?_) decide_eq_true_iff
          exact (ih _ _ (.item hx) (.item hy)).1 (hab.parts (.item hx) (.item hy) id id)
      | maps xs ys =>
          rw [Machine.equal]
          have hheld : ∀ key : Value, ∃ found, (∃ e ∈ xs, e.1 = key) →
              (only m w).Answers (m.storedKey? ys key) found := by
            intro key
            by_cases hkey : ∃ e ∈ xs, e.1 = key
            · obtain ⟨e, he, rfl⟩ := hkey
              have hback : ∀ f ∈ ys, ∃ t, (only m w).Answers (m.equal f.1 e.1) t := fun f hf =>
                (ih _ _ (.key he) (.key hf)).2 (hab.parts (.key he) (.key hf) id id).symm
              obtain ⟨found, hfound⟩ := exists_answers_search hback
              exact ⟨found, fun _ => hfound⟩
            · exact ⟨none, fun h => absurd h hkey⟩
          choose held hheld using hheld
          classical
          refine ⟨_, answers_entries held (fun e he => hheld e.1 ⟨e, he, rfl⟩)
            (fun e he f hf => only_answers_answered ?_) decide_eq_true_iff⟩
          exact (ih _ _ (.value he) (.value hf)).1 (hab.parts (.value he) (.value hf) id id)
      | others a b hrecord hlist hmap =>
          rw [Machine.equal] <;> try assumption
          exact ⟨_, .pure _⟩

end Setting

/-- A comparison in which no declared equality has a say answers structural equality
and leaves the world alone. -/
theorem Machine.equal_of_undeclared (m : Machine) {w : World} {a b : Value} (ha : a.Proper)
    (hb : b.Proper) (hab : w.heap.Undeclared a b) : m.equal a b w = (.ok (same a b), w) :=
  Setting.only_answers.mp (Setting.only_answers_equal ha.keysApart hb.keysApart hab)

/-- Taking out a key that a map does not hold leaves the map as it is. -/
theorem Value.eraseEntry_of_entry? {key : Value} {entries : List (Value × Value)}
    (h : Value.entry? key entries = none) : Value.eraseEntry key entries = entries := by
  induction entries with
  | nil => rfl
  | cons e rest ih =>
      obtain ⟨hfirst, hrest⟩ := List.forall_mem_cons.mp (List.find?_eq_none.mp h)
      rw [eraseEntry, if_neg hfirst, ih (List.find?_eq_none.mpr hrest)]

/-- A key is looked for by structure alone if no declared equality has a say in its
comparison with the keys of the map. -/
theorem Machine.storedKey?_of_undeclared (m : Machine) {w : World} {entries : Entries}
    {key : Value} (hentries : (Value.map entries).Proper) (hkey : key.Proper)
    (h : w.heap.Undeclared (.map entries) key) :
    m.storedKey? entries key w = (.ok ((Value.entry? key entries).map fun _ => key), w) := by
  have hparts := hentries.keysApart.of_mem
  refine Setting.only_answers.mp (Setting.only_answers_search (fun e he => (hparts e he).1)
    hkey.keysApart fun e he => ?_)
  refine Setting.only_answers_equal (hparts e he).1 hkey.keysApart (h.imp_left fun hmap => ?_)
  rw [Bool.eq_false_iff] at hmap ⊢
  exact mt (Heap.declaresEquality_of_part (.key he) id) hmap

/-- **Without declared equalities, equality is the structural one.**  Unless two values
both hold a record whose type has a declared equality, comparing them answers structural
equality.  Unless a map and a key both hold such a record, the key is looked up, bound and
taken out by structure.  Neither changes anything, whatever the machine would answer. -/
theorem Machine.structural_of_undeclared (m : Machine) (w : World) :
    (∀ a b : Value, a.Proper → b.Proper → w.heap.Undeclared a b →
      m.equal a b w = (.ok (same a b), w)) ∧
    ∀ (entries : Entries) (key : Value), (Value.map entries).Proper → key.Proper →
      w.heap.Undeclared (.map entries) key →
        m.mapGet? entries key w = (.ok ((Value.entry? key entries).map Prod.snd), w) ∧
        m.mapContains entries key w = (.ok (Value.entry? key entries).isSome, w) ∧
        (∀ value, m.mapInsert entries key value w =
          (.ok (Value.insertEntry key value entries), w)) ∧
        m.mapRemove entries key w = (.ok (Value.eraseEntry key entries), w) := by
  refine ⟨fun a b ha hb hab => m.equal_of_undeclared ha hb hab, ?_⟩
  intro entries key hentries hkey h
  have hstored := m.storedKey?_of_undeclared hentries hkey h
  refine ⟨?_, ?_, fun value => ?_, ?_⟩
  · rw [mapGet?, Eval.bind_of_ok hstored]
    cases hentry : Value.entry? key entries with
    | none => rfl
    | some e =>
        show (Answer.ok ((Value.entry? key entries).map Prod.snd), w) = _
        rw [hentry]
  · rw [mapContains, Eval.bind_of_ok hstored, Option.isSome_map]
    rfl
  · rw [mapInsert, Eval.bind_of_ok hstored]
    cases Value.entry? key entries <;> rfl
  · rw [mapRemove, Eval.bind_of_ok hstored]
    cases hentry : Value.entry? key entries with
    | none =>
        rw [Value.eraseEntry_of_entry? hentry]
        rfl
    | some e => rfl

namespace Undeclared

/-- Two record types, of which only the first one has a declared equality. -/
def types : World where
  heap := { recordTypes := #[
    { name := .intern "P", fields := [.intern "x"], equality := some (.builtin (.core .equals)) },
    { name := .intern "Q", fields := [.intern "x"] }] }

/-- A map under a map that holds a record of the second type. -/
def nest (text : String) : Entries :=
  [(.map [(.record 1 [.str text], .nil)], .bool true)]

theorem proper_nest (text : String) : (Value.map (nest text)).Proper := by
  have hleaf : ∀ {v : Value}, (∀ entries, v ≠ .map entries) → (∀ x, ¬ Part x v) → v.Proper :=
    fun hmap hparts => .whole hmap fun x hx => absurd hx (hparts x)
  have hrecord : (Value.record 1 [.str text]).Proper := by
    refine .whole nofun fun x hx => ?_
    cases hx with
    | field hmem =>
        rw [List.mem_singleton.mp hmem]
        exact hleaf nofun nofun
  exact .insert .empty (.insert .empty hrecord (hleaf nofun nofun)) (hleaf nofun nofun)

/-- Two maps of one size under different keys are compared, and searched for each other,
without a call: the machine has no fuel. -/
theorem structural_of_undeclared_nest :
    types.heap.Undeclared (.map (nest "a")) (.map (nest "b")) ∧
    (run 0).equal (.map (nest "a")) (.map (nest "b")) types = (.ok false, types) ∧
    (run 0).mapGet? [(.map (nest "a"), .nil)] (.map (nest "a")) types =
      (.ok (some .nil), types) := by
  have hab : types.heap.Undeclared (.map (nest "a")) (.map (nest "b")) := .inl (by decide)
  obtain ⟨hequal, hmaps⟩ := (run 0).structural_of_undeclared types
  have hentries : (Value.map [(.map (nest "a"), .nil)]).Proper :=
    .insert .empty (proper_nest "a") (.whole nofun fun x hx => nomatch hx)
  have hkey : types.heap.Undeclared (.map [(.map (nest "a"), .nil)]) (.map (nest "a")) :=
    .inr (by decide)
  exact ⟨hab, hequal _ _ (proper_nest "a") (proper_nest "b") hab,
    (hmaps _ _ hentries (proper_nest "a") hkey).1⟩

end Undeclared

end Lisp
