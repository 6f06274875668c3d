import Lisp.Proofs.Scope.Evaluations

/-!
# Values on a machine that keeps the tables

Conversions, equality, hash, maps, iteration, member access and construction, in
the order of their definitions.  Each is given no more than the values that it
takes, so its statement names the reach of those, and every value that it makes is
put together from parts of them, from cells of the heap and from answers of the
machine.
-/

namespace Lisp

open Eval (Keeps)

/-! ### Parts of cells and maps -/

theorem Interface.reach_registered?_le (i : Interface) (key : List TypeTag) :
    reach (i.registered? key) ≤ reach i :=
  Nat.le_trans (reach_lookup_le i.impls key) (Nat.le_max_left _ _)

theorem Interface.reach_implementation?_le (i : Interface) (key : List TypeTag) :
    reach (i.implementation? key) ≤ reach i := by
  unfold Interface.implementation?
  cases hfound : i.registered? key with
  | some imp =>
      have hle := i.reach_registered?_le key
      rw [hfound] at hle
      exact hle
  | none =>
      show reach i.fallback ≤ max (reach i.impls) (max (reach i.fallback) (reach i.hook))
      omega

/-- What a record type has as a part is counted in the reach of the record types. -/
theorem Heap.Conforms.reach_part_le {h : Heap} (hh : h.Conforms) (ty : RecordTypeId)
    {part : RecordType → Option Value} (hpart : ∀ t, reach (part t) ≤ reach t) :
    reach (h.recordTypes[ty]?.bind part) ≤ h.types := by
  cases hty : h.recordTypes[ty]? with
  | none => exact Nat.zero_le _
  | some t =>
      have hcell : reach t ≤ h.types := Nat.le_trans (reach_cell_le hty) hh.recordTypes
      exact Nat.le_trans (hpart t) hcell

namespace Value

theorem reach_entry?_le (key : Value) (entries : Entries) :
    reach ( entry? key entries) ≤ reach entries := by
  cases hfound : entry? key entries with
  | none => exact Nat.zero_le _
  | some entry => exact reach_le_of_mem (List.mem_of_find?_eq_some hfound)

theorem reach_insertEntry_le (key value : Value) (entries : Entries) :
    reach (insertEntry key value entries) ≤ max (reach entries) (reach (key, value)) := by
  induction entries with
  | nil => simp [insertEntry]
  | cons entry rest ih =>
      rw [insertEntry]
      split
      · simp only [reach_cons]
        omega
      · simp only [reach_cons]
        omega

theorem reach_eraseEntry_le (key : Value) (entries : Entries) :
    reach (eraseEntry key entries) ≤ reach entries := by
  induction entries with
  | nil => exact Nat.zero_le _
  | cons entry rest ih =>
      rw [eraseEntry]
      split
      · simp only [reach_cons]
        omega
      · simp only [reach_cons]
        omega

end Value

namespace Eval.Keeps

variable {α : Type} [Reach α] {n : Nat}

theorem equality? (ty : RecordTypeId) : Keeps n (Eval.ask fun w => w.heap.equality? ty) :=
  .ask fun _ hw _ => hw.heap.reach_part_le ty fun _ => Nat.le_max_left _ _

theorem hash? (ty : RecordTypeId) : Keeps n (Eval.ask fun w => w.heap.hash? ty) :=
  .ask fun _ hw _ => hw.heap.reach_part_le ty fun _ => Nat.le_max_right _ _

theorem wrongConversion (v converted : Value) (target : String) :
    Keeps n (Machine.wrongConversion (α := α) v converted target) :=
  .seq (.shown _) fun _ => .showing fun _ => rfl

theorem toSymbol (v : Value) : Keeps n (Eval.toSymbol v) := by
  unfold Eval.toSymbol
  split
  · exact .pure (Nat.zero_le _)
  · split
    · exact .complain rfl
    · exact .pure (Nat.zero_le _)
  · exact .showing fun _ => rfl

theorem toKeyword (v : Value) : Keeps n (Eval.toKeyword v) := by
  unfold Eval.toKeyword
  split
  · exact .pure (Nat.zero_le _)
  · exact .pure (Nat.zero_le _)
  · exact .pure (Nat.zero_le _)
  · exact .showing fun _ => rfl

end Eval.Keeps

namespace Machine.KeepsTables

variable {m : Machine} (h : m.KeepsTables)
include h

/-! ### Conversions -/

theorem convert (i : CoreInterface) (target : String) (v : Value) :
    Keeps (reach v) (m.convert i target v) := by
  unfold Machine.convert
  refine .bind (.interface? _) fun found => ?_
  cases found with
  | none => exact .complain rfl
  | some interface =>
      dsimp only
      split
      · next imp himp =>
          have hle := interface.reach_implementation?_le [v.tag]
          rw [himp] at hle
          refine (h.call _ _).mono ?_
          simp only [reach_prod, reach_cons, reach_nil, reach_some] at hle ⊢
          omega
      · exact .seq (.typeName _) fun _ => .showing fun _ => rfl

theorem toBool (v : Value) : Keeps (reach v) (m.toBool v) := by
  unfold Machine.toBool
  split
  · exact .pure (Nat.zero_le _)
  · refine .bind (h.convert _ _ _) fun converted => ?_
    split
    · exact .pure (Nat.zero_le _)
    · exact .wrongConversion _ _ _

theorem toNum (v : Value) : Keeps (reach v) (m.toNum v) := by
  unfold Machine.toNum
  split
  · exact .pure (Nat.zero_le _)
  · refine .bind (h.convert _ _ _) fun converted => ?_
    split
    · exact .pure (Nat.zero_le _)
    · exact .wrongConversion _ _ _

theorem toStr (v : Value) : Keeps (reach v) (m.toStr v) := by
  unfold Machine.toStr
  split
  · exact .pure (Nat.zero_le _)
  · refine .bind (h.convert _ _ _) fun converted => ?_
    split
    · exact .pure (Nat.zero_le _)
    · exact .wrongConversion _ _ _

theorem toProc (v : Value) : Keeps (reach v) (m.toProc v) := by
  unfold Machine.toProc
  split
  · exact .pure (Nat.le_refl _)
  · refine .bind (h.convert _ _ _) fun converted => ?_
    split
    · exact .pure (Nat.le_max_right _ _)
    · exact .wrongConversion _ _ _

theorem toCallable (v : Value) : Keeps (reach v) (m.toCallable v) := by
  unfold Machine.toCallable
  refine .reading fun found => ?_
  cases found with
  | none => exact .seq (.typeName _) fun _ => .showing fun _ => rfl
  | some imp => exact h.toProc v

theorem toStrs (vs : List Value) : Keeps (reach vs) (m.toStrs vs) := by
  induction vs with
  | nil => exact .pure (Nat.zero_le _)
  | cons v rest ih =>
      refine .seq ((h.toStr v).mono (Nat.le_max_left _ _)) fun text => ?_
      exact .seq (ih.mono (Nat.le_max_right _ _)) fun texts => .pure (by simp)

theorem toNums (vs : List Value) : Keeps (reach vs) (m.toNums vs) := by
  induction vs with
  | nil => exact .pure (Nat.zero_le _)
  | cons v rest ih =>
      refine .seq ((h.toNum v).mono (Nat.le_max_left _ _)) fun number => ?_
      exact .seq (ih.mono (Nat.le_max_right _ _)) fun numbers => .pure (by simp)

theorem dispatchBool (i : CoreInterface) (args : List Value) :
    Keeps (reach args) (m.dispatchBool i args) :=
  .bind (h.dispatch i args) fun answer => (h.toBool answer).mono (Nat.le_max_right _ _)

/-! ### Equality, maps and hash -/

section

omit h

/-- Sequences are compared up to the first difference. -/
theorem equalItems_of_items {xs ys : List Value}
    (hitems : ∀ x ∈ xs, ∀ y ∈ ys, Keeps (reach (x, y)) (m.equal x y)) :
    Keeps (reach (xs, ys)) (m.equalItems xs ys) := by
  induction xs generalizing ys with
  | nil =>
      rw [Machine.equalItems_nil]
      exact .pure (Nat.zero_le _)
  | cons x xs ih =>
      cases ys with
      | nil =>
          rw [Machine.equalItems_nil_right]
          exact .pure (Nat.zero_le _)
      | cons y ys =>
          have hhead := hitems x List.mem_cons_self y List.mem_cons_self
          have hrest := ih fun x' hx y' hy =>
            hitems x' (List.mem_cons_of_mem x hx) y' (List.mem_cons_of_mem y hy)
          rw [Machine.equalItems]
          simp only [reach_prod, reach_cons] at hhead hrest ⊢
          refine .seq (hhead.mono (by omega)) fun same => ?_
          split
          · exact hrest.mono (by omega)
          · exact .pure (Nat.zero_le _)

/-- The lengths are compared first. -/
theorem equalLists_of_items {xs ys : List Value}
    (hitems : ∀ x ∈ xs, ∀ y ∈ ys, Keeps (reach (x, y)) (m.equal x y)) :
    Keeps (reach (xs, ys))
      (if xs.length = ys.length then m.equalItems xs ys else return false) := by
  split
  · exact equalItems_of_items hitems
  · exact .pure (Nat.zero_le _)

/-- The scan finds a key that is stored. -/
theorem scan_of_keys {entries : Entries} {key : Value}
    (hkeys : ∀ e ∈ entries, Keeps (reach (e.1, key)) (m.equal e.1 key)) :
    Keeps (reach (entries, key)) (m.scan entries key) := by
  induction entries with
  | nil =>
      rw [Machine.scan]
      exact .pure (Nat.zero_le _)
  | cons e rest ih =>
      obtain ⟨stored, value⟩ := e
      have hhead := hkeys _ List.mem_cons_self
      have hrest := ih fun e he => hkeys e (List.mem_cons_of_mem _ he)
      rw [Machine.scan]
      simp only [reach_prod, reach_cons] at hhead hrest ⊢
      refine .seq (hhead.mono (by omega)) fun same => ?_
      split
      · refine .pure ?_
        simp only [reach_some]
        omega
      · exact hrest.mono (by omega)

/-- The search finds the key itself, or one that is stored. -/
theorem storedKey?_of_keys {entries : Entries} {key : Value}
    (hkeys : ∀ e ∈ entries, Keeps (reach (e.1, key)) (m.equal e.1 key)) :
    Keeps (reach (entries, key)) (m.storedKey? entries key) := by
  rw [Machine.storedKey?]
  cases Value.entry? key entries with
  | some entry => exact .pure (Nat.le_max_right _ _)
  | none =>
      refine .reading fun declared => ?_
      split
      · exact scan_of_keys hkeys
      · exact .pure (Nat.zero_le _)

/-- Each entry is compared with the one that the other map has under its key. -/
theorem equalEntries_of_parts {xs ys : Entries}
    (hkeys : ∀ e ∈ xs, ∀ f ∈ ys, Keeps (reach (f.1, e.1)) (m.equal f.1 e.1))
    (hvalues : ∀ e ∈ xs, ∀ f ∈ ys, Keeps (reach (e.2, f.2)) (m.equal e.2 f.2)) :
    Keeps (reach (xs, ys)) (m.equalEntries xs ys) := by
  induction xs with
  | nil =>
      rw [Machine.equalEntries]
      exact .pure (Nat.zero_le _)
  | cons e rest ih =>
      obtain ⟨key, value⟩ := e
      have hkey := storedKey?_of_keys (hkeys _ List.mem_cons_self)
      have hrest := ih (fun e he => hkeys e (List.mem_cons_of_mem _ he))
        fun e he => hvalues e (List.mem_cons_of_mem _ he)
      rw [Machine.equalEntries]
      simp only [reach_prod, reach_cons] at hkey hrest ⊢
      refine .bind (hkey.mono (by omega)) fun found => ?_
      cases found with
      | none => exact .pure (Nat.zero_le _)
      | some stored =>
          dsimp only
          split
          · exact .pure (Nat.zero_le _)
          · next other hother =>
              have hvalue := hvalues _ List.mem_cons_self other (List.mem_of_find?_eq_some hother)
              have hle := Value.reach_entry?_le stored ys
              rw [hother] at hle
              obtain ⟨otherKey, otherValue⟩ := other
              simp only [reach_some, reach_prod] at hle hvalue
              refine .seq (hvalue.mono (by omega)) fun same => ?_
              split
              · exact hrest.mono (by omega)
              · exact .pure (Nat.zero_le _)

end

/-- Records of one type are compared by the equality that is declared for it, or field by
field. -/
theorem equalRecords_of_fields {ty ty' : RecordTypeId} {xs ys : List Value}
    (hfields : ∀ x ∈ xs, ∀ y ∈ ys, Keeps (reach (x, y)) (m.equal x y)) :
    Keeps (reach (Value.record ty xs, Value.record ty' ys))
      (m.equal (.record ty xs) (.record ty' ys)) := by
  rw [Machine.equal]
  split
  · refine .bind (.equality? _) fun declared => ?_
    cases declared with
    | some imp =>
        refine .bind ((h.call _ _).mono ?_) fun answer => (h.toBool answer).mono ?_
        · simp only [reach_prod, reach_cons, reach_nil, reach_some]
          omega
        · exact Nat.le_max_right _ _
    | none =>
        refine (equalLists_of_items hfields).mono ?_
        simp only [reach_prod, reach_record]
        omega
  · exact .pure (Nat.zero_le _)

theorem equal (a b : Value) : Keeps (reach (a, b)) (m.equal a b) := by
  induction a, b using Value.part_induction₂ with
  | h a b ih =>
      cases a, b using Value.pair_cases with
      | records ty xs ty' ys =>
          exact h.equalRecords_of_fields fun x hx y hy => (ih x y (.field hx) (.field hy)).1
      | lists xs s ys t =>
          rw [Machine.equal]
          simp only [reach_prod, reach_list]
          exact equalLists_of_items fun x hx y hy => (ih x y (.item hx) (.item hy)).1
      | maps xs ys =>
          rw [Machine.equal]
          simp only [reach_prod, reach_map]
          split
          · refine equalEntries_of_parts (fun e he f hf => ?_) fun e he f hf => ?_
            · exact (ih e.1 f.1 (.key he) (.key hf)).2
            · exact (ih e.2 f.2 (.value he) (.value hf)).1
          · exact .pure (Nat.zero_le _)
      | others a b hrecord hlist hmap =>
          rw [Machine.equal] <;> try assumption
          exact .pure (Nat.zero_le _)

theorem storedKey? (entries : Entries) (key : Value) :
    Keeps (reach (entries, key)) (m.storedKey? entries key) :=
  storedKey?_of_keys fun e _ => h.equal e.1 key

theorem mapGet? (entries : Entries) (key : Value) :
    Keeps (reach (entries, key)) (m.mapGet? entries key) := by
  refine .bind (h.storedKey? entries key) fun found => ?_
  cases found with
  | none => exact .pure (Nat.zero_le _)
  | some stored =>
      refine .pure ?_
      have hentry := Value.reach_entry?_le stored entries
      have hsnd := reach_map_option_le (o := Value.entry? stored entries) (f := Prod.snd)
        fun entry => Nat.le_max_right _ _
      simp only [reach_prod]
      omega

theorem mapContains (entries : Entries) (key : Value) :
    Keeps (reach (entries, key)) (m.mapContains entries key) :=
  .map (h.storedKey? entries key) fun _ => Nat.zero_le _

theorem mapInsert (entries : Entries) (key value : Value) :
    Keeps (reach (entries, key, value)) (m.mapInsert entries key value) := by
  refine .bind ((h.storedKey? entries key).mono ?_) fun stored => .pure ?_
  · simp only [reach_prod]
    omega
  · have hkey := reach_getD_le stored key
    have hinsert := Value.reach_insertEntry_le (stored.getD key) value entries
    simp only [reach_prod] at hinsert ⊢
    omega

theorem mapRemove (entries : Entries) (key : Value) :
    Keeps (reach (entries, key)) (m.mapRemove entries key) := by
  refine .bind (h.storedKey? entries key) fun found => ?_
  cases found with
  | none =>
      refine .pure ?_
      simp only [reach_prod]
      omega
  | some stored =>
      refine .pure ?_
      have herase := Value.reach_eraseEntry_le stored entries
      simp only [reach_prod]
      omega

theorem mapInsertAll (entries : Entries) (vs : List Value) :
    Keeps (reach (entries, vs)) (m.mapInsertAll entries vs) := by
  fun_induction m.mapInsertAll entries vs with
  | case1 entries key value rest ih =>
      simp only [reach_prod, reach_cons] at ih ⊢
      refine .bind ((h.mapInsert entries key value).mono ?_) fun more => (ih more).mono ?_
      · simp only [reach_prod]
        omega
      · omega
  | case2 entries vs hpair => exact .pure (Nat.le_max_left _ _)

theorem mapInsertPairs (entries : Entries) (vs : List Value) :
    Keeps (reach (entries, vs)) (m.mapInsertPairs entries vs) := by
  fun_induction m.mapInsertPairs entries vs with
  | case1 entries => exact .pure (Nat.le_max_left _ _)
  | case2 entries key value source rest ih =>
      simp only [reach_prod, reach_cons, reach_list, reach_nil] at ih ⊢
      refine .bind ((h.mapInsert entries key value).mono ?_) fun more => (ih more).mono ?_
      · simp only [reach_prod]
        omega
      · omega
  | case3 entries other rest hpair => exact .showing fun _ => rfl

theorem mapRemoveAll (entries : Entries) (keys : List Value) :
    Keeps (reach (entries, keys)) (m.mapRemoveAll entries keys) := by
  induction keys generalizing entries with
  | nil => exact .pure (Nat.le_max_left _ _)
  | cons key rest ih =>
      simp only [reach_prod, reach_cons] at ih ⊢
      refine .bind ((h.mapRemove entries key).mono ?_) fun fewer => (ih fewer).mono ?_
      · simp only [reach_prod]
        omega
      · omega

theorem anyEqual (needle : Value) (items : List Value) :
    Keeps (reach (needle, items)) (m.anyEqual needle items) := by
  induction items with
  | nil => exact .pure (Nat.zero_le _)
  | cons item rest ih =>
      simp only [reach_prod, reach_cons] at ih ⊢
      refine .seq ((h.equal item needle).mono ?_) fun same => ?_
      · simp only [reach_prod]
        omega
      · split
        · exact .pure (Nat.zero_le _)
        · exact ih.mono (by omega)

omit h in
/-- A hash is a number, so it reaches no record type. -/
theorem hashItems_of_items {items : List Value}
    (hitems : ∀ x ∈ items, Keeps (reach x) (m.hashOf x)) (state : UInt64) :
    Keeps (reach items) (m.hashItems state items) := by
  induction items generalizing state with
  | nil => exact .pure (Nat.zero_le _)
  | cons item rest ih =>
      have hhead := hitems item List.mem_cons_self
      have hrest := ih fun x hx => hitems x (List.mem_cons_of_mem item hx)
      rw [Machine.hashItems, reach_cons]
      refine .seq (hhead.mono (Nat.le_max_left _ _)) fun hashed => ?_
      exact (hrest _).mono (Nat.le_max_right _ _)

theorem hashOf (v : Value) : Keeps (reach v) (m.hashOf v) := by
  induction v using Value.part_induction with
  | h v ih =>
      cases v with
      | record ty fields =>
          rw [Machine.hashOf]
          refine .bind (.hash? _) fun declared => ?_
          cases declared with
          | some imp =>
              refine .bind ((h.call _ _).mono ?_) fun answer => ?_
              · simp only [reach_prod, reach_cons, reach_nil, reach_some]
                omega
              · exact .map ((h.toNum answer).mono (Nat.le_max_right _ _)) fun _ => Nat.zero_le _
          | none =>
              refine (hashItems_of_items (fun x hx => ih x (.field hx)) _).mono ?_
              simp only [reach_record]
              omega
      | list items source =>
          rw [Machine.hashOf, reach_list]
          exact hashItems_of_items (fun x hx => ih x (.item hx)) _
      | _ => exact .pure (Nat.zero_le _)

/-! ### Elements, members and constructors -/

theorem iterateByInterface (v : Value) : Keeps (reach v) (m.iterateByInterface v) := by
  unfold Machine.iterateByInterface
  refine .reading fun implemented => ?_
  split
  · refine .bind ((h.unfold v []).mono (by simp)) fun elements => ?_
    split
    · next items source => exact .pure (by simp only [reach_list]; omega)
    · exact .pure (Nat.zero_le _)
  · exact .seq (.typeName _) fun _ => .showing fun _ => rfl

theorem iterate (v : Value) : Keeps (reach v) (m.iterate v) := by
  unfold Machine.iterate
  split
  · exact .pure (Nat.zero_le _)
  · next items source => exact .pure (Nat.le_of_eq (reach_list items source).symm)
  · next entries =>
      refine .pure ?_
      rw [reach_map]
      refine reach_map_le fun entry _ => ?_
      obtain ⟨key, value⟩ := entry
      simp
  · next text =>
      refine .pure (reach_le_iff.mpr fun item hitem => ?_)
      obtain ⟨c, -, rfl⟩ := List.mem_map.mp hitem
      exact Nat.zero_le _
  · next ty fields =>
      refine .reading fun found => ?_
      cases found with
      | none => exact .pure (by simp only [reach_record]; omega)
      | some imp => exact h.iterateByInterface _
  · exact h.iterateByInterface _

theorem iterateAll (vs : List Value) : Keeps (reach vs) (m.iterateAll vs) := by
  induction vs with
  | nil => exact .pure (Nat.zero_le _)
  | cons v rest ih =>
      simp only [reach_cons]
      refine .bind ((h.iterate v).mono (Nat.le_max_left _ _)) fun items => ?_
      refine .map (ih.mono (by omega)) fun others => ?_
      simp only [reach_append]
      omega

omit h in
theorem errorPart (serial : Nat) (message : String) (data : Value) (kind name : Option String) :
    Keeps (reach data) (Machine.errorPart serial message data kind name) := by
  unfold Machine.errorPart
  split
  · exact .pure (Nat.zero_le _)
  · exact .pure (Nat.le_refl _)
  · refine .pure ?_
    cases kind <;> exact Nat.zero_le _
  · refine .ask fun w _ _ => ?_
    split
    · rw [reach_ofList]
      refine reach_le_iff.mpr fun item hitem => ?_
      obtain ⟨text, -, rfl⟩ := List.mem_map.mp hitem
      exact Nat.zero_le _
    · exact Nat.zero_le _
  · exact .pure (Nat.zero_le _)

omit h in
/-- An element that a position selects, if it selects one. -/
theorem reach_selected_le (items : List Value) (position : Option Nat) :
    reach ((position.bind fun i => items[i]?).getD .nil) ≤ reach items := by
  cases position with
  | none => exact Nat.zero_le _
  | some i =>
      have hitem := reach_getElem?_le items i
      have hdefault := reach_getD_le items[i]? .nil
      simp only [reach_value_nil] at hdefault
      exact Nat.le_trans hdefault (Nat.max_le.mpr ⟨hitem, Nat.zero_le _⟩)

omit h in
theorem recordField (ty : RecordTypeId) (fields : List Value) (name : String) :
    Keeps (reach fields) (Machine.recordField ty fields name) :=
  .ask fun _ _ hn => Nat.le_trans (reach_selected_le fields _) hn

omit h in
theorem noMember {n : Nat} (target key : Value) : Keeps n (Machine.noMember target key) :=
  .seq (.typeName _) fun _ => .showing fun _ => rfl

theorem get (target key : Value) : Keeps (reach (target, key)) (m.get target key) := by
  have hfields : ∀ ty fields name, Keeps (reach (Value.record ty fields, key))
      (Machine.recordField ty fields name) := fun ty fields name =>
    (recordField ty fields name).mono (by simp only [reach_prod, reach_record]; omega)
  unfold Machine.get
  split
  · exact .pure (Nat.zero_le _)
  · refine .map ((h.mapGet? _ _).mono ?_) fun found => ?_
    · simp
    · have hfound := reach_getD_le found .nil
      simp only [reach_value_nil] at hfound
      omega
  · next items source n =>
      refine .pure (Nat.le_trans (reach_selected_le items _) ?_)
      simp
  · next text n =>
      refine .pure ?_
      cases indexWithin? n text.toList.length with
      | none => exact Nat.zero_le _
      | some i => cases hchar : text.toList[i]? <;> simp [hchar, Value.ofChar]
  · exact hfields _ _ _
  · exact hfields _ _ _
  · exact hfields _ _ _
  · next ty fields n =>
      refine .pure (Nat.le_trans (reach_selected_le fields _) ?_)
      simp only [reach_prod, reach_record]
      omega
  · next serial message data kind key =>
      exact (errorPart _ _ _ _ _).mono (Nat.le_max_left _ _)
  · split
    · refine .ask fun w _ _ => ?_
      rw [reach_ofList]
      refine reach_le_iff.mpr fun item hitem => ?_
      obtain ⟨s, -, rfl⟩ := List.mem_map.mp hitem
      exact Nat.zero_le _
    · exact noMember _ _
  · exact noMember _ _

theorem member (target key : Value) : Keeps (reach (target, key)) (m.member target key) := by
  unfold Machine.member
  split
  · next entries s =>
      refine .pure ?_
      rw [reach_prod, reach_map]
      generalize hcandidates : List.findSome? _ _ = found
      cases found with
      | none => exact Nat.zero_le _
      | some v =>
          obtain ⟨candidate, -, hentry⟩ := List.exists_of_findSome?_eq_some hcandidates
          obtain ⟨entry, hfound, rfl⟩ := Option.map_eq_some_iff.mp hentry
          have hle := Value.reach_entry?_le candidate entries
          rw [hfound] at hle
          have hsnd : reach entry.2 ≤ reach entry := Nat.le_max_right _ _
          simp only [reach_some, Option.getD_some] at hle ⊢
          omega
  · exact h.get _ _

omit h in
theorem single (tag : TypeTag) (args : List Value) :
    Keeps (reach args) (Machine.single tag args) := by
  unfold Machine.single
  split
  · exact .pure (by simp)
  · exact .seq (.typeName _) fun _ => .complain rfl

theorem errorMessage (args : List Value) : Keeps (reach args) (m.errorMessage args) := by
  unfold Machine.errorMessage
  split
  · exact .pure (Nat.zero_le _)
  · exact (h.toStr _).mono (by simp only [reach_cons]; omega)

omit h in
/-- The argument at a position, nil if there is none. -/
theorem reach_argument_le (args : List Value) (i : Nat) :
    reach ((args[i]?).getD .nil) ≤ reach args :=
  reach_selected_le args (some i)

theorem construct (tag : TypeTag) (args : List Value) :
    Keeps (reach (tag, args)) (m.construct tag args) := by
  have hsingle : Keeps (reach (tag, args)) (Machine.single tag args) :=
    (single tag args).mono (Nat.le_max_right _ _)
  unfold Machine.construct
  cases tag with
  | nil => exact .pure (Nat.zero_le _)
  | bool =>
      refine hsingle.bind fun v => ?_
      exact .map ((h.toBool v).mono (Nat.le_max_right _ _)) fun _ => Nat.zero_le _
  | num =>
      refine hsingle.bind fun v => ?_
      exact .map ((h.toNum v).mono (Nat.le_max_right _ _)) fun _ => Nat.zero_le _
  | str => exact .map ((h.toStrs args).mono (Nat.le_max_right _ _)) fun _ => Nat.zero_le _
  | sym => exact hsingle.bind fun v => .map (.toSymbol v) fun _ => Nat.zero_le _
  | keyword => exact hsingle.bind fun v => .map (.toKeyword v) fun _ => Nat.zero_le _
  | list => exact .pure (by simp only [reach_ofList, reach_prod]; omega)
  | map =>
      dsimp only
      split
      · refine .map ((h.mapInsertAll [] args).mono ?_) fun entries => ?_
        · simp only [reach_prod, reach_nil]
          omega
        · simp only [reach_map]
          omega
      · exact .complain rfl
  | proc => exact hsingle.bind fun v => (h.toProc v).mono (Nat.le_max_right _ _)
  | interface => exact .complain rfl
  | type => exact .map hsingle fun v => Nat.le_trans (reach_tag_le v) (Nat.le_max_right _ _)
  | error =>
      refine .seq ((h.errorMessage args).mono (Nat.le_max_right _ _)) fun message => ?_
      exact .newError (Nat.le_trans (reach_argument_le args 1) (Nat.le_max_right _ _))
  | record ty =>
      refine .reading fun fields => ?_
      split
      · exact .pure (by simp)
      · exact .seq (.typeName _) fun _ => .complain rfl

end Machine.KeepsTables

end Lisp
