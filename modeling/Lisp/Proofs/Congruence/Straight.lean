import Lisp.Proofs.Congruence
import Lisp.Proofs.Equality.Declared

/-!
# Evaluations that only ask and request

Conversions, declared equality and hash, the elements and the members of values change
nothing themselves and stop no failure: each of them is a sequence of questions to the
world and of requests to the machine, and passes on whatever a request comes to
(`Machine.Straight`).  The requests are of one kind, calls for most of them and the
elements of a sequence for those that iterate.

There is one statement per definition, and each is the walk through that definition.  For
the mutual recursions of `equal` and of `hashOf` a walk starts from what it needs of the
parts of the values, and an induction on parts puts the walks together.  What holds of
evaluations put together in sequence follows for all of them.
-/

namespace Lisp

/-- A call and what a call goes on with. -/
def Request.IsCall (request : Request) : Prop :=
  ∃ source callee args, request = .apply source callee args

/-- A turn through a sequence and what it goes on with. -/
def Request.IsUnfolding (request : Request) : Prop :=
  ∃ sequence taken, request = .unfold sequence taken

namespace Machine

/-- On every machine the evaluation is a sequence of questions and of requests of the
kind, which ends in a value or in a complaint of its own. -/
inductive Straight (R : Request → Prop) : {α : Type} → (Machine → Eval α) → Prop
  | pure {α : Type} (a : α) : Straight R fun _ => Pure.pure a
  | fail {α : Type} {f : Failure} (hf : f.IsFresh) : Straight R fun _ => Eval.fail (α := α) f
  | ask {α : Type} {view : World → α}
      (hview : ∀ w standing, view (w.elsewhere standing) = view w) :
      Straight R fun _ => Eval.ask view
  | request (r : Request) (hr : R r) : Straight R fun m => m r
  | bind {α β : Type} {x : Machine → Eval α} {k : α → Machine → Eval β} (hx : Straight R x)
      (hk : ∀ a, Straight R (k a)) : Straight R fun m => x m >>= fun a => k a m

namespace Straight

variable {R : Request → Prop} {α β : Type}

/-- A computation on the value of an evaluation. -/
theorem map {x : Machine → Eval α} (g : α → β) (hx : Straight R x) :
    Straight R fun m => x m >>= fun a => Pure.pure (g a) :=
  .bind hx fun a => .pure (g a)

/-- A failure that shows a value. -/
theorem showing (v : Value) {wording : String → Failure} (h : ∀ s, (wording s).IsFresh) :
    Straight R fun _ => Eval.failShowing (α := α) v wording :=
  .bind (x := fun _ => Eval.shown v) (k := fun s _ => Eval.fail (wording s))
    (.ask fun _ _ => rfl) fun s => .fail (h s)

/-! ### Conversions -/

/-- The complaint about a conversion that gave a value of another type. -/
theorem wrongConversion (v converted : Value) (target : String) :
    Straight R fun _ => Machine.wrongConversion (α := α) v converted target :=
  .bind (.ask fun _ _ => rfl) fun _ => .showing v fun _ => ⟨rfl, rfl⟩

/-- The value of a call that no text is responsible for. -/
theorem call (callee : Value) (args : List Value) :
    Straight Request.IsCall fun m => m.call callee args :=
  .request _ ⟨none, callee, args, rfl⟩

/-- A conversion through an interface. -/
theorem convert (i : CoreInterface) (target : String) (v : Value) :
    Straight Request.IsCall fun m => m.convert i target v := by
  unfold Machine.convert
  refine .bind (.ask fun _ _ => rfl) fun found => ?_
  cases found with
  | none => exact .fail ⟨rfl, rfl⟩
  | some interface =>
      dsimp only
      split
      · exact call _ _
      · refine .bind (.ask fun _ _ => rfl) fun _ => ?_
        exact .showing v fun _ => ⟨rfl, rfl⟩

/-- The truth of a value. -/
theorem toBool (v : Value) : Straight Request.IsCall fun m => m.toBool v := by
  unfold Machine.toBool
  split
  · exact .pure _
  · refine .bind (convert _ _ _) fun converted => ?_
    split
    · exact .pure _
    · exact wrongConversion _ _ _

/-- The number of a value. -/
theorem toNum (v : Value) : Straight Request.IsCall fun m => m.toNum v := by
  unfold Machine.toNum
  split
  · exact .pure _
  · refine .bind (convert _ _ _) fun converted => ?_
    split
    · exact .pure _
    · exact wrongConversion _ _ _

/-- The text of a value. -/
theorem toStr (v : Value) : Straight Request.IsCall fun m => m.toStr v := by
  unfold Machine.toStr
  split
  · exact .pure _
  · refine .bind (convert _ _ _) fun converted => ?_
    split
    · exact .pure _
    · exact wrongConversion _ _ _

/-- The procedure of a value. -/
theorem toProc (v : Value) : Straight Request.IsCall fun m => m.toProc v := by
  unfold Machine.toProc
  split
  · exact .pure _
  · refine .bind (convert _ _ _) fun converted => ?_
    split
    · exact .pure _
    · exact wrongConversion _ _ _

/-- The procedure of a value in call position. -/
theorem toCallable (v : Value) : Straight Request.IsCall fun m => m.toCallable v := by
  unfold Machine.toCallable
  refine .bind (.ask fun _ _ => rfl) fun found => ?_
  cases found with
  | none =>
      refine .bind (.ask fun _ _ => rfl) fun _ => ?_
      exact .showing v fun _ => ⟨rfl, rfl⟩
  | some imp => exact toProc v

/-- The texts of several values. -/
theorem toStrs (vs : List Value) : Straight Request.IsCall fun m => m.toStrs vs := by
  induction vs with
  | nil => exact .pure _
  | cons v rest ih => exact .bind (toStr v) fun text => .map (text :: ·) ih

/-- The numbers of several values. -/
theorem toNums (vs : List Value) : Straight Request.IsCall fun m => m.toNums vs := by
  induction vs with
  | nil => exact .pure _
  | cons v rest ih => exact .bind (toNum v) fun number => .map (number :: ·) ih

/-- The truth of what an interface answers. -/
theorem dispatchBool (i : CoreInterface) (args : List Value) :
    Straight Request.IsCall fun m => m.dispatchBool i args :=
  .bind (call _ args) fun answer => toBool answer

/-! ### Equality, maps and hash -/

/-- Equality of two sequences, if that of their elements is straight. -/
theorem equalItems_of_items {xs ys : List Value}
    (hitems : ∀ x ∈ xs, ∀ y ∈ ys, Straight Request.IsCall fun m => m.equal x y) :
    Straight Request.IsCall fun m => m.equalItems xs ys := by
  induction xs generalizing ys with
  | nil =>
      simp only [Machine.equalItems_nil]
      exact .pure _
  | cons x xs ih =>
      cases ys with
      | nil =>
          simp only [Machine.equalItems_nil_right]
          exact .pure _
      | cons y ys =>
          simp only [Machine.equalItems]
          refine .bind (hitems x List.mem_cons_self y List.mem_cons_self) fun same => ?_
          split
          · refine ih fun x' hx y' hy => ?_
            exact hitems x' (List.mem_cons_of_mem x hx) y' (List.mem_cons_of_mem y hy)
          · exact .pure _

/-- Equality of two sequences is decided by their lengths first. -/
theorem equalLists_of_items {xs ys : List Value}
    (hitems : ∀ x ∈ xs, ∀ y ∈ ys, Straight Request.IsCall fun m => m.equal x y) :
    Straight Request.IsCall fun m =>
      if xs.length = ys.length then m.equalItems xs ys else return false := by
  by_cases hlength : xs.length = ys.length
  · simp only [hlength, if_true]
    exact equalItems_of_items hitems
  · simp only [hlength, if_false]
    exact .pure _

/-- Equality of two records, if that of their fields is straight: they are of one type or
not, and the type has a declared equality or not. -/
theorem equalRecords_of_fields {ty ty' : RecordTypeId} {xs ys : List Value}
    (hfields : ∀ x ∈ xs, ∀ y ∈ ys, Straight Request.IsCall fun m => m.equal x y) :
    Straight Request.IsCall fun m => m.equal (.record ty xs) (.record ty' ys) := by
  by_cases htype : ty = ty'
  · simp only [Machine.equal, htype, if_true]
    refine .bind (.ask fun _ _ => rfl) fun declared => ?_
    cases declared with
    | some imp => exact .bind (call _ _) fun answer => toBool answer
    | none => exact equalLists_of_items hfields
  · simp only [Machine.equal, htype, if_false]
    exact .pure _

/-- The scan for a key, if the comparisons with the stored keys are straight. -/
theorem scan_of_keys {entries : Entries} {key : Value}
    (hkeys : ∀ e ∈ entries, Straight Request.IsCall fun m => m.equal e.1 key) :
    Straight Request.IsCall fun m => m.scan entries key := by
  induction entries with
  | nil =>
      simp only [Machine.scan]
      exact .pure _
  | cons e rest ih =>
      obtain ⟨stored, value⟩ := e
      simp only [Machine.scan]
      refine .bind (hkeys _ List.mem_cons_self) fun same => ?_
      split
      · exact .pure _
      · exact ih fun e he => hkeys e (List.mem_cons_of_mem _ he)

/-- The search for a key, which scans only where the structure has not found it. -/
theorem storedKey?_of_keys {entries : Entries} {key : Value}
    (hkeys : ∀ e ∈ entries, Straight Request.IsCall fun m => m.equal e.1 key) :
    Straight Request.IsCall fun m => m.storedKey? entries key := by
  simp only [Machine.storedKey?]
  cases Value.entry? key entries with
  | some entry => exact .pure _
  | none =>
      refine .bind (.ask fun _ _ => rfl) fun declared => ?_
      split
      · exact scan_of_keys hkeys
      · exact .pure _

/-- Equality of two maps, entry by entry, if that of their keys and of their values is
straight. -/
theorem equalEntries_of_parts {xs ys : Entries}
    (hkeys : ∀ e ∈ xs, ∀ f ∈ ys, Straight Request.IsCall fun m => m.equal f.1 e.1)
    (hvalues : ∀ e ∈ xs, ∀ f ∈ ys, Straight Request.IsCall fun m => m.equal e.2 f.2) :
    Straight Request.IsCall fun m => m.equalEntries xs ys := by
  induction xs with
  | nil =>
      simp only [Machine.equalEntries]
      exact .pure _
  | cons e rest ih =>
      obtain ⟨key, value⟩ := e
      simp only [Machine.equalEntries]
      refine .bind (storedKey?_of_keys (hkeys _ List.mem_cons_self)) fun found => ?_
      cases found with
      | none => exact .pure _
      | some stored =>
          dsimp only
          split
          · exact .pure _
          · next other hother =>
              have hmem : other ∈ ys := List.mem_of_find?_eq_some hother
              refine .bind (hvalues _ List.mem_cons_self other hmem) fun same => ?_
              split
              · refine ih (fun e he => ?_) fun e he => ?_
                · exact hkeys e (List.mem_cons_of_mem _ he)
                · exact hvalues e (List.mem_cons_of_mem _ he)
              · exact .pure _

/-- Equality of two values. -/
theorem equal (a b : Value) : Straight Request.IsCall fun m => m.equal a b := by
  induction a, b using Value.part_induction₂ with
  | h a b ih =>
      cases a, b using Value.pair_cases with
      | records ty xs ty' ys =>
          exact equalRecords_of_fields fun x hx y hy => (ih x y (.field hx) (.field hy)).1
      | lists xs s ys t =>
          simp only [Machine.equal]
          exact equalLists_of_items fun x hx y hy => (ih x y (.item hx) (.item hy)).1
      | maps xs ys =>
          by_cases hlength : xs.length = ys.length
          · simp only [Machine.equal, hlength, if_true]
            refine equalEntries_of_parts (fun e he f hf => ?_) fun e he f hf => ?_
            · exact (ih e.1 f.1 (.key he) (.key hf)).2
            · exact (ih e.2 f.2 (.value he) (.value hf)).1
          · simp only [Machine.equal, hlength, if_false]
            exact .pure _
      | others a b hrecord hlist hmap =>
          have hsame : ∀ m : Machine, m.equal a b = Pure.pure (a.same b) := by
            intro m
            rw [Machine.equal] <;> assumption
          simp only [hsame]
          exact .pure _

/-- The key under which a map holds a key. -/
theorem storedKey? (entries : Entries) (key : Value) :
    Straight Request.IsCall fun m => m.storedKey? entries key :=
  storedKey?_of_keys fun e _ => equal e.1 key

/-- The value of a key in a map. -/
theorem mapGet? (entries : Entries) (key : Value) :
    Straight Request.IsCall fun m => m.mapGet? entries key := by
  refine .bind (storedKey? entries key) fun found => ?_
  cases found with
  | none => exact .pure _
  | some stored => exact .pure _

/-- A map with one more entry. -/
theorem mapInsert (entries : Entries) (key value : Value) :
    Straight Request.IsCall fun m => m.mapInsert entries key value :=
  .map _ (storedKey? entries key)

/-- A map without the entry of a key. -/
theorem mapRemove (entries : Entries) (key : Value) :
    Straight Request.IsCall fun m => m.mapRemove entries key := by
  refine .bind (storedKey? entries key) fun found => ?_
  cases found with
  | none => exact .pure _
  | some stored => exact .pure _

/-- A map with more entries, given as keys and values in turn. -/
theorem mapInsertAll (entries : Entries) (vs : List Value) :
    Straight Request.IsCall fun m => m.mapInsertAll entries vs := by
  induction entries, vs using Machine.mapInsertAll.induct with
  | case1 entries key value rest ih => exact .bind (mapInsert entries key value) fun more => ih more
  | case2 vs entries hpair =>
      have hnone : ∀ m : Machine, m.mapInsertAll entries vs = Pure.pure entries := fun m => by
        rw [Machine.mapInsertAll]
        assumption
      simp only [hnone]
      exact .pure _

/-- A map with more entries, given as two-element lists. -/
theorem mapInsertPairs (entries : Entries) (vs : List Value) :
    Straight Request.IsCall fun m => m.mapInsertPairs entries vs := by
  induction entries, vs using Machine.mapInsertPairs.induct with
  | case1 entries => exact .pure _
  | case2 entries key value source rest ih =>
      exact .bind (mapInsert entries key value) fun more => ih more
  | case3 entries other rest hpair =>
      have hother : ∀ m : Machine, m.mapInsertPairs entries (other :: rest) =
          Eval.failShowing other fun shown => .expectsGot "Expected a (key value) entry" shown :=
        fun m => by
          rw [Machine.mapInsertPairs]
          assumption
      simp only [hother]
      exact .showing _ fun _ => ⟨rfl, rfl⟩

/-- A map without the entries of several keys. -/
theorem mapRemoveAll (entries : Entries) (keys : List Value) :
    Straight Request.IsCall fun m => m.mapRemoveAll entries keys := by
  induction keys generalizing entries with
  | nil => exact .pure _
  | cons key rest ih => exact .bind (mapRemove entries key) fun fewer => ih fewer

/-- Whether some element is equal to a value. -/
theorem anyEqual (needle : Value) (items : List Value) :
    Straight Request.IsCall fun m => m.anyEqual needle items := by
  induction items with
  | nil => exact .pure _
  | cons item rest ih =>
      refine .bind (equal item needle) fun same => ?_
      split
      · exact .pure _
      · exact ih

/-- The hashes of the elements of a sequence, if that of each one is straight. -/
theorem hashItems_of_items {items : List Value}
    (hitems : ∀ x ∈ items, Straight Request.IsCall fun m => m.hashOf x) (state : UInt64) :
    Straight Request.IsCall fun m => m.hashItems state items := by
  induction items generalizing state with
  | nil => exact .pure _
  | cons item rest ih =>
      simp only [Machine.hashItems]
      refine .bind (hitems item List.mem_cons_self) fun hashed => ?_
      exact ih (fun x hx => hitems x (List.mem_cons_of_mem item hx)) _

/-- The hash of a value. -/
theorem hashOf (v : Value) : Straight Request.IsCall fun m => m.hashOf v := by
  induction v using Value.part_induction with
  | h v ih =>
      cases v with
      | record ty fields =>
          simp only [Machine.hashOf]
          refine .bind (.ask fun _ _ => rfl) fun declared => ?_
          cases declared with
          | some imp => exact .bind (call _ _) fun answer => .map _ (toNum answer)
          | none => exact hashItems_of_items (fun x hx => ih x (.field hx)) _
      | list items source =>
          simp only [Machine.hashOf]
          exact hashItems_of_items (fun x hx => ih x (.item hx)) _
      | _ => exact .pure _

/-! ### Elements and members -/

/-- The elements that the interfaces of a type produce. -/
theorem iterateByInterface (v : Value) :
    Straight Request.IsUnfolding fun m => m.iterateByInterface v := by
  unfold Machine.iterateByInterface
  refine .bind (.ask fun _ _ => rfl) fun implemented => ?_
  split
  · refine .bind (.request _ ⟨v, [], rfl⟩) fun elements => ?_
    split
    · exact .pure _
    · exact .pure _
  · refine .bind (.ask fun _ _ => rfl) fun _ => ?_
    exact .showing v fun _ => ⟨rfl, rfl⟩

/-- The elements of a value. -/
theorem iterate (v : Value) : Straight Request.IsUnfolding fun m => m.iterate v := by
  unfold Machine.iterate
  split
  · exact .pure _
  · exact .pure _
  · exact .pure _
  · exact .pure _
  · refine .bind (.ask fun _ _ => rfl) fun found => ?_
    cases found with
    | none => exact .pure _
    | some imp => exact iterateByInterface _
  · exact iterateByInterface _

/-- The elements of several values. -/
theorem iterateAll (vs : List Value) : Straight Request.IsUnfolding fun m => m.iterateAll vs := by
  induction vs with
  | nil => exact .pure _
  | cons v rest ih => exact .bind (iterate v) fun items => .map (items ++ ·) ih

/-- A part of an error value. -/
theorem errorPart (serial : Nat) (message : String) (data : Value) (kind name : Option String) :
    Straight R fun _ => Machine.errorPart serial message data kind name := by
  unfold Machine.errorPart
  split
  · exact .pure _
  · exact .pure _
  · exact .pure _
  · exact .ask fun _ _ => rfl
  · exact .pure _

/-- The complaint that a value has no such member. -/
theorem noMember (target key : Value) : Straight R fun _ => Machine.noMember target key :=
  .bind (.ask fun _ _ => rfl) fun _ => .showing key fun _ => ⟨rfl, rfl⟩

/-- The member of a value under a key. -/
theorem get (target key : Value) : Straight Request.IsCall fun m => m.get target key := by
  unfold Machine.get
  split
  · exact .pure _
  · exact .map _ (mapGet? _ _)
  · exact .pure _
  · exact .pure _
  · exact .ask fun _ _ => rfl
  · exact .ask fun _ _ => rfl
  · exact .ask fun _ _ => rfl
  · exact .pure _
  · exact errorPart _ _ _ _ _
  · split
    · exact .ask fun _ _ => rfl
    · exact noMember _ _
  · exact noMember _ _

/-- One step of a member access. -/
theorem member (target key : Value) : Straight Request.IsCall fun m => m.member target key := by
  unfold Machine.member
  split
  · exact .pure _
  · exact get _ _

end Straight

end Machine

end Lisp
