import Lisp.Eval.Builtin.Sequence
import Lisp.Eval.Construct
import Lisp.Proofs.Congruence
import Lisp.Proofs.Equality.Lookup

/-!
# What a comparison answers

A program declares equalities for record types, and a comparison calls them.  A
call may add frames to the heap even if it has no effect that a program could
see, so a comparison is looked at from all worlds of a set at once, the **calm**
ones: the declared equalities lead from calm worlds to calm worlds, and answer the
same in all of them.

* `Setting.Lawful`: every declared equality answers a truth value and is an
  equivalence that holds between structurally equal records.
* `Setting.Built`: every map inside a value comes from the empty map by the
  operations of the language.
* `Setting.Lawful.answers_equal`: a comparison of two built values answers whether
  they are alike, in every calm world.
* `Setting.Lawful.tidyKeys_of_made`: no two keys of a map that is made by the operations are
  alike.
-/

namespace Lisp

/-- Where comparisons run: on a machine, with a table of record types in place, in
any of the calm worlds. -/
structure Setting where
  machine : Machine
  types : Array RecordType
  calm : World → Prop

/-- The keys of a sequence of keys and values in turn. -/
def keysInTurn : List Value → List Value
  | key :: _ :: rest => key :: keysInTurn rest
  | _ => []

/-- The keys of a sequence of two-element lists. -/
def keysOfPairs : List Value → List Value
  | [] => []
  | .list [key, _] _ :: rest => key :: keysOfPairs rest
  | _ :: rest => keysOfPairs rest

/-- The evaluation makes a map out of a map by an operation of the language, which
is handed the keys. -/
inductive Update (m : Machine) : Entries → List Value → Eval Value → Prop
  | construct (args : List Value) : Update m [] (keysInTurn args) (m.construct .map args)
  | assocNil (pairs : List Value) :
      Update m [] (keysInTurn pairs) (m.callSequence .assoc (.nil :: pairs))
  | assoc (entries : Entries) (pairs : List Value) :
      Update m entries (keysInTurn pairs) (m.callSequence .assoc (.map entries :: pairs))
  | conj (entries : Entries) (pairs : List Value) :
      Update m entries (keysOfPairs pairs) (m.callSequence .conj (.map entries :: pairs))
  | dissoc (entries : Entries) (keys : List Value) :
      Update m entries keys (m.callSequence .dissoc (.map entries :: keys))

namespace Setting

/-- The evaluation has the value from every calm world, and ends in a calm one. -/
def Answers (S : Setting) {α : Type} (x : Eval α) (a : α) : Prop :=
  ∀ w, S.calm w → ∃ w', S.calm w' ∧ x w = (.ok a, w')

/-- The two values are equal by the comparison of the language. -/
def Equates (S : Setting) (a b : Value) : Prop :=
  S.Answers (S.machine.equal a b) true

mutual

/-- Every map inside the value, however deep, is made by the operations of the
language, and every record has as many fields as its type. -/
inductive Built (S : Setting) : Value → Prop
  | intro {v : Value} (parts : ∀ x, Value.Part x v → Built S x)
      (fields : ∀ ty xs, v = .record ty xs → S.types[ty]?.map (·.fields.length) = some xs.length)
      (made : ∀ entries, v = .map entries → Made S entries) : Built S v

/-- The map comes from the empty map by a sequence of operations in calm worlds,
each of them handed built keys. -/
inductive Made (S : Setting) : Entries → Prop
  | empty : Made S []
  | update {entries entries' : Entries} {keys : List Value} {x : Eval Value} {w w' : World} :
      Made S entries → Update S.machine entries keys x → (∀ key ∈ keys, Built S key) →
        S.calm w → x w = (.ok (.map entries'), w') → Made S entries'

end

/-- The equality that is declared for a record type. -/
def equality? (S : Setting) (ty : RecordTypeId) : Option Value :=
  S.types[ty]?.bind (·.equality)

/-- The built records of a type. -/
def RecordOf (S : Setting) (ty : RecordTypeId) (v : Value) : Prop :=
  S.Built v ∧ v.tag = .record ty

/-- A declared equality holds between two records. -/
def Agrees (S : Setting) (imp a b : Value) : Prop :=
  S.Answers (S.machine.call imp [a, b]) (.bool true)

/-- Every declared equality is without effect, answers a truth value, and is an
equivalence on the records of its type that holds between structurally equal
ones. -/
structure Lawful (S : Setting) : Prop where
  inhabited : ∃ w, S.calm w
  types : ∀ w, S.calm w → w.heap.recordTypes = S.types
  answers : ∀ {ty imp a b}, S.equality? ty = some imp → S.RecordOf ty a → S.RecordOf ty b →
    ∃ t, S.Answers (S.machine.call imp [a, b]) (.bool t)
  equivalence : ∀ {ty imp}, S.equality? ty = some imp →
    EquivalenceOn (S.RecordOf ty) (S.Agrees imp)
  structural : ∀ {ty imp a b}, S.equality? ty = some imp → S.RecordOf ty a → S.RecordOf ty b →
    a.same b → S.Agrees imp a b

variable {S : Setting} {α β : Type}

/-! ### Answers -/

namespace Answers

theorem pure (a : α) : S.Answers (Pure.pure a) a :=
  fun w hw => ⟨w, hw, rfl⟩

theorem ask {view : World → α} {a : α} (h : ∀ w, S.calm w → view w = a) :
    S.Answers (Eval.ask view) a := by
  intro w hw
  refine ⟨w, hw, ?_⟩
  rw [← h w hw]
  rfl

theorem bind {x : Eval α} {k : α → Eval β} {a : α} {b : β} (hx : S.Answers x a)
    (hk : S.Answers (k a) b) : S.Answers (x >>= k) b := by
  intro w hw
  obtain ⟨w', hw', hrun⟩ := hx w hw
  obtain ⟨w'', hw'', hrun'⟩ := hk w' hw'
  refine ⟨w'', hw'', ?_⟩
  rw [Eval.bind_run, hrun]
  exact hrun'

/-- An evaluation has one answer. -/
theorem unique {x : Eval α} {a b : α} {w w' : World} (hx : S.Answers x a) (hw : S.calm w)
    (hrun : x w = (.ok b, w')) : a = b ∧ S.calm w' := by
  obtain ⟨w'', hw'', hrun'⟩ := hx w hw
  rw [hrun] at hrun'
  cases hrun'
  exact ⟨rfl, hw''⟩

end Answers

/-! ### How a comparison goes on

What comparisons of the parts of two values answer decides what a comparison of the two
answers, whatever that is. -/

section Steps

variable {R : Value → Value → Bool} {answer : Bool}

/-- Sequences of one length are compared up to the first difference. -/
theorem answers_equalItems {xs ys : List Value} (hlength : xs.length = ys.length)
    (hitems : ∀ x ∈ xs, ∀ y ∈ ys, S.Answers (S.machine.equal x y) (R x y))
    (hanswer : answer ↔ List.Forall₂ (R · ·) xs ys) :
    S.Answers (S.machine.equalItems xs ys) answer := by
  induction xs generalizing ys with
  | nil =>
      obtain rfl := List.length_eq_zero_iff.mp hlength.symm
      obtain rfl := hanswer.mpr .nil
      rw [Machine.equalItems_nil]
      exact .pure _
  | cons x xs ih =>
      cases ys with
      | nil => cases hlength
      | cons y ys =>
          rw [List.forall₂_cons] at hanswer
          rw [Machine.equalItems]
          refine .bind (hitems x List.mem_cons_self y List.mem_cons_self) ?_
          cases hhead : R x y with
          | true =>
              refine ih (Nat.succ.inj hlength) (fun x hx y hy => ?_) ?_
              · exact hitems x (List.mem_cons_of_mem _ hx) y (List.mem_cons_of_mem _ hy)
              · rw [hanswer, and_iff_right hhead]
          | false =>
              obtain rfl : answer = false :=
                Bool.eq_false_iff.mpr fun h => Bool.eq_false_iff.mp hhead (hanswer.mp h).1
              exact .pure _

/-- Two sequences are compared element by element if they are of one length. -/
theorem answers_items {xs ys : List Value}
    (hitems : ∀ x ∈ xs, ∀ y ∈ ys, S.Answers (S.machine.equal x y) (R x y))
    (hanswer : answer ↔ List.Forall₂ (R · ·) xs ys) :
    S.Answers (if xs.length = ys.length then S.machine.equalItems xs ys else return false)
      answer := by
  by_cases hlength : xs.length = ys.length
  · rw [if_pos hlength]
    exact answers_equalItems hlength hitems hanswer
  · obtain rfl : answer = false :=
      Bool.eq_false_iff.mpr fun h => hlength (hanswer.mp h).length_eq
    rw [if_neg hlength]
    exact .pure _

/-- The scan finds the first stored key that is equal. -/
theorem answers_scan {entries : Entries} {key : Value}
    (hkeys : ∀ e ∈ entries, S.Answers (S.machine.equal e.1 key) (R e.1 key)) :
    S.Answers (S.machine.scan entries key)
      ((entries.find? fun e => R e.1 key).map Prod.fst) := by
  induction entries with
  | nil =>
      rw [Machine.scan]
      exact .pure _
  | cons e rest ih =>
      obtain ⟨stored, value⟩ := e
      rw [Machine.scan, List.find?_cons]
      refine .bind (hkeys _ List.mem_cons_self) ?_
      cases R stored key with
      | true => exact .pure _
      | false => exact ih fun f hf => hkeys f (List.mem_cons_of_mem _ hf)

/-- A key that is not found by its structure is searched by a scan, which the filter
leaves out only where it would not find the key. -/
theorem answers_search {entries : Entries} {key : Value} {found : Option Value}
    (hhit : ∀ e, Value.entry? key entries = some e → found = some key)
    (hscan : Value.entry? key entries = none → S.Answers (S.machine.scan entries key) found)
    (hfilter : Value.entry? key entries = none →
      ∀ w, S.calm w → w.heap.declaresEquality key = false → found = none) :
    S.Answers (S.machine.storedKey? entries key) found := by
  rw [Machine.storedKey?]
  cases hentry : Value.entry? key entries with
  | some e =>
      rw [hhit e hentry]
      exact .pure _
  | none =>
      intro w hw
      dsimp only
      rw [Eval.bind_ask]
      -- The filter asks about the key only, in the heap of the moment.
      cases hdeclares : w.heap.declaresEquality key with
      | true => exact hscan hentry w hw
      | false =>
          rw [hfilter hentry w hw hdeclares]
          exact ⟨w, hw, rfl⟩

/-- Each entry is looked up under the key that the other map holds for its own. -/
theorem answers_equalEntries {xs ys : Entries} (held : Value → Option Value)
    (hheld : ∀ e ∈ xs, S.Answers (S.machine.storedKey? ys e.1) (held e.1))
    (hvalues : ∀ e ∈ xs, ∀ f ∈ ys, S.Answers (S.machine.equal e.2 f.2) (R e.2 f.2))
    (hanswer : answer ↔
      ∀ e ∈ xs, ∃ f, (held e.1).bind (Value.entry? · ys) = some f ∧ R e.2 f.2) :
    S.Answers (S.machine.equalEntries xs ys) answer := by
  induction xs with
  | nil =>
      obtain rfl := hanswer.mpr fun e he => absurd he List.not_mem_nil
      rw [Machine.equalEntries]
      exact .pure _
  | cons e rest ih =>
      obtain ⟨key, value⟩ := e
      rw [List.forall_mem_cons] at hanswer
      have hdiffers : (∀ f, (held key).bind (Value.entry? · ys) = some f → R value f.2 = false) →
          answer = false := by
        intro hnone
        refine Bool.eq_false_iff.mpr fun h => ?_
        obtain ⟨f, hfound, hvalue⟩ := (hanswer.mp h).1
        exact Bool.eq_false_iff.mp (hnone f hfound) hvalue
      rw [Machine.equalEntries]
      refine .bind (hheld _ List.mem_cons_self) ?_
      cases hkey : held key with
      | none =>
          obtain rfl : answer = false := by
            refine hdiffers fun f hfound => ?_
            rw [hkey] at hfound
            cases hfound
          exact .pure _
      | some stored =>
          dsimp only
          split
          · next hentry =>
              obtain rfl : answer = false := by
                refine hdiffers fun f hfound => ?_
                rw [hkey, Option.bind_some, hentry] at hfound
                cases hfound
              exact .pure _
          · next f hentry =>
              have hfound : (held key).bind (Value.entry? · ys) = some f := by
                rw [hkey, Option.bind_some, hentry]
              refine .bind (hvalues _ List.mem_cons_self f (Value.mem_of_entry? hentry).1) ?_
              cases hvalue : R value f.2 with
              | true =>
                  refine ih (fun e he => hheld e (List.mem_cons_of_mem _ he))
                    (fun e he => hvalues e (List.mem_cons_of_mem _ he)) ?_
                  rw [hanswer, and_iff_right ⟨f, hfound, hvalue⟩]
              | false =>
                  obtain rfl := hdiffers fun f' hfound' =>
                    Option.some.inj (hfound.symm.trans hfound') ▸ hvalue
                  exact .pure _

/-- Two maps are compared entry by entry if they have as many. -/
theorem answers_entries {xs ys : Entries} (held : Value → Option Value)
    (hheld : ∀ e ∈ xs, S.Answers (S.machine.storedKey? ys e.1) (held e.1))
    (hvalues : ∀ e ∈ xs, ∀ f ∈ ys, S.Answers (S.machine.equal e.2 f.2) (R e.2 f.2))
    (hanswer : answer ↔
      ∀ e ∈ xs, ∃ f, (held e.1).bind (Value.entry? · ys) = some f ∧ R e.2 f.2) :
    S.Answers (if xs.length = ys.length then S.machine.equalEntries xs ys else return false)
      (xs.length == ys.length && answer) := by
  by_cases hlength : xs.length = ys.length
  · rw [if_pos hlength, beq_iff_eq.mpr hlength, Bool.true_and]
    exact answers_equalEntries held hheld hvalues hanswer
  · rw [if_neg hlength, beq_eq_false_iff_ne.mpr hlength]
    exact .pure _

end Steps

/-! ### The relations that the equalities answer -/

theorem Built.part {x v : Value} (h : S.Built v) (hx : Value.Part x v) : S.Built x := by
  obtain ⟨hparts, -, -⟩ := h
  exact hparts x hx

theorem Built.made {entries : Entries} (h : S.Built (.map entries)) : S.Made entries := by
  obtain ⟨-, -, hmade⟩ := h
  exact hmade entries rfl

open Classical in
/-- The relations that the declared equalities answer. -/
noncomputable def relations (S : Setting) : Declared := fun ty =>
  (S.equality? ty).map fun imp xs ys => decide (S.Agrees imp (.record ty xs) (.record ty ys))

theorem relations_of_equality {ty : RecordTypeId} {imp : Value} (h : S.equality? ty = some imp)
    {related : List Value → List Value → Bool} (hr : S.relations ty = some related)
    (xs ys : List Value) : related xs ys ↔ S.Agrees imp (.record ty xs) (.record ty ys) := by
  simp only [relations, h, Option.map_some, Option.some.injEq] at hr
  simp [← hr]

theorem equality_of_relations {ty : RecordTypeId} {related : List Value → List Value → Bool}
    (hr : S.relations ty = some related) : ∃ imp, S.equality? ty = some imp := by
  obtain ⟨imp, himp, -⟩ := Option.map_eq_some_iff.mp hr
  exact ⟨imp, himp⟩

/-- The built values whose maps have no two keys that are alike. -/
abbrev Tidy (S : Setting) : Value → Prop :=
  Value.Tidy S.Built S.relations

/-- A map whose keys are tidy and no two of them alike. -/
abbrev TidyKeys (S : Setting) : Entries → Prop :=
  Value.TidyKeys S.Built S.relations

namespace Lawful

theorem lawfulOn (hS : S.Lawful) : S.relations.LawfulOn S.Built := by
  refine ⟨Built.part, ?_, ?_, ?_, ?_⟩
  · intro ty related xs hr hxs
    obtain ⟨imp, himp⟩ := equality_of_relations hr
    rw [relations_of_equality himp hr]
    exact (hS.equivalence himp).refl ⟨hxs, rfl⟩
  · intro ty related xs ys hr hxs hys hxy
    obtain ⟨imp, himp⟩ := equality_of_relations hr
    rw [relations_of_equality himp hr] at hxy ⊢
    exact (hS.equivalence himp).symm ⟨hxs, rfl⟩ ⟨hys, rfl⟩ hxy
  · intro ty related xs ys zs hr hxs hys hzs hxy hyz
    obtain ⟨imp, himp⟩ := equality_of_relations hr
    rw [relations_of_equality himp hr] at hxy hyz ⊢
    exact (hS.equivalence himp).trans ⟨hxs, rfl⟩ ⟨hys, rfl⟩ ⟨hzs, rfl⟩ hxy hyz
  · intro ty related xs ys hr hxs hys hsame
    obtain ⟨imp, himp⟩ := equality_of_relations hr
    rw [relations_of_equality himp hr]
    exact hS.structural himp ⟨hxs, rfl⟩ ⟨hys, rfl⟩ (by simp [Value.same, hsame])

theorem equality?_eq (hS : S.Lawful) {w : World} (hw : S.calm w) (ty : RecordTypeId) :
    w.heap.equality? ty = S.equality? ty := by
  rw [Heap.equality?, hS.types w hw, equality?]

theorem inPlace (hS : S.Lawful) {w : World} (hw : S.calm w) : S.relations.InPlace w.heap := by
  intro ty
  rw [hS.equality?_eq hw, relations, Option.isSome_map]

/-- A declared equality answers whether the records are related. -/
theorem answers_call (hS : S.Lawful) {ty : RecordTypeId} {imp : Value} {xs ys : List Value}
    {related : List Value → List Value → Bool} (himp : S.equality? ty = some imp)
    (hr : S.relations ty = some related) (hxs : S.Built (.record ty xs))
    (hys : S.Built (.record ty ys)) :
    S.Answers (S.machine.call imp [.record ty xs, .record ty ys]) (.bool (related xs ys)) := by
  obtain ⟨t, ht⟩ := hS.answers himp ⟨hxs, rfl⟩ ⟨hys, rfl⟩
  cases hrelated : related xs ys with
  | true => exact (relations_of_equality himp hr xs ys).mp hrelated
  | false =>
      cases t with
      | false => exact ht
      | true =>
          have htrue := (relations_of_equality himp hr xs ys).mpr ht
          rw [hrelated] at htrue
          cases htrue

/-! ### The comparison -/

variable {entries : Entries} {key : Value}

/-- The search answers the key under which a key is held, if comparisons of the two
answer whether they are alike. -/
theorem answers_heldKey (hS : S.Lawful) (hentries : S.TidyKeys entries) (hkey : S.Tidy key)
    (hequal : ∀ e ∈ entries,
      S.Answers (S.machine.equal e.1 key) (Value.alike S.relations e.1 key)) :
    S.Answers (S.machine.storedKey? entries key) (Value.heldKey S.relations entries key) := by
  have hheld : Value.entry? key entries = none → Value.heldKey S.relations entries key =
      (entries.find? fun e => Value.alike S.relations e.1 key).map Prod.fst := by
    intro hentry
    rw [Value.heldKey, hentry]
  refine answers_search (fun e hentry => ?_) (fun hentry => ?_) fun hentry w hw hdeclares => ?_
  · rw [Value.heldKey, hentry]
  · rw [hheld hentry]
    exact answers_scan hequal
  · rw [hheld hentry, hentries.find?_eq_none hS.lawfulOn (hS.inPlace hw) hkey hdeclares hentry]
    rfl

/-- A comparison of two records of one type answers whether they are alike, if those of
their fields do. -/
theorem answers_record (hS : S.Lawful) {ty : RecordTypeId} {xs ys : List Value}
    (hxs : S.Built (.record ty xs)) (hys : S.Built (.record ty ys))
    (hitems : ∀ x ∈ xs, ∀ y ∈ ys,
      S.Answers (S.machine.equal x y) (Value.alike S.relations x y)) :
    S.Answers (S.machine.equal (.record ty xs) (.record ty ys))
      (Value.alike S.relations (.record ty xs) (.record ty ys)) := by
  rw [Machine.equal, if_pos rfl, Value.alike, beq_self_eq_true, Bool.true_and]
  refine .bind (.ask fun w hw => hS.equality?_eq hw ty) ?_
  cases himp : S.equality? ty with
  | some imp =>
      obtain ⟨related, hr⟩ : ∃ related, S.relations ty = some related := by
        simp [relations, himp]
      rw [hr]
      exact .bind (hS.answers_call himp hr hxs hys) (.pure _)
  | none =>
      have hr : S.relations ty = none := by simp [relations, himp]
      rw [hr]
      exact answers_items hitems Value.alikeItems_iff

/-- A comparison answers whether the values are alike. -/
theorem answers_alike (hS : S.Lawful) {a b : Value} (ha : S.Tidy a) (hb : S.Tidy b) :
    S.Answers (S.machine.equal a b) (Value.alike S.relations a b) := by
  have hlaw := hS.lawfulOn
  induction a, b using Value.part_induction₂ with
  | h a b ih =>
      have hpart : ∀ {x y : Value}, Value.Part x a → Value.Part y b →
          S.Answers (S.machine.equal x y) (Value.alike S.relations x y) :=
        fun hx hy => (ih _ _ hx hy).1 (ha.part hlaw hx) (hb.part hlaw hy)
      have hback : ∀ {x y : Value}, Value.Part x a → Value.Part y b →
          S.Answers (S.machine.equal y x) (Value.alike S.relations y x) :=
        fun hx hy => (ih _ _ hx hy).2 (hb.part hlaw hy) (ha.part hlaw hx)
      fun_cases Value.alike S.relations a b with
      | case1 ty xs ty' ys =>
          by_cases hty : ty = ty'
          · subst hty
            exact hS.answers_record ha.1 hb.1 fun x hx y hy => hpart (.field hx) (.field hy)
          · rw [Machine.equal, if_neg hty, beq_eq_false_iff_ne.mpr hty]
            exact .pure _
      | case2 xs s ys t =>
          rw [Machine.equal]
          exact answers_items (fun x hx y hy => hpart (.item hx) (.item hy)) Value.alikeItems_iff
      | case3 xs ys =>
          have hkeys : ∀ e ∈ xs, S.Tidy e.1 := fun e he => ha.part hlaw (.key he)
          have hys : S.TidyKeys ys := ⟨fun f hf => hb.part hlaw (.key hf), hb.2.apart⟩
          rw [Machine.equal]
          refine answers_entries (Value.heldKey S.relations ys) (fun e he => ?_)
            (fun e he f hf => hpart (.value he) (.value hf)) ?_
          · exact hS.answers_heldKey hys (hkeys e he) fun f hf => hback (.key he) (.key hf)
          · rw [Value.alikeEntries_iff]
            refine forall₂_congr fun e he => ?_
            rw [hys.entry?_heldKey hlaw (hkeys e he)]
            exact hys.exists_alike_iff hlaw (hkeys e he) e.2
      | case4 _ _ hrecord hlist hmap =>
          rw [Machine.equal] <;> try assumption
          exact .pure _

theorem answers_storedKey? (hS : S.Lawful) (hentries : S.TidyKeys entries) (hkey : S.Tidy key) :
    S.Answers (S.machine.storedKey? entries key) (Value.heldKey S.relations entries key) :=
  hS.answers_heldKey hentries hkey fun e he => hS.answers_alike (hentries.keys e he) hkey

/-- A map gives the value of the entry whose key is alike. -/
theorem answers_mapGet? (hS : S.Lawful) (hentries : S.TidyKeys entries) (hkey : S.Tidy key) :
    S.Answers (S.machine.mapGet? entries key)
      ((entries.find? fun e => Value.alike S.relations e.1 key).map Prod.snd) := by
  rw [← hentries.entry?_heldKey hS.lawfulOn hkey]
  refine .bind (hS.answers_storedKey? hentries hkey) ?_
  cases Value.heldKey S.relations entries key with
  | none => exact .pure _
  | some stored => exact .pure _

/-- Inserting an entry binds its key. -/
theorem answers_mapInsert (hS : S.Lawful) (hentries : S.TidyKeys entries) (hkey : S.Tidy key)
    (value : Value) :
    ∃ entries', S.Answers (S.machine.mapInsert entries key value) entries' ∧
      Value.Bound S.Built S.relations key value entries entries' :=
  ⟨_, .bind (hS.answers_storedKey? hentries hkey) (.pure _),
    hentries.bound_insertEntry hS.lawfulOn hkey⟩

/-- Removing an entry takes its key out. -/
theorem answers_mapRemove (hS : S.Lawful) (hentries : S.TidyKeys entries) (hkey : S.Tidy key) :
    ∃ entries', S.Answers (S.machine.mapRemove entries key) entries' ∧
      Value.Cleared S.relations key entries entries' := by
  refine ⟨_, .bind (hS.answers_storedKey? hentries hkey) ?_,
    hentries.cleared_eraseEntry hS.lawfulOn hkey⟩
  cases Value.heldKey S.relations entries key with
  | none => exact .pure _
  | some stored => exact .pure _

/-! ### The operations on maps -/

theorem answers_mapInsertAll (hS : S.Lawful) (hentries : S.TidyKeys entries) {args : List Value}
    (hargs : ∀ key ∈ keysInTurn args, S.Tidy key) :
    ∃ entries', S.Answers (S.machine.mapInsertAll entries args) entries' ∧ S.TidyKeys entries' := by
  induction args using keysInTurn.induct generalizing entries with
  | case1 key value rest ih =>
      have hkey := hargs key List.mem_cons_self
      obtain ⟨entries', hinsert, hbound⟩ := hS.answers_mapInsert hentries hkey value
      have hentries' := hentries.of_bound hS.lawfulOn hkey hbound
      obtain ⟨entries'', hrest, htidy⟩ :=
        ih hentries' fun k hk => hargs k (List.mem_cons_of_mem key hk)
      exact ⟨entries'', .bind hinsert hrest, htidy⟩
  | case2 args hnone =>
      refine ⟨entries, ?_, hentries⟩
      rw [Machine.mapInsertAll] <;> try assumption
      exact .pure _

theorem answers_mapRemoveAll (hS : S.Lawful) (hentries : S.TidyKeys entries) {keys : List Value}
    (hkeys : ∀ key ∈ keys, S.Tidy key) :
    ∃ entries', S.Answers (S.machine.mapRemoveAll entries keys) entries' ∧ S.TidyKeys entries' := by
  induction keys generalizing entries with
  | nil => exact ⟨entries, .pure _, hentries⟩
  | cons key rest ih =>
      obtain ⟨entries', hremove, hcleared⟩ :=
        hS.answers_mapRemove hentries (hkeys key List.mem_cons_self)
      obtain ⟨entries'', hrest, htidy⟩ := ih (hentries.of_cleared hcleared)
        fun k hk => hkeys k (List.mem_cons_of_mem key hk)
      exact ⟨entries'', .bind hremove hrest, htidy⟩

/-- Entries given as lists may be refused, so this is about the map that comes out
of them. -/
theorem tidyKeys_of_mapInsertPairs (hS : S.Lawful) (hentries : S.TidyKeys entries)
    {pairs : List Value} (hpairs : ∀ key ∈ keysOfPairs pairs, S.Tidy key) {w w' : World}
    (hw : S.calm w) {entries' : Entries}
    (hrun : S.machine.mapInsertPairs entries pairs w = (.ok entries', w')) :
    S.TidyKeys entries' := by
  induction pairs using keysOfPairs.induct generalizing entries w with
  | case1 =>
      cases hrun
      exact hentries
  | case2 key value source rest ih =>
      have hkey := hpairs key List.mem_cons_self
      obtain ⟨entries'', hinsert, hbound⟩ := hS.answers_mapInsert hentries hkey value
      obtain ⟨w'', hw'', hrun'⟩ := hinsert w hw
      rw [Machine.mapInsertPairs, Eval.bind_run, hrun'] at hrun
      exact ih (hentries.of_bound hS.lawfulOn hkey hbound)
        (fun k hk => hpairs k (List.mem_cons_of_mem key hk)) hw'' hrun
  | case3 item rest hpair ih =>
      rw [Machine.mapInsertPairs] at hrun <;> try assumption
      cases hrun

end Lawful

/-- What an evaluation on entries comes to when a map is made of it. -/
theorem entries_of_map {x : Eval Entries} {w w' : World} {entries : Entries}
    (hrun : (x >>= fun entries => Pure.pure (Value.map entries)) w = (.ok (.map entries), w')) :
    x w = (.ok entries, w') := by
  rw [Eval.bind_run] at hrun
  rcases hx : x w with ⟨answer, w''⟩
  rw [hx] at hrun
  cases answer with
  | ok a =>
      cases hrun
      rfl
  | failed f => cases hrun
  | outOfFuel => cases hrun

namespace Lawful

/-- Entries given as keys and values in turn, which are refused if their number is
odd. -/
theorem tidyKeys_of_evenly (hS : S.Lawful) {entries entries' : Entries} {args : List Value}
    {refuse : Eval Value} (hrefuse : ∀ w entries w', refuse w ≠ (.ok (.map entries), w'))
    (hentries : S.TidyKeys entries) (hargs : ∀ key ∈ keysInTurn args, S.Tidy key) {w w' : World}
    (hw : S.calm w)
    (hrun : (if args.length % 2 = 0 then do
        return Value.map (← S.machine.mapInsertAll entries args)
      else refuse : Eval Value) w = (.ok (.map entries'), w')) : S.TidyKeys entries' := by
  split at hrun
  · obtain ⟨entries'', hall, htidy⟩ := hS.answers_mapInsertAll hentries hargs
    obtain ⟨rfl, -⟩ := hall.unique hw (entries_of_map hrun)
    exact htidy
  · exact absurd hrun (hrefuse _ _ _)

/-- An operation keeps the keys of a map apart. -/
theorem tidyKeys_of_update (hS : S.Lawful) {entries entries' : Entries} {keys : List Value}
    {x : Eval Value} {w w' : World} (hupdate : Update S.machine entries keys x)
    (hentries : S.TidyKeys entries) (hkeys : ∀ key ∈ keys, S.Tidy key) (hw : S.calm w)
    (hrun : x w = (.ok (.map entries'), w')) : S.TidyKeys entries' := by
  have hfail : ∀ (f : Failure) w entries w',
      (Eval.fail f : Eval Value) w ≠ (.ok (.map entries), w') := by
    intro f w entries w' hfailed
    cases hfailed
  cases hupdate with
  | construct args => exact hS.tidyKeys_of_evenly (hfail _) hentries hkeys hw hrun
  | assocNil pairs => exact hS.tidyKeys_of_evenly (hfail _) hentries hkeys hw hrun
  | assoc _ pairs => exact hS.tidyKeys_of_evenly (hfail _) hentries hkeys hw hrun
  | conj _ pairs => exact hS.tidyKeys_of_mapInsertPairs hentries hkeys hw (entries_of_map hrun)
  | dissoc _ _ =>
      obtain ⟨entries'', hall, htidy⟩ := hS.answers_mapRemoveAll hentries hkeys
      obtain ⟨rfl, -⟩ := hall.unique hw (entries_of_map hrun)
      exact htidy

/-! ### Built values -/

/-- No two keys of a map that is made by the operations are alike. -/
theorem tidyKeys_of_made (hS : S.Lawful) {entries : Entries} (h : S.Made entries) :
    S.TidyKeys entries := by
  -- The keys handed to an operation are built by a smaller derivation, though they
  -- need not be smaller than the map: a later operation may take them out again.
  refine @Made.rec S (fun v _ => Value.KeysApart (Value.alike S.relations) v)
    (fun entries _ => S.TidyKeys entries) ?_ ?_ ?_ entries h
  · intro v _ _ _ ihParts ihMade
    refine ⟨ihParts, ?_⟩
    rintro entries rfl
    exact (ihMade entries rfl).apart
  · exact ⟨fun e he => absurd he List.not_mem_nil, .nil⟩
  · intro entries entries' keys x w w' _ hupdate hkeys hw hrun ihEntries ihKeys
    exact hS.tidyKeys_of_update hupdate ihEntries
      (fun key hkey => ⟨hkeys key hkey, ihKeys key hkey⟩) hw hrun

theorem tidy_of_built (hS : S.Lawful) {v : Value} (h : S.Built v) : S.Tidy v := by
  refine ⟨h, ?_⟩
  induction v using Value.part_induction with
  | h v ih =>
      refine ⟨fun x hx => ih x hx (h.part hx), ?_⟩
      rintro entries rfl
      exact (hS.tidyKeys_of_made h.made).apart

/-- A comparison of built values answers whether they are alike. -/
theorem answers_equal (hS : S.Lawful) {a b : Value} (ha : S.Built a) (hb : S.Built b) :
    S.Answers (S.machine.equal a b) (Value.alike S.relations a b) :=
  hS.answers_alike (hS.tidy_of_built ha) (hS.tidy_of_built hb)

theorem equates_iff (hS : S.Lawful) {a b : Value} (ha : S.Built a) (hb : S.Built b) :
    S.Equates a b ↔ Value.alike S.relations a b := by
  obtain ⟨w, hw⟩ := hS.inhabited
  have hanswers := hS.answers_equal ha hb
  constructor
  · intro hequates
    obtain ⟨w', -, hrun⟩ := hequates w hw
    exact (hanswers.unique hw hrun).1
  · intro halike
    rw [halike] at hanswers
    exact hanswers

end Lawful

end Setting

end Lisp
