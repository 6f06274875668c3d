import Lisp.Proofs.Equality.Laws

/-!
# Hashes that go with the comparison

A list is hashed by its elements and a record by its declared hash or its fields,
but a map by its structure alone.  So equal values have equal hashes as long as no
map that the hash comes to holds a record with a declared equality; two equal maps
that do hold such records are hashed by what their equality does not look at.

* `Setting.LawfulHashes`: every record type with a declared equality has a declared
  hash, and equal records have equal hashes.
* `Setting.LawfulHashes.exists_hash_of_equates`: equal values whose maps are plain
  have one hash.
-/

namespace Lisp

namespace Setting

/-- The hash that is declared for a record type. -/
def hash? (S : Setting) (ty : RecordTypeId) : Option Value :=
  S.types[ty]?.bind (·.hash)

/-- Every record type with a declared equality has a declared hash, and every
declared hash is without effect and answers the same number for equal records. -/
structure LawfulHashes (S : Setting) : Prop extends S.Lawful where
  covers : ∀ {ty}, (S.equality? ty).isSome → (S.hash? ty).isSome
  consistent : ∀ {ty imp a b}, S.hash? ty = some imp → S.RecordOf ty a → S.RecordOf ty b →
    S.Equates a b → ∃ n, S.Answers (S.machine.call imp [a]) (.num n) ∧
      S.Answers (S.machine.call imp [b]) (.num n)

/-- No map inside the value, however deep, holds a record with a declared
equality. -/
inductive PlainMaps (S : Setting) : Value → Prop
  | intro {v : Value} (parts : ∀ x, Value.Part x v → PlainMaps S x)
      (plain : ∀ entries, v = .map entries →
        Heap.declaresEquality { recordTypes := S.types } v = false) : PlainMaps S v

theorem PlainMaps.part {S : Setting} {x v : Value} (h : S.PlainMaps v) (hx : Value.Part x v) :
    S.PlainMaps x := by
  obtain ⟨hparts, -⟩ := h
  exact hparts x hx

/-- The two evaluations have one answer. -/
def SameAnswer (S : Setting) {α : Type} (x y : Eval α) : Prop :=
  ∃ a, S.Answers x a ∧ S.Answers y a

variable {S : Setting}

/-- Sequences whose elements have one hash each have one hash. -/
theorem sameAnswer_hashItems {xs ys : List Value}
    (h : List.Forall₂ (fun x y => S.SameAnswer (S.machine.hashOf x) (S.machine.hashOf y)) xs ys)
    (state : UInt64) :
    S.SameAnswer (S.machine.hashItems state xs) (S.machine.hashItems state ys) := by
  induction h generalizing state with
  | nil => exact ⟨state, .pure _, .pure _⟩
  | @cons x y xs ys hhead _ ih =>
      obtain ⟨h, hx, hy⟩ := hhead
      obtain ⟨h', hxs, hys⟩ := ih (mixHash state h)
      exact ⟨h', hx.bind hxs, hy.bind hys⟩

/-- What is neither a list nor a record is hashed by its structure. -/
theorem hashOf_of_isBase {m : Machine} {v : Value} (h : Value.IsBase (fun _ => True) v) :
    m.hashOf v = pure v.hashed := by
  cases v with
  | list items source => exact h.elim
  | map entries => exact h.elim
  | record ty fields => exact absurd trivial h
  | _ => rfl

/-- A map is hashed by its structure. -/
theorem hashOf_map {m : Machine} {entries : Entries} :
    m.hashOf (.map entries) = pure (Value.map entries).hashed :=
  rfl

/-- The relations are in place in the heap that has just the record types. -/
theorem relations_inPlace : S.relations.InPlace { recordTypes := S.types } := by
  intro ty
  rw [relations, Option.isSome_map]
  rfl

namespace LawfulHashes

theorem hash?_eq (hS : S.LawfulHashes) {w : World} (hw : S.calm w) (ty : RecordTypeId) :
    w.heap.hash? ty = S.hash? ty := by
  rw [Heap.hash?, hS.types w hw, hash?]

/-- Records of a type with a declared hash. -/
theorem sameAnswer_of_hash (hS : S.LawfulHashes) {ty : RecordTypeId} {imp : Value}
    {xs ys : List Value} (himp : S.hash? ty = some imp) (hxs : S.Built (.record ty xs))
    (hys : S.Built (.record ty ys)) (hequates : S.Equates (.record ty xs) (.record ty ys)) :
    S.SameAnswer (S.machine.hashOf (.record ty xs)) (S.machine.hashOf (.record ty ys)) := by
  obtain ⟨n, hx, hy⟩ := hS.consistent himp ⟨hxs, rfl⟩ ⟨hys, rfl⟩ hequates
  have hanswers : ∀ {fields : List Value},
      S.Answers (S.machine.call imp [.record ty fields]) (.num n) →
        S.Answers (S.machine.hashOf (.record ty fields)) n.toUInt64 := by
    intro fields hcall
    rw [Machine.hashOf]
    refine .bind (.ask fun w hw => (hS.hash?_eq hw ty).trans himp) ?_
    exact .bind hcall (.bind (.pure n) (.pure _))
  exact ⟨n.toUInt64, hanswers hx, hanswers hy⟩

/-- Records of a type without one. -/
theorem sameAnswer_of_fields (hS : S.LawfulHashes) {ty : RecordTypeId} {xs ys : List Value}
    (hnone : S.hash? ty = none)
    (h : List.Forall₂ (fun x y => S.SameAnswer (S.machine.hashOf x) (S.machine.hashOf y)) xs ys) :
    S.SameAnswer (S.machine.hashOf (.record ty xs)) (S.machine.hashOf (.record ty ys)) := by
  obtain ⟨h, hx, hy⟩ := sameAnswer_hashItems h (mixHash hashStart (UInt64.ofNat (ty + 1)))
  have hanswers : ∀ {fields : List Value},
      S.Answers (S.machine.hashItems (mixHash hashStart (UInt64.ofNat (ty + 1))) fields) h →
        S.Answers (S.machine.hashOf (.record ty fields)) h := by
    intro fields hitems
    rw [Machine.hashOf]
    exact .bind (.ask fun w hw => (hS.hash?_eq hw ty).trans hnone) hitems
  exact ⟨h, hanswers hx, hanswers hy⟩

theorem sameAnswer_of_alike (hS : S.LawfulHashes) {a b : Value} (ha : S.Built a) (hb : S.Built b)
    (hplain : S.PlainMaps a) (hab : Value.alike S.relations a b) :
    S.SameAnswer (S.machine.hashOf a) (S.machine.hashOf b) := by
  have hlaw := hS.lawfulOn
  have hstructural : ∀ {a b : Value}, S.Built a → S.Built b → Value.same a b →
      a.hashed = b.hashed := fun ha hb hsame =>
    Value.feed_eq_of_same ((hS.tidy_of_built ha).keysApart_same hlaw)
      ((hS.tidy_of_built hb).keysApart_same hlaw) hsame hashStart
  induction a using Value.part_induction generalizing b with
  | h a ih =>
      have hpart : ∀ {x y : Value}, Value.Part x a → Value.Part y b →
          Value.alike S.relations x y → S.SameAnswer (S.machine.hashOf x) (S.machine.hashOf y) :=
        fun hx hy hxy => ih _ hx (ha.part hx) (hb.part hy) (hplain.part hx) hxy
      cases Value.alike_iff.mp hab with
      | base hlayer =>
          cases hlayer with
          | structural hbase hsame =>
              rw [hashOf_of_isBase hbase, hashOf_of_isBase (Value.isBase_of_same hbase hsame),
                hstructural ha hb hsame]
              exact ⟨_, .pure _, .pure _⟩
          | declared hr _ =>
              obtain ⟨_, hequality⟩ := equality_of_relations hr
              obtain ⟨imp, himp⟩ := Option.isSome_iff_exists.mp
                (hS.covers (Option.isSome_of_eq_some hequality))
              exact hS.sameAnswer_of_hash himp ha hb ((hS.equates_iff ha hb).mpr hab)
      | list hlayer =>
          rw [Machine.hashOf, Machine.hashOf, hlayer.length_eq]
          exact sameAnswer_hashItems
            (forall₂_imp_of_mem hlayer fun x hx y hy => hpart (.item hx) (.item hy)) _
      | @record ty xs ys _ hlayer =>
          cases himp : S.hash? ty with
          | some imp => exact hS.sameAnswer_of_hash himp ha hb ((hS.equates_iff ha hb).mpr hab)
          | none =>
              exact hS.sameAnswer_of_fields himp
                (forall₂_imp_of_mem hlayer fun x hx y hy => hpart (.field hx) (.field hy))
      | map _ _ =>
          obtain ⟨-, hdeclares⟩ := hplain
          have hsame := Value.same_of_alike hlaw relations_inPlace (hS.tidy_of_built ha)
            (hS.tidy_of_built hb) hab (hdeclares _ rfl)
          rw [hashOf_map, hashOf_map, hstructural ha hb hsame]
          exact ⟨_, .pure _, .pure _⟩

/-- Equal values have one hash, provided that no map inside them holds a record with
a declared equality. -/
theorem exists_hash_of_equates (hS : S.LawfulHashes) {a b : Value} (ha : S.Built a)
    (hb : S.Built b) (hplain : S.PlainMaps a) (hab : S.Equates a b) :
    ∃ h, S.Answers (S.machine.hashOf a) h ∧ S.Answers (S.machine.hashOf b) h :=
  hS.sameAnswer_of_alike ha hb hplain ((hS.equates_iff ha hb).mp hab)

end LawfulHashes

namespace Indifferent

theorem eq_of_hash? {ty : RecordTypeId} {imp : Value} (h : setting.hash? ty = some imp) :
    imp = .closure 1 := by
  cases ty with
  | zero => exact (Option.some.inj h).symm
  | succ ty => cases h

theorem answers_hash (a : Value) :
    setting.Answers (setting.machine.call (.closure 1) [a]) (.num 7) := by
  rintro ⟨⟨frames, closures, interfaces, types, traces, serials⟩, calls, depth, expansions, output,
    files, commands, options⟩ ⟨htypes, hclosures⟩
  obtain rfl : types = _ := htypes
  obtain rfl : closures = _ := hclosures
  exact ⟨_, ⟨rfl, rfl⟩, rfl⟩

theorem lawfulHashes : setting.LawfulHashes where
  toLawful := lawful
  covers {ty} h := by
    cases ty with
    | zero => rfl
    | succ ty => cases h
  consistent himp _ _ _ := by
    rw [eq_of_hash? himp]
    exact ⟨7, answers_hash _, answers_hash _⟩

theorem plainMaps_point (text : String) : setting.PlainMaps (point text) := by
  refine ⟨fun x hx => ?_, fun entries h => by cases h⟩
  obtain hmem : x ∈ [Value.str text] := by
    cases hx
    assumption
  rw [List.mem_singleton.mp hmem]
  exact ⟨fun y hy => (by cases hy), fun entries h => (by cases h)⟩

end Indifferent

/-- Two records that are declared equal though they differ. -/
theorem exists_hash_indifferent :
    Indifferent.setting.LawfulHashes ∧
    Indifferent.setting.Built (Indifferent.point "left") ∧
    Indifferent.setting.Built (Indifferent.point "right") ∧
    Indifferent.setting.PlainMaps (Indifferent.point "left") ∧
    Indifferent.setting.Equates (Indifferent.point "left") (Indifferent.point "right") ∧
    ∃ h, Indifferent.setting.Answers
        (Indifferent.setting.machine.hashOf (Indifferent.point "left")) h ∧
      Indifferent.setting.Answers
        (Indifferent.setting.machine.hashOf (Indifferent.point "right")) h := by
  have hlawful := Indifferent.lawfulHashes
  have hleft := Indifferent.built_point "left"
  have hright := Indifferent.built_point "right"
  have hplain := Indifferent.plainMaps_point "left"
  have hequates := Indifferent.equates_point "left" "right"
  exact ⟨hlawful, hleft, hright, hplain, hequates,
    hlawful.exists_hash_of_equates hleft hright hplain hequates⟩

end Setting

end Lisp
