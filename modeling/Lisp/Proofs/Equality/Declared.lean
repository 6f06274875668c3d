import Lisp.Eval.Equality
import Lisp.Proofs.Equality.Structural

/-!
# Equality with declared relations

Suppose that for some record types a relation between their records has been
declared.  Two values are **alike** when they are structurally equal but for
records of such types, wherever they stand inside lists, records and maps, and
two of those are related.  This is what a comparison computes when the declared
equalities answer these relations; here it is a function of two values.

The declared relations are lawful on a set of values when they are equivalences
there and hold between structurally equal records.  Then being alike is an
equivalence on the values of the set whose maps have no two keys that are alike
(`Value.alike_equivalenceOn`).
-/

namespace Lisp

/-- The relation declared for each record type, if there is one. -/
abbrev Declared := RecordTypeId → Option (List Value → List Value → Bool)

namespace Value

mutual

/-- Equality of two values up to declared relations. -/
def alike (r : Declared) : Value → Value → Bool
  | .record ty xs, .record ty' ys =>
    ty == ty' &&
      match r ty with
      | some related => related xs ys
      | none => alikeItems r xs ys
  | .list xs _, .list ys _ => alikeItems r xs ys
  | .map xs, .map ys => xs.length == ys.length && alikeEntries r xs ys
  | a, b => a.same b

/-- Equality of two sequences, element by element. -/
def alikeItems (r : Declared) : List Value → List Value → Bool
  | [], [] => true
  | x :: xs, y :: ys => alike r x y && alikeItems r xs ys
  | _, _ => false

/-- Each entry of the first map is alike to some entry of the second. -/
def alikeEntries (r : Declared) : List (Value × Value) → List (Value × Value) → Bool
  | [], _ => true
  | (key, value) :: rest, others =>
    (others.any fun other => alike r key other.1 && alike r value other.2) &&
      alikeEntries r rest others

end

/-- Two values are both records, both lists or both maps, or else they are compared as
they stand. -/
@[elab_as_elim]
theorem pair_cases {P : Value → Value → Prop}
    (records : ∀ ty xs ty' ys, P (.record ty xs) (.record ty' ys))
    (lists : ∀ xs s ys t, P (.list xs s) (.list ys t))
    (maps : ∀ xs ys, P (.map xs) (.map ys))
    (others : ∀ a b, (∀ ty xs ty' ys, a = .record ty xs → b = .record ty' ys → False) →
      (∀ xs s ys t, a = .list xs s → b = .list ys t → False) →
      (∀ xs ys, a = .map xs → b = .map ys → False) → P a b)
    (a b : Value) : P a b := by
  fun_cases alike (fun _ => none) a b with
  | case1 ty xs ty' ys => exact records ty xs ty' ys
  | case2 xs s ys t => exact lists xs s ys t
  | case3 xs ys => exact maps xs ys
  | case4 a b hrecord hlist hmap => exact others a b hrecord hlist hmap

/-! ### The laws -/

/-- Alike values of which at most the declared relations look at the elements. -/
inductive AlikeBase (r : Declared) : Value → Value → Prop
  | structural {a b : Value} :
      IsBase (fun _ => True) a → same a b → AlikeBase r a b
  | declared {ty : RecordTypeId} {related : List Value → List Value → Bool} {xs ys : List Value} :
      r ty = some related → related xs ys → AlikeBase r (.record ty xs) (.record ty ys)

theorem alikeItems_iff {r : Declared} {xs ys : List Value} :
    alikeItems r xs ys ↔ List.Forall₂ (alike r · ·) xs ys := by
  induction xs generalizing ys with
  | nil => cases ys <;> simp [alikeItems]
  | cons x xs ih => cases ys <;> simp [alikeItems, ih]

theorem alikeEntries_iff {r : Declared} {xs ys : List (Value × Value)} :
    alikeEntries r xs ys ↔ Covers (alike r) xs ys := by
  induction xs with
  | nil => simp [alikeEntries, Covers]
  | cons e rest ih =>
      obtain ⟨key, value⟩ := e
      simp only [alikeEntries, Bool.and_eq_true, ih, Covers, List.forall_mem_cons, List.any_eq_true]

/-- A value that is structurally equal to one without elements has none. -/
theorem isBase_of_same {a b : Value} (ha : IsBase (fun _ => True) a) (hab : same a b) :
    IsBase (fun _ => True) b := by
  cases same_iff.mp hab with
  | base h => exact h.isBase.2
  | list _ => exact ha.elim
  | record _ _ => exact absurd trivial ha
  | map _ _ => exact ha.elim

theorem alike_iff {r : Declared} {a b : Value} :
    alike r a b ↔ Layer (r · = none) (alike r) (Covers (alike r)) (AlikeBase r) a b := by
  constructor
  · intro h
    fun_cases alike r a b with
    | case1 ty xs ty' ys =>
        simp only [alike, Bool.and_eq_true, beq_iff_eq] at h
        obtain ⟨rfl, hfields⟩ := h
        cases hr : r ty with
        | none =>
            rw [hr] at hfields
            exact .record hr (alikeItems_iff.mp hfields)
        | some related =>
            rw [hr] at hfields
            exact .base (.declared hr hfields)
    | case2 xs s ys t => exact .list (alikeItems_iff.mp h)
    | case3 xs ys =>
        simp only [alike, Bool.and_eq_true, beq_iff_eq] at h
        exact .map h.1 (alikeEntries_iff.mp h.2)
    | case4 _ _ hrecord hlist hmap =>
        rw [alike] at h <;> try assumption
        refine .base (.structural ?_ h)
        cases same_iff.mp h with
        | base hbase => exact hbase.isBase.1
        | list _ => exact (hlist _ _ _ _ rfl rfl).elim
        | record _ _ => exact (hrecord _ _ _ _ rfl rfl).elim
        | map _ _ => exact (hmap _ _ rfl rfl).elim
  · intro h
    cases h with
    | list h => exact alikeItems_iff.mpr h
    | map hlength h => simp [alike, hlength, alikeEntries_iff.mpr h]
    | record hplain h => simp [alike, hplain, alikeItems_iff.mpr h]
    | base h =>
        cases h with
        | declared hdeclared h => simp [alike, hdeclared, h]
        | structural hbase h =>
            cases a with
            | list xs s => exact hbase.elim
            | map xs => exact hbase.elim
            | record ty xs => exact absurd trivial hbase
            | _ => exact h

end Value

/-- The declared relations are equivalences on a set of values that has the parts
of its members, and they hold between structurally equal records. -/
structure Declared.LawfulOn (r : Declared) (D : Value → Prop) : Prop where
  parts : ∀ {x v}, D v → Value.Part x v → D x
  refl : ∀ {ty related xs}, r ty = some related → D (.record ty xs) → related xs xs
  symm : ∀ {ty related xs ys}, r ty = some related → D (.record ty xs) → D (.record ty ys) →
    related xs ys → related ys xs
  trans : ∀ {ty related xs ys zs}, r ty = some related → D (.record ty xs) →
    D (.record ty ys) → D (.record ty zs) → related xs ys → related ys zs → related xs zs
  structural : ∀ {ty related xs ys}, r ty = some related → D (.record ty xs) →
    D (.record ty ys) → Value.sameItems xs ys → related xs ys

namespace Value

variable {r : Declared} {D : Value → Prop}

/-- Structurally equal values are alike. -/
theorem alike_of_same (hlaw : r.LawfulOn D) {a b : Value} (ha : D a) (hb : D b)
    (hab : same a b) : alike r a b := by
  induction a using part_induction generalizing b with
  | h a ih =>
      have hpart : ∀ {x y : Value}, Part x a → Part y b → same x y → alike r x y :=
        fun hx hy hxy => ih _ hx (hlaw.parts ha hx) (hlaw.parts hb hy) hxy
      refine alike_iff.mpr ?_
      cases same_iff.mp hab with
      | base hlayer => exact .base (.structural hlayer.isBase.1 hab)
      | list hlayer =>
          exact .list (forall₂_imp_of_mem hlayer fun x hx y hy => hpart (.item hx) (.item hy))
      | @record ty xs ys _ hlayer =>
          cases hr : r ty with
          | none =>
              refine .record hr (forall₂_imp_of_mem hlayer fun x hx y hy => ?_)
              exact hpart (.field hx) (.field hy)
          | some related =>
              exact .base (.declared hr (hlaw.structural hr ha hb (sameItems_iff.mpr hlayer)))
      | map hlength hlayer =>
          refine .map hlength fun e he => ?_
          obtain ⟨f, hfound, hvalue⟩ := sameEntries_iff.mp hlayer e he
          have hkey := List.find?_some hfound
          have hf := List.mem_of_find?_eq_some hfound
          exact ⟨f, hf, hpart (.key he) (.key hf) hkey, hpart (.value he) (.value hf) hvalue⟩

/-- The values of a set whose maps have no two keys that are alike. -/
def Tidy (D : Value → Prop) (r : Declared) (v : Value) : Prop :=
  D v ∧ KeysApart (alike r) v

theorem Tidy.part (hlaw : r.LawfulOn D) {x v : Value} (hv : Tidy D r v) (hx : Part x v) :
    Tidy D r x :=
  ⟨hlaw.parts hv.1 hx, hv.2.part hx⟩

/-- Where no two keys are alike, no two keys are structurally equal. -/
theorem Tidy.keysApart_same (hlaw : r.LawfulOn D) {v : Value} (hv : Tidy D r v) :
    KeysApart same v :=
  KeysApart.mono hlaw.parts (alike_of_same hlaw) hv.1 hv.2

/-- The laws for values that are not taken apart. -/
theorem alikeBase_equivalenceOn (hlaw : r.LawfulOn D) :
    EquivalenceOn (fun v => Tidy D r v ∧ IsBase (r · = none) v) (AlikeBase r) := by
  have hsame := fun {v} (hv : Tidy D r v) => hv.keysApart_same hlaw
  refine ⟨?_, ?_, ?_⟩
  · rintro a ⟨ha, hbase⟩
    have helse : IsBase (fun _ => True) a → AlikeBase r a a := fun h =>
      .structural h (same_equivalenceOn.refl (hsame ha))
    cases a with
    | list xs s => exact hbase.elim
    | map xs => exact hbase.elim
    | record ty xs =>
        obtain ⟨related, hr⟩ := Option.ne_none_iff_exists'.mp hbase
        exact .declared hr (hlaw.refl hr ha.1)
    | _ => exact helse trivial
  · rintro a b ⟨ha, -⟩ ⟨hb, -⟩ hab
    cases hab with
    | structural hbase hab =>
        exact .structural (isBase_of_same hbase hab)
          (same_equivalenceOn.symm (hsame ha) (hsame hb) hab)
    | declared hr hab => exact .declared hr (hlaw.symm hr ha.1 hb.1 hab)
  · rintro a b c ⟨ha, -⟩ ⟨hb, -⟩ ⟨hc, -⟩ hab hbc
    cases hab with
    | structural hbase hab =>
        have hbase' := isBase_of_same hbase hab
        cases hbc with
        | structural _ hbc =>
            exact .structural hbase
              (same_equivalenceOn.trans (hsame ha) (hsame hb) (hsame hc) hab hbc)
        | declared _ _ => exact absurd trivial hbase'
    | declared hr hab =>
        cases hbc with
        | structural hbase _ => exact absurd trivial hbase
        | declared hr' hbc =>
            obtain rfl := Option.some.inj (hr.symm.trans hr')
            exact .declared hr (hlaw.trans hr ha.1 hb.1 hc.1 hab hbc)

/-- What is never taken apart is not taken apart where some records are not. -/
theorem IsBase.of_all {plain : RecordTypeId → Prop} {v : Value} (h : IsBase (fun _ => True) v) :
    IsBase plain v := by
  cases v with
  | list items source => exact h.elim
  | map entries => exact h.elim
  | record ty fields => exact absurd trivial h
  | _ => trivial

theorem AlikeBase.isBase {a b : Value} (h : AlikeBase r a b) :
    IsBase (r · = none) a ∧ IsBase (r · = none) b := by
  cases h with
  | structural hbase hab => exact ⟨hbase.of_all, (isBase_of_same hbase hab).of_all⟩
  | declared hr _ => exact ⟨by simp [IsBase, hr], by simp [IsBase, hr]⟩

/-- Being alike is an equivalence on the values whose maps have no two keys that
are alike. -/
theorem alike_equivalenceOn (hlaw : r.LawfulOn D) : EquivalenceOn (Tidy D r) (alike r · ·) := by
  refine equivalenceOn_of_layers (fun _ _ => alike_iff) fun n ih => ?_
  have hbase := alikeBase_equivalenceOn hlaw
  exact
    { parts := smaller_part (Tidy.part hlaw)
      apart := fun hv => hv.1.2.apart
      covers := fun _ _ => Iff.rfl
      equivalence := ih
      isBase := AlikeBase.isBase
      base :=
        ⟨fun ha => hbase.refl ⟨ha.1.1, ha.2⟩,
          fun ha hb => hbase.symm ⟨ha.1.1, ha.2⟩ ⟨hb.1.1, hb.2⟩,
          fun ha hb hc => hbase.trans ⟨ha.1.1, ha.2⟩ ⟨hb.1.1, hb.2⟩ ⟨hc.1.1, hc.2⟩⟩ }

end Value

end Lisp
