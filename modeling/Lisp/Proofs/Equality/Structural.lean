import Lisp.Value.Equality
import Lisp.Value.Hash
import Mathlib.Data.List.Forall2
import Mathlib.Data.List.Perm.Basic

/-!
# Structural equality is an equivalence

A map is compared by walking through the entries of the one and looking each of
them up in the other.  That this is symmetric at all is a matter of counting: two
maps of one size, no two keys of the first being equal, so the entries that the
walk finds are all the entries of the second (`exists_perm_forall₂`).

* `Value.KeysApart` says of a value that no map inside it, however deep, has two
  keys that a relation identifies.
* `Value.same_equivalenceOn`: structural equality is an equivalence on the values
  whose maps have no two structurally equal keys.
* `Value.feed_eq_of_same`: structurally equal values of this kind are mixed into
  a running hash in the same way.
-/

namespace Lisp

/-- The relation is an equivalence as far as a set of values goes. -/
structure EquivalenceOn (D : Value → Prop) (R : Value → Value → Prop) : Prop where
  refl : ∀ {a}, D a → R a a
  symm : ∀ {a b}, D a → D b → R a b → R b a
  trans : ∀ {a b c}, D a → D b → D c → R a b → R b c → R a c

theorem EquivalenceOn.of_iff {D : Value → Prop} {R S : Value → Value → Prop}
    (hiff : ∀ a b, S a b ↔ R a b) (h : EquivalenceOn D R) : EquivalenceOn D S := by
  have heq : S = R := funext fun a => funext fun b => propext (hiff a b)
  rw [heq]
  exact h

/-! ### Matching two lists -/

/-- The only element that passes a test is the first one that does. -/
theorem find?_eq_of_unique {α : Type} {l : List α} {p : α → Bool} {a : α} (ha : a ∈ l)
    (hp : p a) (hunique : ∀ b ∈ l, p b → b = a) : l.find? p = some a := by
  cases hfound : l.find? p with
  | none => exact absurd hp (List.find?_eq_none.mp hfound a ha)
  | some b =>
      have hmem := List.mem_of_find?_eq_some hfound
      have hpasses : p b := List.find?_some hfound
      rw [hunique b hmem hpasses]

/-- Two lists of one length are matched in full, in some order, as soon as every
element of the first has a partner and no two of them share one. -/
theorem exists_perm_forall₂ {α β : Type} {M : α → β → Prop} {xs : List α} {ys : List β}
    (hlength : xs.length = ys.length) (hpartner : ∀ x ∈ xs, ∃ y ∈ ys, M x y)
    (hapart : xs.Pairwise fun x x' => ∀ y ∈ ys, M x y → ¬ M x' y) :
    ∃ zs, zs.Perm ys ∧ List.Forall₂ M xs zs := by
  induction xs generalizing ys with
  | nil =>
      have hys : ys = [] := List.length_eq_zero_iff.mp hlength.symm
      exact ⟨[], by rw [hys], .nil⟩
  | cons x xs ih =>
      obtain ⟨y, hy, hxy⟩ := hpartner x List.mem_cons_self
      obtain ⟨before, after, rfl⟩ := List.append_of_mem hy
      obtain ⟨hfirst, hrest⟩ := List.pairwise_cons.mp hapart
      have hmem : ∀ z ∈ before ++ after, z ∈ before ++ y :: after := by
        intro z hz
        rcases List.mem_append.mp hz with hbefore | hafter
        · exact List.mem_append_left _ hbefore
        · exact List.mem_append_right _ (List.mem_cons_of_mem y hafter)
      -- The partner of a later element is none of `y`, which `x` has taken.
      have hpartner' : ∀ x' ∈ xs, ∃ z ∈ before ++ after, M x' z := by
        intro x' hx'
        obtain ⟨z, hz, hxz⟩ := hpartner x' (List.mem_cons_of_mem x hx')
        rcases List.mem_append.mp hz with hbefore | hcons
        · exact ⟨z, List.mem_append_left _ hbefore, hxz⟩
        · rcases List.mem_cons.mp hcons with rfl | hafter
          · exact absurd hxz (hfirst x' hx' z hy hxy)
          · exact ⟨z, List.mem_append_right _ hafter, hxz⟩
      have hlength' : xs.length = (before ++ after).length := by
        simp only [List.length_append, List.length_cons] at hlength ⊢
        omega
      obtain ⟨zs, hperm, hmatched⟩ := ih hlength' hpartner'
        (hrest.imp fun hab z hz => hab z (hmem z hz))
      exact ⟨y :: zs, (hperm.cons y).trans List.perm_middle.symm, .cons hxy hmatched⟩

/-! ### Sequences, element by element -/

/-- A relation between lists follows from another one if it does so for their
elements. -/
theorem forall₂_imp_of_mem {α β : Type} {R S : α → β → Prop} {xs : List α} {ys : List β}
    (h : List.Forall₂ R xs ys) (himp : ∀ x ∈ xs, ∀ y ∈ ys, R x y → S x y) :
    List.Forall₂ S xs ys := by
  induction h with
  | nil => exact .nil
  | @cons x y xs ys hhead _ ih =>
      refine .cons (himp x List.mem_cons_self y List.mem_cons_self hhead) (ih ?_)
      intro x' hx' y' hy'
      exact himp x' (List.mem_cons_of_mem x hx') y' (List.mem_cons_of_mem y hy')

/-- Every element of the first of two related lists has a partner. -/
theorem exists_mem_of_forall₂ {α β : Type} {R : α → β → Prop} {xs : List α} {ys : List β}
    (h : List.Forall₂ R xs ys) {x : α} (hx : x ∈ xs) : ∃ y ∈ ys, R x y := by
  induction h with
  | nil => cases hx
  | @cons x' y xs ys hhead _ ih =>
      rcases List.mem_cons.mp hx with rfl | hrest
      · exact ⟨y, List.mem_cons_self, hhead⟩
      · obtain ⟨y', hy', hxy⟩ := ih hrest
        exact ⟨y', List.mem_cons_of_mem y hy', hxy⟩

namespace EquivalenceOn

variable {D : Value → Prop} {R : Value → Value → Bool} {xs ys zs : List Value}

theorem forall₂_symm (h : EquivalenceOn D (R · ·)) (hxs : ∀ x ∈ xs, D x) (hys : ∀ y ∈ ys, D y)
    (hxy : List.Forall₂ (R · ·) xs ys) : List.Forall₂ (R · ·) ys xs := by
  have hflip := forall₂_imp_of_mem hxy fun x hx y hy => h.symm (hxs x hx) (hys y hy)
  exact List.Forall₂.flip hflip

theorem forall₂_trans (h : EquivalenceOn D (R · ·)) (hxs : ∀ x ∈ xs, D x) (hys : ∀ y ∈ ys, D y)
    (hzs : ∀ z ∈ zs, D z) (hxy : List.Forall₂ (R · ·) xs ys)
    (hyz : List.Forall₂ (R · ·) ys zs) : List.Forall₂ (R · ·) xs zs := by
  induction hxy generalizing zs with
  | nil => exact hyz
  | @cons x y xs ys hhead _ ih =>
      cases hyz with
      | @cons _ z _ zs hhead' htail' =>
          have hx := hxs x List.mem_cons_self
          have hy := hys y List.mem_cons_self
          have hz := hzs z List.mem_cons_self
          refine .cons (h.trans hx hy hz hhead hhead') (ih ?_ ?_ ?_ htail')
          · exact fun x' hx' => hxs x' (List.mem_cons_of_mem x hx')
          · exact fun y' hy' => hys y' (List.mem_cons_of_mem y hy')
          · exact fun z' hz' => hzs z' (List.mem_cons_of_mem z hz')

end EquivalenceOn

/-! ### Entries, in whichever order they are kept -/

/-- No two entries of a map stand under keys that the relation identifies. -/
def Apart (R : Value → Value → Bool) (entries : List (Value × Value)) : Prop :=
  entries.Pairwise fun e f => R e.1 f.1 = false

/-- Each entry of the first map has one in the second with a related key and a
related value. -/
def Covers (R : Value → Value → Bool) (xs ys : List (Value × Value)) : Prop :=
  ∀ e ∈ xs, ∃ f ∈ ys, R e.1 f.1 ∧ R e.2 f.2

namespace EquivalenceOn

variable {D : Value → Prop} {R : Value → Value → Bool} {xs ys zs : List (Value × Value)}

/-- Two entries of a map under related keys are one entry. -/
theorem eq_of_related (h : EquivalenceOn D (R · ·)) (hkeys : ∀ e ∈ xs, D e.1) (hapart : Apart R xs)
    {e f : Value × Value} (he : e ∈ xs) (hf : f ∈ xs) (hef : R e.1 f.1) : e = f := by
  induction xs with
  | nil => cases he
  | cons g rest ih =>
      obtain ⟨hg, hrest⟩ := List.pairwise_cons.mp hapart
      rcases List.mem_cons.mp he with rfl | he' <;> rcases List.mem_cons.mp hf with rfl | hf'
      · rfl
      · simp [hg f hf'] at hef
      · have hback := h.symm (hkeys e he) (hkeys f hf) hef
        simp [hg e he'] at hback
      · exact ih (fun e he => hkeys e (List.mem_cons_of_mem g he)) hrest he' hf'

/-- An entry is found under every key that is related to its own. -/
theorem find?_eq (h : EquivalenceOn D (R · ·)) (hkeys : ∀ e ∈ xs, D e.1) (hapart : Apart R xs)
    {key : Value} (hkey : D key) {e : Value × Value} (he : e ∈ xs) (hrelated : R e.1 key) :
    xs.find? (fun f => R f.1 key) = some e := by
  refine find?_eq_of_unique he hrelated fun f hf hfkey => ?_
  have hback := h.symm (hkeys e he) hkey hrelated
  exact h.eq_of_related hkeys hapart hf he (h.trans (hkeys f hf) hkey (hkeys e he) hfkey hback)

/-- Looking for the keys that a key is related to is looking for the keys that
are related to it. -/
theorem find?_comm (h : EquivalenceOn D (R · ·)) (hkeys : ∀ e ∈ xs, D e.1) {key : Value}
    (hkey : D key) : xs.find? (fun f => R key f.1) = xs.find? (fun f => R f.1 key) := by
  induction xs with
  | nil => rfl
  | cons e rest ih =>
      have he := hkeys e List.mem_cons_self
      have hcomm : R key e.1 = R e.1 key := by
        rw [Bool.eq_iff_iff]
        exact ⟨h.symm hkey he, h.symm he hkey⟩
      simp only [List.find?_cons, hcomm, ih fun f hf => hkeys f (List.mem_cons_of_mem e hf)]

theorem covers_refl (h : EquivalenceOn D (R · ·)) (hxs : ∀ e ∈ xs, D e.1 ∧ D e.2) :
    Covers R xs xs :=
  fun e he => ⟨e, he, h.refl (hxs e he).1, h.refl (hxs e he).2⟩

theorem covers_trans (h : EquivalenceOn D (R · ·)) (hxs : ∀ e ∈ xs, D e.1 ∧ D e.2)
    (hys : ∀ e ∈ ys, D e.1 ∧ D e.2) (hzs : ∀ e ∈ zs, D e.1 ∧ D e.2) (hxy : Covers R xs ys)
    (hyz : Covers R ys zs) : Covers R xs zs := by
  intro e he
  obtain ⟨f, hf, hkey, hvalue⟩ := hxy e he
  obtain ⟨g, hg, hkey', hvalue'⟩ := hyz f hf
  refine ⟨g, hg, ?_, ?_⟩
  · exact h.trans (hxs e he).1 (hys f hf).1 (hzs g hg).1 hkey hkey'
  · exact h.trans (hxs e he).2 (hys f hf).2 (hzs g hg).2 hvalue hvalue'

/-- A map that covers another one of its size has the same entries, up to the
relation and the order. -/
theorem exists_perm_of_covers (h : EquivalenceOn D (R · ·)) (hxs : ∀ e ∈ xs, D e.1 ∧ D e.2)
    (hys : ∀ e ∈ ys, D e.1 ∧ D e.2) (hapart : Apart R xs) (hlength : xs.length = ys.length)
    (hcovers : Covers R xs ys) :
    ∃ zs, zs.Perm ys ∧ List.Forall₂ (fun e f => R e.1 f.1 ∧ R e.2 f.2) xs zs := by
  refine exists_perm_forall₂ hlength hcovers ?_
  refine hapart.imp_of_mem fun {e e'} he he' hne f hf hef hef' => ?_
  have hback := h.symm (hxs e' he').1 (hys f hf).1 hef'.1
  have hrelated := h.trans (hxs e he).1 (hys f hf).1 (hxs e' he').1 hef.1 hback
  simp [hne] at hrelated

theorem covers_symm (h : EquivalenceOn D (R · ·)) (hxs : ∀ e ∈ xs, D e.1 ∧ D e.2)
    (hys : ∀ e ∈ ys, D e.1 ∧ D e.2) (hapart : Apart R xs) (hlength : xs.length = ys.length)
    (hcovers : Covers R xs ys) : Covers R ys xs := by
  obtain ⟨zs, hperm, hmatched⟩ := h.exists_perm_of_covers hxs hys hapart hlength hcovers
  intro f hf
  obtain ⟨e, he, hef⟩ := exists_mem_of_forall₂ hmatched.flip (hperm.mem_iff.mpr hf)
  refine ⟨e, he, ?_, ?_⟩
  · exact h.symm (hxs e he).1 (hys f hf).1 hef.1
  · exact h.symm (hxs e he).2 (hys f hf).2 hef.2

end EquivalenceOn

/-! ### The parts of a value -/

namespace Value

/-- The parts of a value that a comparison looks into. -/
inductive Part : Value → Value → Prop
  | item {x : Value} {items : List Value} {source : Option Span} :
      x ∈ items → Part x (.list items source)
  | field {x : Value} {ty : RecordTypeId} {fields : List Value} :
      x ∈ fields → Part x (.record ty fields)
  | key {e : Value × Value} {entries : List (Value × Value)} :
      e ∈ entries → Part e.1 (.map entries)
  | value {e : Value × Value} {entries : List (Value × Value)} :
      e ∈ entries → Part e.2 (.map entries)
  | receiver {r t : Value} : Part r (.bound r t)
  | target {r t : Value} : Part t (.bound r t)
  | data {serial : Nat} {message : String} {d : Value} {kind : Option String} :
      Part d (.error serial message d kind)

/-- A part is smaller than the whole. -/
theorem Part.sizeOf_lt {x v : Value} (h : Part x v) : sizeOf x < sizeOf v := by
  cases h with
  | item hmem =>
      have := List.sizeOf_lt_of_mem hmem
      simp only [list.sizeOf_spec]
      omega
  | field hmem =>
      have := List.sizeOf_lt_of_mem hmem
      simp only [record.sizeOf_spec]
      omega
  | @key e entries hmem =>
      obtain ⟨key, value⟩ := e
      have := List.sizeOf_lt_of_mem hmem
      simp only [map.sizeOf_spec, Prod.mk.sizeOf_spec] at this ⊢
      omega
  | @value e entries hmem =>
      obtain ⟨key, value⟩ := e
      have := List.sizeOf_lt_of_mem hmem
      simp only [map.sizeOf_spec, Prod.mk.sizeOf_spec] at this ⊢
      omega
  | receiver =>
      simp only [bound.sizeOf_spec]
      omega
  | target =>
      simp only [bound.sizeOf_spec]
      omega
  | data =>
      simp only [error.sizeOf_spec]
      omega

/-- No map inside the value, however deep, has two keys that the relation
identifies. -/
inductive KeysApart (R : Value → Value → Bool) : Value → Prop
  | intro {v : Value} (parts : ∀ x, Part x v → KeysApart R x)
      (apart : ∀ entries, v = .map entries → Apart R entries) : KeysApart R v

theorem KeysApart.part {R : Value → Value → Bool} {x v : Value} (h : KeysApart R v)
    (hx : Part x v) : KeysApart R x := by
  obtain ⟨hparts, -⟩ := h
  exact hparts x hx

theorem KeysApart.apart {R : Value → Value → Bool} {entries : List (Value × Value)}
    (h : KeysApart R (.map entries)) : Apart R entries := by
  obtain ⟨-, hapart⟩ := h
  exact hapart entries rfl

/-- Keys that are apart are apart for every relation that is finer on them. -/
theorem KeysApart.mono {D : Value → Prop} (hparts : ∀ {x v}, D v → Part x v → D x)
    {R S : Value → Value → Bool} (hfiner : ∀ {a b}, D a → D b → S a b → R a b) {v : Value}
    (hv : D v) (h : KeysApart R v) : KeysApart S v := by
  induction h with
  | intro _ hapart ih =>
      refine ⟨fun x hx => ih x hx (hparts hv hx), ?_⟩
      rintro entries rfl
      refine (hapart entries rfl).imp_of_mem fun {e f} he hf hne => ?_
      rw [Bool.eq_false_iff] at hne ⊢
      exact fun hef => hne (hfiner (hparts hv (.key he)) (hparts hv (.key hf)) hef)

/-- What holds of a value as soon as it holds of its parts holds of all values. -/
theorem part_induction {P : Value → Prop} (h : ∀ v, (∀ x, Part x v → P x) → P v) (v : Value) :
    P v :=
  h v fun x _ => part_induction h x
termination_by sizeOf v
decreasing_by exact Part.sizeOf_lt ‹_›

/-- What holds of two values as soon as it holds of their parts, in either order, holds
of all values. -/
theorem part_induction₂ {P : Value → Value → Prop}
    (h : ∀ a b, (∀ x y, Part x a → Part y b → P x y ∧ P y x) → P a b) (a b : Value) : P a b :=
  h a b fun x y _ _ => ⟨part_induction₂ h x y, part_induction₂ h y x⟩
termination_by sizeOf a + sizeOf b
decreasing_by
  all_goals
    have hx := Part.sizeOf_lt ‹Part x a›
    have hy := Part.sizeOf_lt ‹Part y b›
    omega

/-! ### One layer of a comparison -/

/-- Values that a comparison does not take apart: neither lists nor maps, nor
records of a plain type. -/
def IsBase (plain : RecordTypeId → Prop) : Value → Prop
  | .list .. | .map _ => False
  | .record ty _ => ¬ plain ty
  | _ => True

/-- One layer of a comparison: lists and records of a plain type are compared
element by element, maps by their entries, and everything else by a relation of
its own. -/
inductive Layer (plain : RecordTypeId → Prop) (R : Value → Value → Bool)
    (E : List (Value × Value) → List (Value × Value) → Prop) (B : Value → Value → Prop) :
    Value → Value → Prop
  | base {a b : Value} : B a b → Layer plain R E B a b
  | list {xs ys : List Value} {s t : Option Span} :
      List.Forall₂ (R · ·) xs ys → Layer plain R E B (.list xs s) (.list ys t)
  | record {ty : RecordTypeId} {xs ys : List Value} : plain ty →
      List.Forall₂ (R · ·) xs ys → Layer plain R E B (.record ty xs) (.record ty ys)
  | map {xs ys : List (Value × Value)} : xs.length = ys.length → E xs ys →
      Layer plain R E B (.map xs) (.map ys)

/-- What makes a layer over an equivalence an equivalence: `D` holds the parts of
the values in `D'`, and the entries of maps are compared by covering them. -/
structure Layering (D D' : Value → Prop) (plain : RecordTypeId → Prop) (R : Value → Value → Bool)
    (E : List (Value × Value) → List (Value × Value) → Prop) (B : Value → Value → Prop) :
    Prop where
  parts : ∀ {x v}, D' v → Part x v → D x
  apart : ∀ {entries}, D' (.map entries) → Apart R entries
  covers : ∀ {xs ys}, D' (.map xs) → D' (.map ys) → (E xs ys ↔ Covers R xs ys)
  equivalence : EquivalenceOn D (R · ·)
  isBase : ∀ {a b}, B a b → IsBase plain a ∧ IsBase plain b
  base : EquivalenceOn (fun v => D' v ∧ IsBase plain v) B

namespace Layering

variable {D D' : Value → Prop} {plain : RecordTypeId → Prop} {R : Value → Value → Bool}
  {E : List (Value × Value) → List (Value × Value) → Prop} {B : Value → Value → Prop}

theorem entries (h : Layering D D' plain R E B) {xs : List (Value × Value)}
    (hxs : D' (.map xs)) : ∀ e ∈ xs, D e.1 ∧ D e.2 :=
  fun _ he => ⟨h.parts hxs (.key he), h.parts hxs (.value he)⟩

theorem layer_refl (h : Layering D D' plain R E B) {a : Value} (ha : D' a) :
    Layer plain R E B a a := by
  have helse : IsBase plain a → Layer plain R E B a a := fun hbase =>
    .base (h.base.refl ⟨ha, hbase⟩)
  cases a with
  | list xs s =>
      exact .list (List.forall₂_same.mpr fun x hx => h.equivalence.refl (h.parts ha (.item hx)))
  | map xs =>
      refine .map rfl ((h.covers ha ha).mpr ?_)
      exact h.equivalence.covers_refl (h.entries ha)
  | record ty xs =>
      by_cases hplain : plain ty
      · refine .record hplain (List.forall₂_same.mpr fun x hx => ?_)
        exact h.equivalence.refl (h.parts ha (.field hx))
      · exact helse hplain
  | _ => exact helse trivial

theorem layer_symm (h : Layering D D' plain R E B) {a b : Value} (ha : D' a) (hb : D' b)
    (hab : Layer plain R E B a b) : Layer plain R E B b a := by
  cases hab with
  | base hab =>
      obtain ⟨hbase, hbase'⟩ := h.isBase hab
      exact .base (h.base.symm ⟨ha, hbase⟩ ⟨hb, hbase'⟩ hab)
  | list hab =>
      exact .list (h.equivalence.forall₂_symm (fun x hx => h.parts ha (.item hx))
        (fun y hy => h.parts hb (.item hy)) hab)
  | record hplain hab =>
      exact .record hplain (h.equivalence.forall₂_symm (fun x hx => h.parts ha (.field hx))
        (fun y hy => h.parts hb (.field hy)) hab)
  | map hlength hab =>
      refine .map hlength.symm ((h.covers hb ha).mpr ?_)
      exact h.equivalence.covers_symm (h.entries ha) (h.entries hb) (h.apart ha) hlength
        ((h.covers ha hb).mp hab)

theorem layer_trans (h : Layering D D' plain R E B) {a b c : Value} (ha : D' a) (hb : D' b)
    (hc : D' c) (hab : Layer plain R E B a b) (hbc : Layer plain R E B b c) :
    Layer plain R E B a c := by
  cases hab with
  | base hab =>
      obtain ⟨hbase, hbase'⟩ := h.isBase hab
      cases hbc with
      | base hbc =>
          obtain ⟨-, hbase''⟩ := h.isBase hbc
          exact .base (h.base.trans ⟨ha, hbase⟩ ⟨hb, hbase'⟩ ⟨hc, hbase''⟩ hab hbc)
      | list _ => exact hbase'.elim
      | record hplain _ => exact absurd hplain hbase'
      | map _ _ => exact hbase'.elim
  | list hab =>
      cases hbc with
      | base hbc => exact (h.isBase hbc).1.elim
      | list hbc =>
          exact .list (h.equivalence.forall₂_trans (fun x hx => h.parts ha (.item hx))
            (fun y hy => h.parts hb (.item hy)) (fun z hz => h.parts hc (.item hz)) hab hbc)
  | record hplain hab =>
      cases hbc with
      | base hbc => exact absurd hplain (h.isBase hbc).1
      | record _ hbc =>
          exact .record hplain (h.equivalence.forall₂_trans (fun x hx => h.parts ha (.field hx))
            (fun y hy => h.parts hb (.field hy)) (fun z hz => h.parts hc (.field hz)) hab hbc)
  | map hlength hab =>
      cases hbc with
      | base hbc => exact (h.isBase hbc).1.elim
      | map hlength' hbc =>
          refine .map (hlength.trans hlength') ((h.covers ha hc).mpr ?_)
          exact h.equivalence.covers_trans (h.entries ha) (h.entries hb) (h.entries hc)
            ((h.covers ha hb).mp hab) ((h.covers hb hc).mp hbc)

end Layering

/-- A relation that is a layer over itself is an equivalence, if it is one on the
leaves.  The laws of a map need all three of them for its keys, so they are
carried by one induction on a size that the values do not exceed. -/
theorem equivalenceOn_of_layers {D : Value → Prop} {plain : RecordTypeId → Prop}
    {R : Value → Value → Bool} {E : List (Value × Value) → List (Value × Value) → Prop}
    {B : Value → Value → Prop} (hlayer : ∀ a b, R a b ↔ Layer plain R E B a b)
    (hlayering : ∀ n, EquivalenceOn (fun v => D v ∧ sizeOf v < n) (R · ·) →
      Layering (fun v => D v ∧ sizeOf v < n) (fun v => D v ∧ sizeOf v < n + 1) plain R E B) :
    EquivalenceOn D (R · ·) := by
  have hbelow : ∀ n, EquivalenceOn (fun v => D v ∧ sizeOf v < n) (R · ·) := by
    intro n
    induction n with
    | zero =>
        refine ⟨fun ha => ?_, fun ha => ?_, fun ha => ?_⟩ <;> exact absurd ha.2 (Nat.not_lt_zero _)
    | succ n ih =>
        have h := hlayering n ih
        have hlaws : EquivalenceOn _ (Layer plain R E B) :=
          ⟨h.layer_refl, h.layer_symm, h.layer_trans⟩
        exact hlaws.of_iff hlayer
  constructor
  · intro a ha
    exact (hbelow (sizeOf a + 1)).refl ⟨ha, by omega⟩
  · intro a b ha hb hab
    exact (hbelow (sizeOf a + sizeOf b + 1)).symm ⟨ha, by omega⟩ ⟨hb, by omega⟩ hab
  · intro a b c ha hb hc hab hbc
    exact (hbelow (sizeOf a + sizeOf b + sizeOf c + 1)).trans ⟨ha, by omega⟩ ⟨hb, by omega⟩
      ⟨hc, by omega⟩ hab hbc

/-- The parts of the values up to a size are smaller. -/
theorem smaller_part {D : Value → Prop} (hparts : ∀ {x v}, D v → Part x v → D x) {n : Nat}
    {x v : Value} (hv : D v ∧ sizeOf v < n + 1) (hx : Part x v) : D x ∧ sizeOf x < n :=
  ⟨hparts hv.1 hx, Nat.lt_of_lt_of_le hx.sizeOf_lt (Nat.lt_succ_iff.mp hv.2)⟩

/-! ### Structural equality -/

/-- What is left of a value without parts when a comparison has read it. -/
inductive Leaf where
  | nil
  | bool (b : Bool)
  | num (key : UInt64)
  | str (text : String)
  | sym (s : Symbol)
  | keyword (name : String)
  | closure (id : ClosureId)
  | builtin (b : Builtin)
  | accessor (serial : Nat)
  | interface (id : InterfaceId)
  | type (tag : TypeTag)

/-- The leaf of a value that has no parts. -/
def leaf? : Value → Option Leaf
  | .nil => some .nil
  | .bool b => some (.bool b)
  | .num n => some (.num (Number.key n))
  | .str text => some (.str text)
  | .sym s => some (.sym s)
  | .keyword name => some (.keyword name)
  | .closure id => some (.closure id)
  | .builtin b => some (.builtin b)
  | .accessor serial _ _ => some (.accessor serial)
  | .interface id => some (.interface id)
  | .type tag => some (.type tag)
  | .list .. | .map _ | .bound .. | .record .. | .error .. => none

/-- Structural equality of values that are neither lists, records nor maps. -/
inductive SameBase : Value → Value → Prop
  | leaf {a b : Value} {x : Leaf} : a.leaf? = some x → b.leaf? = some x → SameBase a b
  | bound {r r' t t' : Value} : same r r' → same t t' → SameBase (.bound r t) (.bound r' t')
  | error {i i' : Nat} {message : String} {d d' : Value} {k k' : Option String} :
      same d d' → SameBase (.error i message d k) (.error i' message d' k')

theorem isBase_of_leaf? {plain : RecordTypeId → Prop} {a : Value} {x : Leaf}
    (h : a.leaf? = some x) : IsBase plain a := by
  cases a <;> trivial

theorem SameBase.isBase {plain : RecordTypeId → Prop} {a b : Value} (h : SameBase a b) :
    IsBase plain a ∧ IsBase plain b := by
  cases h with
  | leaf ha hb => exact ⟨isBase_of_leaf? ha, isBase_of_leaf? hb⟩
  | bound _ _ => exact ⟨trivial, trivial⟩
  | error _ => exact ⟨trivial, trivial⟩

theorem sameItems_iff {xs ys : List Value} :
    sameItems xs ys ↔ List.Forall₂ (same · ·) xs ys := by
  induction xs generalizing ys with
  | nil => cases ys <;> simp [sameItems]
  | cons x xs ih => cases ys <;> simp [sameItems, ih]

/-- Each entry is looked up by its key, and what is found has an equal value. -/
theorem sameEntries_iff {xs ys : List (Value × Value)} :
    sameEntries xs ys ↔
      ∀ e ∈ xs, ∃ f, ys.find? (fun f => same e.1 f.1) = some f ∧ same e.2 f.2 := by
  induction xs with
  | nil => simp [sameEntries]
  | cons e rest ih =>
      obtain ⟨key, value⟩ := e
      simp only [sameEntries, Bool.and_eq_true, ih, List.forall_mem_cons]
      refine and_congr ?_ Iff.rfl
      cases ys.find? (fun f => same key f.1) <;> simp

theorem same_iff {a b : Value} :
    same a b ↔ Layer (fun _ => True) same (sameEntries · ·) SameBase a b := by
  constructor
  · intro h
    fun_cases same a b <;> simp_all only [same, Bool.and_eq_true, beq_iff_eq, Bool.false_eq_true]
    case case3 =>
      refine .base (.leaf rfl ?_)
      simp only [leaf?, ← beq_iff_eq.mp h]
    case case7 => exact .list (sameItems_iff.mp h)
    case case8 => exact .map h.1 h.2
    case case12 => exact .base (.bound h.1 h.2)
    case case15 => exact .record trivial (sameItems_iff.mp h.2)
    case case16 => exact .base (.error h.2)
    all_goals exact .base (.leaf rfl rfl)
  · intro h
    cases h with
    | list h => exact sameItems_iff.mpr h
    | map hlength h => simp [same, hlength, h]
    | record _ h => simp [same, sameItems_iff.mpr h]
    | base h =>
        cases h with
        | bound hr ht => simp [same, hr, ht]
        | error h => simp [same, h]
        | leaf ha hb =>
            cases a <;> simp only [leaf?, Option.some.injEq, reduceCtorEq] at ha <;> subst ha <;>
              cases b <;> simp_all [leaf?, same, Number.same]

/-- Where structural equality is an equivalence on the keys, looking the entries
up is covering them. -/
theorem sameEntries_iff_covers {D : Value → Prop} {xs ys : List (Value × Value)}
    (h : EquivalenceOn D (same · ·)) (hxs : ∀ e ∈ xs, D e.1) (hys : ∀ e ∈ ys, D e.1)
    (hapart : Apart same ys) : sameEntries xs ys ↔ Covers same xs ys := by
  rw [sameEntries_iff]
  refine forall₂_congr fun e he => ?_
  constructor
  · rintro ⟨f, hfound, hvalue⟩
    have hkey := List.find?_some hfound
    exact ⟨f, List.mem_of_find?_eq_some hfound, hkey, hvalue⟩
  · rintro ⟨f, hf, hkey, hvalue⟩
    refine ⟨f, ?_, hvalue⟩
    rw [h.find?_comm hys (hxs e he)]
    exact h.find?_eq hys hapart (hxs e he) hf (h.symm (hxs e he) (hys f hf) hkey)

/-- The laws for values without elements and entries, from those for their
parts. -/
theorem sameBase_equivalenceOn {D D' : Value → Prop} (hparts : ∀ {x v}, D' v → Part x v → D x)
    (h : EquivalenceOn D (same · ·)) :
    EquivalenceOn (fun v => D' v ∧ IsBase (fun _ => True) v) SameBase := by
  refine ⟨?_, ?_, ?_⟩
  · rintro a ⟨ha, hbase⟩
    cases a with
    | list xs s => exact hbase.elim
    | map xs => exact hbase.elim
    | record ty xs => exact absurd trivial hbase
    | bound r t => exact .bound (h.refl (hparts ha .receiver)) (h.refl (hparts ha .target))
    | error i message d k => exact .error (h.refl (hparts ha .data))
    | _ => exact .leaf rfl rfl
  · rintro a b ⟨ha, -⟩ ⟨hb, -⟩ hab
    cases hab with
    | leaf hleaf hleaf' => exact .leaf hleaf' hleaf
    | bound hr ht =>
        exact .bound (h.symm (hparts ha .receiver) (hparts hb .receiver) hr)
          (h.symm (hparts ha .target) (hparts hb .target) ht)
    | error hd => exact .error (h.symm (hparts ha .data) (hparts hb .data) hd)
  · rintro a b c ⟨ha, -⟩ ⟨hb, -⟩ ⟨hc, -⟩ hab hbc
    cases hab with
    | leaf hleaf hleaf' =>
        cases hbc with
        | leaf hleaf₂ hleaf₂' =>
            have hx := Option.some.inj (hleaf'.symm.trans hleaf₂)
            exact .leaf hleaf (hx ▸ hleaf₂')
        | bound _ _ => cases hleaf'
        | error _ => cases hleaf'
    | bound hr ht =>
        cases hbc with
        | leaf hleaf _ => cases hleaf
        | bound hr' ht' =>
            exact .bound
              (h.trans (hparts ha .receiver) (hparts hb .receiver) (hparts hc .receiver) hr hr')
              (h.trans (hparts ha .target) (hparts hb .target) (hparts hc .target) ht ht')
    | error hd =>
        cases hbc with
        | leaf hleaf _ => cases hleaf
        | error hd' =>
            exact .error (h.trans (hparts ha .data) (hparts hb .data) (hparts hc .data) hd hd')

/-- Structural equality is an equivalence on the values whose maps have no two
structurally equal keys. -/
theorem same_equivalenceOn : EquivalenceOn (KeysApart same) (same · ·) := by
  refine equivalenceOn_of_layers (fun _ _ => same_iff) fun n ih => ?_
  have hparts := @smaller_part (KeysApart same) KeysApart.part n
  exact
    { parts := hparts
      apart := fun hv => hv.1.apart
      covers := fun hxs hys => sameEntries_iff_covers ih (fun e he => hparts hxs (.key he))
        (fun e he => hparts hys (.key he)) hys.1.apart
      equivalence := ih
      isBase := SameBase.isBase
      base := sameBase_equivalenceOn hparts ih }

/-! ### The hash that goes with it -/

/-- Sequences whose elements are mixed in in the same way. -/
theorem feedItems_congr {xs ys : List Value}
    (h : List.Forall₂ (fun x y => ∀ state, feed state x = feed state y) xs ys) (state : UInt64) :
    feedItems state xs = feedItems state ys := by
  induction h generalizing state with
  | nil => rfl
  | cons hhead _ ih => rw [feedItems, feedItems, hhead, ih]

/-- The sum over the entries of a map does not depend on their order. -/
theorem entriesSum_perm {xs ys : List (Value × Value)} (h : xs.Perm ys) :
    entriesSum xs = entriesSum ys := by
  induction h with
  | nil => rfl
  | cons e _ ih => rw [entriesSum, entriesSum, ih]
  | swap e f rest =>
      simp only [entriesSum]
      rw [← UInt64.add_assoc, ← UInt64.add_assoc, UInt64.add_comm (feed (feed hashStart e.1) e.2)]
  | trans _ _ ih₁ ih₂ => exact ih₁.trans ih₂

/-- Entries whose keys and values are mixed in in the same way. -/
theorem entriesSum_congr {xs ys : List (Value × Value)}
    (h : List.Forall₂ (fun e f => ∀ state, feed state e.1 = feed state f.1 ∧
      feed state e.2 = feed state f.2) xs ys) : entriesSum xs = entriesSum ys := by
  induction h with
  | nil => rfl
  | @cons e f _ _ hhead _ ih =>
      obtain ⟨hkey, -⟩ := hhead hashStart
      obtain ⟨-, hvalue⟩ := hhead (feed hashStart f.1)
      rw [entriesSum, entriesSum, hkey, hvalue, ih]

/-- Equal leaves are mixed in in the same way. -/
theorem feed_eq_of_leaf? {a b : Value} {x : Leaf} (ha : a.leaf? = some x)
    (hb : b.leaf? = some x) (state : UInt64) : feed state a = feed state b := by
  cases a <;> simp only [leaf?, Option.some.injEq, reduceCtorEq] at ha <;> subst ha <;>
    cases b <;> simp_all [leaf?, feed]

/-- Structurally equal values are mixed into a running hash in the same way. -/
theorem feed_eq_of_same {a b : Value} (ha : KeysApart same a) (hb : KeysApart same b)
    (hab : same a b) (state : UInt64) : feed state a = feed state b := by
  induction ha generalizing b state with
  | @intro a hparts hapart ih =>
      have hpart : ∀ {x y : Value}, Part x a → Part y b → same x y →
          ∀ state, feed state x = feed state y :=
        fun hx hy hxy state => ih _ hx (hb.part hy) hxy state
      cases same_iff.mp hab with
      | base hlayer =>
          cases hlayer with
          | leaf hleaf hleaf' => exact feed_eq_of_leaf? hleaf hleaf' state
          | bound hr ht => rw [feed, feed, hpart .receiver .receiver hr, hpart .target .target ht]
          | error hd => rw [feed, feed, hpart .data .data hd]
      | list hlayer =>
          rw [feed, feed, hlayer.length_eq]
          exact feedItems_congr
            (forall₂_imp_of_mem hlayer fun x hx y hy => hpart (.item hx) (.item hy)) _
      | record _ hlayer =>
          rw [feed, feed]
          exact feedItems_congr
            (forall₂_imp_of_mem hlayer fun x hx y hy => hpart (.field hx) (.field hy)) _
      | @map xs ys hlength hlayer =>
          have hxs : ∀ e ∈ xs, KeysApart same e.1 ∧ KeysApart same e.2 := fun e he =>
            ⟨hparts _ (.key he), hparts _ (.value he)⟩
          have hys : ∀ e ∈ ys, KeysApart same e.1 ∧ KeysApart same e.2 := fun e he =>
            ⟨hb.part (.key he), hb.part (.value he)⟩
          have hcovers := (sameEntries_iff_covers same_equivalenceOn (fun e he => (hxs e he).1)
            (fun e he => (hys e he).1) hb.apart).mp hlayer
          obtain ⟨zs, hperm, hmatched⟩ := same_equivalenceOn.exists_perm_of_covers hxs hys
            (hapart xs rfl) hlength hcovers
          have hsum : entriesSum xs = entriesSum zs := by
            refine entriesSum_congr (forall₂_imp_of_mem hmatched fun e he f hf hef state => ?_)
            have hf' := hperm.mem_iff.mp hf
            exact ⟨hpart (.key he) (.key hf') hef.1 state,
              hpart (.value he) (.value hf') hef.2 state⟩
          rw [feed, feed, hlength, hsum, entriesSum_perm hperm]

end Value

end Lisp
