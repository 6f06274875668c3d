import Lisp.Proofs.Equality.Declared

/-!
# Keys up to declared relations

A map looks for a key by its structure first.  Only a key that holds a record with
a declared relation is then compared with the stored keys one by one.  This is
right because a value that holds no such record is alike only to values that are
structurally equal to it (`Value.same_of_alike`).

* `TidyKeys.entry?_heldKey`: the key under which the search says a key is held
  leads to the entry whose key is alike, and to none if there is no such entry.
* `TidyKeys.bound_insertEntry`, `TidyKeys.cleared_eraseEntry`: binding and taking
  out a key change the entry whose key is alike and no other.
* `TidyKeys.of_bound`, `find?_of_bound`, `length_of_bound`, and the same for
  `Cleared`: what such a change does to the keys, to look-ups and to the size.
-/

namespace Lisp

/-- The types with a declared relation are those with an equality in the heap. -/
def Declared.InPlace (r : Declared) (h : Heap) : Prop :=
  ∀ ty, (h.equality? ty).isSome = (r ty).isSome

namespace Heap

theorem anyDeclaresEquality_iff {h : Heap} {items : List Value} :
    h.anyDeclaresEquality items ↔ ∃ x ∈ items, h.declaresEquality x := by
  induction items with
  | nil => simp [anyDeclaresEquality]
  | cons v rest ih => simp [anyDeclaresEquality, ih]

theorem entriesDeclareEquality_iff {h : Heap} {entries : List (Value × Value)} :
    h.entriesDeclareEquality entries ↔
      ∃ e ∈ entries, h.declaresEquality e.1 ∨ h.declaresEquality e.2 := by
  induction entries with
  | nil => simp [entriesDeclareEquality]
  | cons e rest ih =>
      obtain ⟨key, value⟩ := e
      simp [entriesDeclareEquality, ih, or_assoc]

end Heap

namespace Value

variable {r : Declared} {D : Value → Prop} {h : Heap}

/-- Without records that have a declared equality, alike values are structurally
equal. -/
theorem same_of_alike (hlaw : r.LawfulOn D) (hplace : r.InPlace h) {a b : Value}
    (ha : Tidy D r a) (hb : Tidy D r b) (hab : alike r a b)
    (hplain : h.declaresEquality a = false) : same a b := by
  induction a using part_induction generalizing b with
  | h a ih =>
      have hpart : ∀ {x y : Value}, Part x a → Part y b → h.declaresEquality x = false →
          alike r x y → same x y :=
        fun hx hy hdeclares hxy => ih _ hx (ha.part hlaw hx) (hb.part hlaw hy) hxy hdeclares
      cases alike_iff.mp hab with
      | base hlayer =>
          cases hlayer with
          | structural _ hsame => exact hsame
          | @declared ty _ _ _ hr _ =>
              have hequality := hplace ty
              rw [hr] at hequality
              simp [Heap.declaresEquality, hequality] at hplain
      | list hlayer =>
          rw [Heap.declaresEquality, Bool.eq_false_iff, ne_eq,
            Heap.anyDeclaresEquality_iff] at hplain
          refine same_iff.mpr (.list (forall₂_imp_of_mem hlayer fun x hx y hy => ?_))
          refine hpart (.item hx) (.item hy) ?_
          exact Bool.eq_false_iff.mpr fun hdeclares => hplain ⟨x, hx, hdeclares⟩
      | record hnone hlayer =>
          rw [Heap.declaresEquality, Bool.or_eq_false_iff,
            Bool.eq_false_iff (b := Heap.anyDeclaresEquality _ _), ne_eq,
            Heap.anyDeclaresEquality_iff] at hplain
          refine same_iff.mpr (.record trivial (forall₂_imp_of_mem hlayer fun x hx y hy => ?_))
          refine hpart (.field hx) (.field hy) ?_
          exact Bool.eq_false_iff.mpr fun hdeclares => hplain.2 ⟨x, hx, hdeclares⟩
      | @map xs ys hlength hlayer =>
          rw [Heap.declaresEquality, Bool.eq_false_iff, ne_eq,
            Heap.entriesDeclareEquality_iff] at hplain
          have hxs : ∀ e ∈ xs, KeysApart same e.1 := fun e he =>
            (ha.part hlaw (.key he)).keysApart_same hlaw
          have hys : ∀ e ∈ ys, KeysApart same e.1 := fun e he =>
            (hb.part hlaw (.key he)).keysApart_same hlaw
          refine same_iff.mpr (.map hlength ?_)
          refine (sameEntries_iff_covers same_equivalenceOn hxs hys
            (hb.keysApart_same hlaw).apart).mpr fun e he => ?_
          obtain ⟨f, hf, hkey, hvalue⟩ := hlayer e he
          refine ⟨f, hf, hpart (.key he) (.key hf) ?_ hkey, hpart (.value he) (.value hf) ?_ hvalue⟩
          · exact Bool.eq_false_iff.mpr fun hdeclares => hplain ⟨e, he, .inl hdeclares⟩
          · exact Bool.eq_false_iff.mpr fun hdeclares => hplain ⟨e, he, .inr hdeclares⟩

/-! ### The search for a key -/

/-- The key under which a map holds a key: the key itself if a structurally equal
one is stored, else the first stored key that is alike. -/
def heldKey (r : Declared) (entries : List (Value × Value)) (key : Value) : Option Value :=
  match entry? key entries with
  | some _ => some key
  | none => (entries.find? fun e => alike r e.1 key).map Prod.fst

theorem mem_of_entry? {entries : List (Value × Value)} {key : Value} {e : Value × Value}
    (he : entry? key entries = some e) : e ∈ entries ∧ same key e.1 := by
  have hpasses := List.find?_some he
  exact ⟨List.mem_of_find?_eq_some he, hpasses⟩

/-- A map whose keys are tidy and no two of them alike. -/
structure TidyKeys (D : Value → Prop) (r : Declared) (entries : List (Value × Value)) : Prop where
  keys : ∀ e ∈ entries, Tidy D r e.1
  apart : Apart (alike r) entries

namespace TidyKeys

variable {entries : List (Value × Value)} {key : Value}

/-- An entry is found under a key that is structurally equal to its own. -/
theorem find?_of_entry? (hlaw : r.LawfulOn D) (hentries : TidyKeys D r entries)
    (hkey : Tidy D r key) {e : Value × Value} (he : entry? key entries = some e) :
    entries.find? (fun f => alike r f.1 key) = some e := by
  obtain ⟨hmem, hsame⟩ := mem_of_entry? he
  have halike := alike_of_same hlaw hkey.1 (hentries.keys e hmem).1 hsame
  have hlaws := alike_equivalenceOn hlaw
  exact hlaws.find?_eq hentries.keys hentries.apart hkey hmem
    (hlaws.symm hkey (hentries.keys e hmem) halike)

/-- An entry is found under its own key. -/
theorem entry?_self (hlaw : r.LawfulOn D) (hentries : TidyKeys D r entries) {e : Value × Value}
    (he : e ∈ entries) : entry? e.1 entries = some e := by
  refine find?_eq_of_unique he ?_ fun f hf hsame => ?_
  · exact same_equivalenceOn.refl ((hentries.keys e he).keysApart_same hlaw)
  · have hef := alike_of_same hlaw (hentries.keys e he).1 (hentries.keys f hf).1 hsame
    exact ((alike_equivalenceOn hlaw).eq_of_related hentries.keys hentries.apart he hf hef).symm

/-- The entry that is looked up under a key decides whether the map has one that is
alike. -/
theorem exists_alike_iff (hlaw : r.LawfulOn D) (hentries : TidyKeys D r entries)
    (hkey : Tidy D r key) (value : Value) :
    (∃ e ∈ entries, alike r key e.1 ∧ alike r value e.2) ↔
      ∃ e, entries.find? (fun e => alike r e.1 key) = some e ∧ alike r value e.2 := by
  have hlaws := alike_equivalenceOn hlaw
  constructor
  · rintro ⟨e, he, hkeys, hvalues⟩
    have hback := hlaws.symm hkey (hentries.keys e he) hkeys
    exact ⟨e, hlaws.find?_eq hentries.keys hentries.apart hkey he hback, hvalues⟩
  · rintro ⟨e, hfind, hvalues⟩
    have he := List.mem_of_find?_eq_some hfind
    have hback := List.find?_some hfind
    exact ⟨e, he, hlaws.symm (hentries.keys e he) hkey hback, hvalues⟩

/-- Without a record that has a declared equality, a key that is not found by its
structure is not there. -/
theorem find?_eq_none (hlaw : r.LawfulOn D) (hplace : r.InPlace h)
    (hentries : TidyKeys D r entries) (hkey : Tidy D r key)
    (hplain : h.declaresEquality key = false)
    (hnone : entry? key entries = none) : entries.find? (fun f => alike r f.1 key) = none := by
  refine List.find?_eq_none.mpr fun e he halike => ?_
  have hback := (alike_equivalenceOn hlaw).symm (hentries.keys e he) hkey halike
  have hsame := same_of_alike hlaw hplace hkey (hentries.keys e he) hback hplain
  exact List.find?_eq_none.mp hnone e he hsame

/-- The key that is held leads to the entry whose key is alike. -/
theorem entry?_heldKey (hlaw : r.LawfulOn D) (hentries : TidyKeys D r entries)
    (hkey : Tidy D r key) :
    (heldKey r entries key).bind (fun stored => entry? stored entries) =
      entries.find? fun e => alike r e.1 key := by
  unfold heldKey
  cases he : entry? key entries with
  | some e =>
      rw [hentries.find?_of_entry? hlaw hkey he]
      exact he
  | none =>
      cases hfound : entries.find? fun e => alike r e.1 key with
      | none => rfl
      | some e => exact hentries.entry?_self hlaw (List.mem_of_find?_eq_some hfound)

end TidyKeys

/-! ### Binding and taking out a key -/

/-- Binding `key` to `value` takes the first map to the second: the value of the
entry whose key is alike is replaced, or an entry is added. -/
inductive Bound (D : Value → Prop) (r : Declared) (key value : Value) :
    List (Value × Value) → List (Value × Value) → Prop
  | replaced {before after : List (Value × Value)} {e : Value × Value} {stored : Value} :
      alike r e.1 key → Tidy D r stored → alike r stored key →
        Bound D r key value (before ++ e :: after) (before ++ (stored, value) :: after)
  | added {entries : List (Value × Value)} : (∀ e ∈ entries, alike r e.1 key = false) →
      Bound D r key value entries (entries ++ [(key, value)])

/-- Taking out `key` takes the first map to the second: the entry whose key is
alike is gone, or there was none. -/
inductive Cleared (r : Declared) (key : Value) :
    List (Value × Value) → List (Value × Value) → Prop
  | removed {before after : List (Value × Value)} {e : Value × Value} :
      alike r e.1 key → Cleared r key (before ++ e :: after) (before ++ after)
  | absent {entries : List (Value × Value)} : (∀ e ∈ entries, alike r e.1 key = false) →
      Cleared r key entries entries

theorem insertEntry_replace {key value : Value} {before after : List (Value × Value)}
    {e : Value × Value} (hbefore : ∀ f ∈ before, same key f.1 = false) (he : same key e.1) :
    insertEntry key value (before ++ e :: after) = before ++ (key, value) :: after := by
  induction before with
  | nil => simp [insertEntry, he]
  | cons f rest ih =>
      have hf := hbefore f List.mem_cons_self
      simp [insertEntry, hf, ih fun g hg => hbefore g (List.mem_cons_of_mem f hg)]

theorem insertEntry_add {key value : Value} {entries : List (Value × Value)}
    (hnone : ∀ f ∈ entries, same key f.1 = false) :
    insertEntry key value entries = entries ++ [(key, value)] := by
  induction entries with
  | nil => rfl
  | cons f rest ih =>
      have hf := hnone f List.mem_cons_self
      simp [insertEntry, hf, ih fun g hg => hnone g (List.mem_cons_of_mem f hg)]

theorem eraseEntry_remove {key : Value} {before after : List (Value × Value)}
    {e : Value × Value} (hbefore : ∀ f ∈ before, same key f.1 = false) (he : same key e.1) :
    eraseEntry key (before ++ e :: after) = before ++ after := by
  induction before with
  | nil => simp [eraseEntry, he]
  | cons f rest ih =>
      have hf := hbefore f List.mem_cons_self
      simp [eraseEntry, hf, ih fun g hg => hbefore g (List.mem_cons_of_mem f hg)]

namespace TidyKeys

variable {entries entries' : List (Value × Value)} {key value : Value}

/-- Where the search ends: the held key is alike to the one looked for, and its
structure leads to the entry whose key is alike. -/
theorem split_of_heldKey (hlaw : r.LawfulOn D) (hentries : TidyKeys D r entries)
    (hkey : Tidy D r key) {stored : Value} (hstored : heldKey r entries key = some stored) :
    Tidy D r stored ∧ alike r stored key ∧
      ∃ before e after, entries = before ++ e :: after ∧ alike r e.1 key ∧ same stored e.1 ∧
        ∀ f ∈ before, same stored f.1 = false := by
  have hlaws := alike_equivalenceOn hlaw
  have hfind := hentries.entry?_heldKey hlaw hkey
  rw [hstored, Option.bind_some] at hfind
  have htidy : Tidy D r stored ∧ alike r stored key := by
    unfold heldKey at hstored
    split at hstored
    · cases hstored
      exact ⟨hkey, hlaws.refl hkey⟩
    · obtain ⟨e, hfound, rfl⟩ := Option.map_eq_some_iff.mp hstored
      have hpasses := List.find?_some hfound
      exact ⟨hentries.keys e (List.mem_of_find?_eq_some hfound), hpasses⟩
  refine ⟨htidy.1, htidy.2, ?_⟩
  cases hentry : entry? stored entries with
  | none =>
      -- The held key is a stored one up to structure, so it is found.
      rw [hentry] at hfind
      unfold heldKey at hstored
      split at hstored
      · next e he =>
          cases hstored
          rw [he] at hentry
          cases hentry
      · obtain ⟨e, hfound, -⟩ := Option.map_eq_some_iff.mp hstored
        rw [hfound] at hfind
        cases hfind
  | some e =>
      rw [hentry] at hfind
      have halike := List.find?_some hfind.symm
      obtain ⟨hsame, before, after, hsplit, hbefore⟩ := List.find?_eq_some_iff_append.mp hentry
      refine ⟨before, e, after, hsplit, halike, hsame, fun f hf => ?_⟩
      simpa using hbefore f hf

/-- No entry has a key that is alike if no key is held. -/
theorem not_alike_of_heldKey (hstored : heldKey r entries key = none) :
    (∀ e ∈ entries, alike r e.1 key = false) ∧ ∀ e ∈ entries, same key e.1 = false := by
  unfold heldKey at hstored
  split at hstored
  · cases hstored
  · next hentry =>
      have hfound := Option.map_eq_none_iff.mp hstored
      refine ⟨fun e he => ?_, fun e he => ?_⟩
      · exact Bool.eq_false_iff.mpr (List.find?_eq_none.mp hfound e he)
      · exact Bool.eq_false_iff.mpr (List.find?_eq_none.mp hentry e he)

/-- Inserting under the held key binds the key. -/
theorem bound_insertEntry (hlaw : r.LawfulOn D) (hentries : TidyKeys D r entries)
    (hkey : Tidy D r key) :
    Bound D r key value entries
      (insertEntry ((heldKey r entries key).getD key) value entries) := by
  cases hstored : heldKey r entries key with
  | none =>
      obtain ⟨halike, hsame⟩ := not_alike_of_heldKey hstored
      rw [Option.getD_none, insertEntry_add hsame]
      exact .added halike
  | some stored =>
      obtain ⟨htidy, halike, before, e, after, rfl, he, hsame, hbefore⟩ :=
        hentries.split_of_heldKey hlaw hkey hstored
      rw [Option.getD_some, insertEntry_replace hbefore hsame]
      exact .replaced he htidy halike

/-- Erasing the held key takes the key out. -/
theorem cleared_eraseEntry (hlaw : r.LawfulOn D) (hentries : TidyKeys D r entries)
    (hkey : Tidy D r key) :
    Cleared r key entries
      (match heldKey r entries key with
        | none => entries
        | some stored => eraseEntry stored entries) := by
  cases hstored : heldKey r entries key with
  | none => exact .absent (not_alike_of_heldKey hstored).1
  | some stored =>
      obtain ⟨-, -, before, e, after, rfl, he, hsame, hbefore⟩ :=
        hentries.split_of_heldKey hlaw hkey hstored
      show Cleared r key _ (eraseEntry stored _)
      rw [eraseEntry_remove hbefore hsame]
      exact .removed he

/-! ### What a change does -/

theorem of_bound (hlaw : r.LawfulOn D) (hentries : TidyKeys D r entries) (hkey : Tidy D r key)
    (h : Bound D r key value entries entries') : TidyKeys D r entries' := by
  have hlaws := alike_equivalenceOn hlaw
  cases h with
  | @replaced before after e stored he htidy hstored =>
      have hmem : e ∈ before ++ e :: after := List.mem_append_right _ List.mem_cons_self
      have heKey := hentries.keys e hmem
      have hes : alike r e.1 stored :=
        hlaws.trans heKey hkey htidy he (hlaws.symm htidy hkey hstored)
      have hse := hlaws.symm heKey htidy hes
      obtain ⟨hbefore, hcons, hcross⟩ := List.pairwise_append.mp hentries.apart
      obtain ⟨hhead, hafter⟩ := List.pairwise_cons.mp hcons
      constructor
      · intro f hf
        rcases List.mem_append.mp hf with hf | hf
        · exact hentries.keys f (List.mem_append_left _ hf)
        · rcases List.mem_cons.mp hf with rfl | hf
          · exact htidy
          · exact hentries.keys f (List.mem_append_right _ (List.mem_cons_of_mem e hf))
      · refine List.pairwise_append.mpr ⟨hbefore, List.pairwise_cons.mpr ⟨?_, hafter⟩, ?_⟩
        · intro f hf
          have hfKey := hentries.keys f (List.mem_append_right _ (List.mem_cons_of_mem e hf))
          refine Bool.eq_false_iff.mpr fun hsf => ?_
          exact Bool.eq_false_iff.mp (hhead f hf) (hlaws.trans heKey htidy hfKey hes hsf)
        · intro f hf g hg
          rcases List.mem_cons.mp hg with rfl | hg
          · have hfKey := hentries.keys f (List.mem_append_left _ hf)
            refine Bool.eq_false_iff.mpr fun hfs => ?_
            exact Bool.eq_false_iff.mp (hcross f hf e List.mem_cons_self)
              (hlaws.trans hfKey htidy heKey hfs hse)
          · exact hcross f hf g (List.mem_cons_of_mem e hg)
  | added hnone =>
      constructor
      · intro f hf
        rcases List.mem_append.mp hf with hf | hf
        · exact hentries.keys f hf
        · rw [List.mem_singleton.mp hf]
          exact hkey
      · refine List.pairwise_append.mpr ⟨hentries.apart, List.pairwise_singleton _ _, ?_⟩
        intro f hf g hg
        rw [List.mem_singleton.mp hg]
        exact hnone f hf

theorem of_cleared (hentries : TidyKeys D r entries) (h : Cleared r key entries entries') :
    TidyKeys D r entries' := by
  cases h with
  | absent _ => exact hentries
  | @removed before after e _ =>
      have hsub : (before ++ after).Sublist (before ++ e :: after) :=
        List.Sublist.append_left (List.sublist_cons_self e after) before
      exact ⟨fun f hf => hentries.keys f (hsub.subset hf), hentries.apart.sublist hsub⟩

/-- What a key is alike to, its alike keys are alike to. -/
theorem alike_congr (hlaw : r.LawfulOn D) {a b k : Value} (ha : Tidy D r a) (hb : Tidy D r b)
    (hk : Tidy D r k) (hab : alike r a b) : alike r a k = alike r b k := by
  have hlaws := alike_equivalenceOn hlaw
  rw [Bool.eq_iff_iff]
  exact ⟨hlaws.trans hb ha hk (hlaws.symm ha hb hab), hlaws.trans ha hb hk hab⟩

/-- After a key is bound, its value is found under all keys that are alike to it,
and under the others what was found before. -/
theorem find?_of_bound (hlaw : r.LawfulOn D) (hentries : TidyKeys D r entries)
    (hkey : Tidy D r key) {k : Value} (hk : Tidy D r k)
    (h : Bound D r key value entries entries') :
    (entries'.find? fun e => alike r e.1 k).map Prod.snd =
      if alike r key k then some value
      else (entries.find? fun e => alike r e.1 k).map Prod.snd := by
  cases h with
  | @replaced before after e stored he htidy hstored =>
      have hold := hentries.keys e (List.mem_append_right _ List.mem_cons_self)
      have hold_k := alike_congr hlaw hold hkey hk he
      have hnew_k := alike_congr hlaw htidy hkey hk hstored
      have hbefore : alike r key k = true → before.find? (fun f => alike r f.1 k) = none := by
        intro hkk
        refine List.find?_eq_none.mpr fun f hf hfk => ?_
        have hfKey := hentries.keys f (List.mem_append_left _ hf)
        have hcross := (List.pairwise_append.mp hentries.apart).2.2 f hf e List.mem_cons_self
        have hek : alike r e.1 k := hold_k.trans hkk
        have hlaws := alike_equivalenceOn hlaw
        have hfe := hlaws.trans hfKey hk hold hfk (hlaws.symm hold hk hek)
        exact Bool.eq_false_iff.mp hcross hfe
      cases hkk : alike r key k with
      | true => simp [List.find?_append, hbefore hkk, hnew_k, hkk]
      | false => simp [List.find?_append, hnew_k, hold_k, hkk]
  | added hnone =>
      cases hkk : alike r key k with
      | true =>
          have hentries_k : entries.find? (fun f => alike r f.1 k) = none := by
            refine List.find?_eq_none.mpr fun f hf hfk => ?_
            have hlaws := alike_equivalenceOn hlaw
            have hback := hlaws.trans (hentries.keys f hf) hk hkey hfk (hlaws.symm hkey hk hkk)
            exact Bool.eq_false_iff.mp (hnone f hf) hback
          simp [List.find?_append, hentries_k, hkk]
      | false => simp [List.find?_append, hkk]

/-- After a key is taken out, nothing is found under the keys that are alike to
it, and under the others what was found before. -/
theorem find?_of_cleared (hlaw : r.LawfulOn D) (hentries : TidyKeys D r entries)
    (hkey : Tidy D r key) {k : Value} (hk : Tidy D r k) (h : Cleared r key entries entries') :
    (entries'.find? fun e => alike r e.1 k) =
      if alike r key k then none else entries.find? fun e => alike r e.1 k := by
  have hlaws := alike_equivalenceOn hlaw
  cases h with
  | @removed before after e he =>
      have hold := hentries.keys e (List.mem_append_right _ List.mem_cons_self)
      have hold_k := alike_congr hlaw hold hkey hk he
      cases hkk : alike r key k with
      | true =>
          obtain ⟨-, hcons, hcross⟩ := List.pairwise_append.mp hentries.apart
          have hek : alike r e.1 k := hold_k.trans hkk
          rw [if_pos rfl, List.find?_append, Option.or_eq_none_iff]
          constructor
          · refine List.find?_eq_none.mpr fun f hf hfk => ?_
            have hfKey := hentries.keys f (List.mem_append_left _ hf)
            exact Bool.eq_false_iff.mp (hcross f hf e List.mem_cons_self)
              (hlaws.trans hfKey hk hold hfk (hlaws.symm hold hk hek))
          · refine List.find?_eq_none.mpr fun f hf hfk => ?_
            have hfKey := hentries.keys f (List.mem_append_right _ (List.mem_cons_of_mem e hf))
            exact Bool.eq_false_iff.mp ((List.pairwise_cons.mp hcons).1 f hf)
              (hlaws.trans hold hk hfKey hek (hlaws.symm hfKey hk hfk))
      | false => simp [List.find?_append, hold_k, hkk]
  | absent hnone =>
      split
      · next hkk =>
          refine List.find?_eq_none.mpr fun f hf hfk => ?_
          have hback := hlaws.trans (hentries.keys f hf) hk hkey hfk (hlaws.symm hkey hk hkk)
          exact Bool.eq_false_iff.mp (hnone f hf) hback
      · rfl

end TidyKeys

/-- Binding a key makes a map larger by one if no stored key is alike. -/
theorem Bound.length {entries entries' : List (Value × Value)} {key value : Value}
    (h : Bound D r key value entries entries') :
    entries'.length =
      if ∃ e ∈ entries, alike r e.1 key then entries.length else entries.length + 1 := by
  cases h with
  | @replaced before after e stored he _ _ =>
      rw [if_pos ⟨e, List.mem_append_right _ List.mem_cons_self, he⟩]
      simp
  | added hnone =>
      rw [if_neg]
      · simp
      · rintro ⟨e, he, halike⟩
        exact Bool.eq_false_iff.mp (hnone e he) halike

/-- Taking a key out makes a map smaller by one if some stored key is alike. -/
theorem Cleared.length {entries entries' : List (Value × Value)} {key : Value}
    (h : Cleared r key entries entries') :
    entries.length =
      if ∃ e ∈ entries, alike r e.1 key then entries'.length + 1 else entries'.length := by
  cases h with
  | @removed before after e he =>
      rw [if_pos ⟨e, List.mem_append_right _ List.mem_cons_self, he⟩]
      simp only [List.length_append, List.length_cons]
      omega
  | absent hnone =>
      rw [if_neg]
      rintro ⟨e, he, halike⟩
      exact Bool.eq_false_iff.mp (hnone e he) halike

end Value

end Lisp
