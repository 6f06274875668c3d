import Lisp.Proofs.Congruence
import Lisp.Proofs.Equality.Lookup
import Mathlib.Data.List.Find
import Mathlib.Data.List.Induction

/-!
# Structural equality of the values that can be made

A map is kept as a list of entries, but not every list of entries is a map: the
operations on maps never put two structurally equal keys into one.  The values that
can be made are those in which every map, at any depth, comes from the empty one by
binding keys and taking them out (`Value.Proper`), and these are exactly the values
whose maps have their keys apart (`Value.proper_iff_keysApart`).

On all of them structural equality is an equivalence, and equal values are mixed into a
running hash in the same way, whatever its state (`Value.same_lawful`).  Two things
that a map leaves open do not matter to this: the order in which its entries are kept,
and whether a key is searched for among all keys or among those of its hash only.
-/

namespace Lisp

/-! ### Keys apart -/

/-- The order in which a map keeps its entries. -/
theorem Apart.perm {D : Value → Prop} {R : Value → Value → Bool} {xs ys : List (Value × Value)}
    (h : EquivalenceOn D (R · ·)) (hkeys : ∀ e ∈ xs, D e.1) (hapart : Apart R xs)
    (hperm : xs.Perm ys) : Apart R ys := by
  -- among the entries of this map being apart is symmetric, which it need not be elsewhere
  have hmutual : xs.Pairwise fun e f => e ∈ xs ∧ f ∈ xs ∧ R e.1 f.1 = false :=
    hapart.imp_of_mem fun he hf hne => ⟨he, hf, hne⟩
  have hsymm : ∀ {e f : Value × Value}, e ∈ xs ∧ f ∈ xs ∧ R e.1 f.1 = false →
      f ∈ xs ∧ e ∈ xs ∧ R f.1 e.1 = false := by
    rintro e f ⟨he, hf, hne⟩
    rw [Bool.eq_false_iff] at hne ⊢
    exact ⟨hf, he, fun hback => hne (h.symm (hkeys f hf) (hkeys e he) hback)⟩
  exact (hperm.pairwise hmutual hsymm).imp fun hef => hef.2.2

namespace Value

variable {key value : Value} {entries : List (Value × Value)}

/-- What a map holds after a key has been bound. -/
theorem mem_insertEntry {e : Value × Value} (he : e ∈ insertEntry key value entries) :
    e = (key, value) ∨ e ∈ entries := by
  induction entries with
  | nil => exact .inl (List.mem_singleton.mp he)
  | cons f rest ih =>
      rw [insertEntry] at he
      split at he
      · rcases List.mem_cons.mp he with hnew | hrest
        · exact .inl hnew
        · exact .inr (List.mem_cons_of_mem f hrest)
      · rcases List.mem_cons.mp he with rfl | hrest
        · exact .inr List.mem_cons_self
        · rcases ih hrest with hnew | hold
          · exact .inl hnew
          · exact .inr (List.mem_cons_of_mem f hold)

/-- Taking out a key leaves the other entries in their order. -/
theorem eraseEntry_sublist (key : Value) (entries : List (Value × Value)) :
    (eraseEntry key entries).Sublist entries := by
  induction entries with
  | nil => exact .slnil
  | cons f rest ih =>
      rw [eraseEntry]
      split
      · exact List.sublist_cons_self f rest
      · exact ih.cons_cons f

/-- Binding a key puts no two equal keys into a map. -/
theorem apart_insertEntry {D : Value → Prop} (h : EquivalenceOn D (same · ·))
    (hkeys : ∀ e ∈ entries, D e.1) (hkey : D key) (hapart : Apart same entries) :
    Apart same (insertEntry key value entries) := by
  induction entries with
  | nil => exact List.pairwise_singleton _ _
  | cons f rest ih =>
      have hf := hkeys f List.mem_cons_self
      have hrest : ∀ e ∈ rest, D e.1 := fun e he => hkeys e (List.mem_cons_of_mem f he)
      obtain ⟨hfirst, htail⟩ := List.pairwise_cons.mp hapart
      rw [insertEntry]
      split
      · next hsame =>
          refine List.pairwise_cons.mpr ⟨fun e he => ?_, htail⟩
          have hne := hfirst e he
          rw [Bool.eq_false_iff] at hne ⊢
          exact fun hke => hne (h.trans hf hkey (hrest e he) (h.symm hkey hf hsame) hke)
      · next hsame =>
          refine List.pairwise_cons.mpr ⟨fun e he => ?_, ih hrest htail⟩
          rcases mem_insertEntry he with rfl | hold
          · rw [Bool.eq_false_iff]
            exact fun hfk => hsame (h.symm hf hkey hfk)
          · exact hfirst e hold

/-! ### Values that can be made -/

/-- Every map in the value, however deep, is made from the empty one by binding keys
and taking them out. -/
inductive Proper : Value → Prop
  | whole {v : Value} (hmap : ∀ entries, v ≠ .map entries) (hparts : ∀ x, Part x v → Proper x) :
      Proper v
  | empty : Proper (.map [])
  | insert {entries : List (Value × Value)} {key value : Value} : Proper (.map entries) →
      Proper key → Proper value → Proper (.map (insertEntry key value entries))
  | erase {entries : List (Value × Value)} (key : Value) : Proper (.map entries) →
      Proper (.map (eraseEntry key entries))

/-- The entries of a map with its keys apart. -/
theorem KeysApart.of_entries
    (hentries : ∀ e ∈ entries, KeysApart same e.1 ∧ KeysApart same e.2)
    (hapart : Apart same entries) : KeysApart same (.map entries) := by
  refine ⟨fun x hx => ?_, ?_⟩
  · cases hx with
    | key he => exact (hentries _ he).1
    | value he => exact (hentries _ he).2
  · rintro others heq
    cases heq
    exact hapart

theorem KeysApart.of_mem (h : KeysApart same (.map entries)) :
    ∀ e ∈ entries, KeysApart same e.1 ∧ KeysApart same e.2 :=
  fun _ he => ⟨h.part (.key he), h.part (.value he)⟩

/-- The operations on maps keep their keys apart. -/
theorem Proper.keysApart {v : Value} (h : Proper v) : KeysApart same v := by
  induction h with
  | whole hmap _ ih => exact ⟨ih, fun entries heq => absurd heq (hmap entries)⟩
  | empty => exact .of_entries (fun e he => by cases he) List.Pairwise.nil
  | insert _ _ _ ihmap ihkey ihvalue =>
      refine .of_entries (fun e he => ?_) ?_
      · rcases mem_insertEntry he with rfl | hold
        · exact ⟨ihkey, ihvalue⟩
        · exact ihmap.of_mem e hold
      · exact apart_insertEntry same_equivalenceOn (fun e he => (ihmap.of_mem e he).1) ihkey
          ihmap.apart
  | @erase entries key _ ihmap =>
      have hsublist := eraseEntry_sublist key entries
      exact .of_entries (fun e he => ihmap.of_mem e (hsublist.subset he))
        (ihmap.apart.sublist hsublist)

/-- A list of entries with the keys apart is what comes of binding them in turn. -/
theorem proper_map_of_apart (hentries : ∀ e ∈ entries, Proper e.1 ∧ Proper e.2)
    (hapart : Apart same entries) : Proper (.map entries) := by
  induction entries using List.reverseRecOn with
  | nil => exact .empty
  | append_singleton before e ih =>
      obtain ⟨hbefore, -, hlast⟩ := List.pairwise_append.mp hapart
      have he := hentries e (by simp)
      have hold : ∀ f ∈ before, Proper f.1 ∧ Proper f.2 := fun f hf => hentries f (by simp [hf])
      have hnew : insertEntry e.1 e.2 before = before ++ [e] := by
        refine insertEntry_add fun f hf => ?_
        have hne := hlast f hf e (List.mem_singleton_self e)
        rw [Bool.eq_false_iff] at hne ⊢
        exact fun hef => hne
          (same_equivalenceOn.symm he.1.keysApart (hold f hf).1.keysApart hef)
      rw [← hnew]
      exact .insert (ih hold hbefore) he.1 he.2

/-- The values that can be made are those whose maps have their keys apart. -/
theorem proper_iff_keysApart {v : Value} : Proper v ↔ KeysApart same v := by
  refine ⟨Proper.keysApart, fun h => ?_⟩
  induction h with
  | @intro v _ hapart ih =>
      by_cases hmap : ∃ entries, v = .map entries
      · obtain ⟨entries, rfl⟩ := hmap
        exact proper_map_of_apart (fun e he => ⟨ih _ (.key he), ih _ (.value he)⟩)
          (hapart entries rfl)
      · exact .whole (fun entries heq => hmap ⟨entries, heq⟩) ih

/-! ### What a map leaves open -/

/-- Two maps with the same entries are equal, in whichever order they keep them. -/
theorem same_map_of_perm {xs ys : List (Value × Value)} (hxs : KeysApart same (.map xs))
    (hperm : xs.Perm ys) : same (.map xs) (.map ys) := by
  have hkeys : ∀ e ∈ xs, KeysApart same e.1 := fun e he => (hxs.of_mem e he).1
  have hapart := hxs.apart.perm same_equivalenceOn hkeys hperm
  have hcovers : Covers same xs ys := fun e he =>
    ⟨e, hperm.mem_iff.mp he, same_equivalenceOn.refl (hxs.of_mem e he).1,
      same_equivalenceOn.refl (hxs.of_mem e he).2⟩
  refine same_iff.mpr (.map hperm.length_eq ?_)
  exact (sameEntries_iff_covers same_equivalenceOn hkeys
    (fun e he => hkeys e (hperm.mem_iff.mpr he)) hapart).mpr hcovers

/-- A key is found among all keys where it is found among those of its hash. -/
theorem find?_hashed_eq_entry? (hmap : KeysApart same (.map entries))
    (hkey : KeysApart same key) :
    entries.find? (fun e => key.hashed == e.1.hashed && same key e.1) = entry? key entries := by
  refine List.find?_congr fun e he => ?_
  by_cases hsame : same key e.1 = true
  · have hhash : key.hashed = e.1.hashed :=
      feed_eq_of_same hkey (hmap.of_mem e he).1 hsame hashStart
    simp [hsame, hhash]
  · simp [hsame]

end Value

/-! ### The operations on maps -/

namespace Machine

variable {m : Machine} {entries entries' : Entries} {key value : Value}

/-- A scan gives a key of the map. -/
theorem mem_of_scan {stored : Value} (h : (m.scan entries key).Gives (some stored)) :
    ∃ e ∈ entries, stored = e.1 := by
  induction entries with
  | nil =>
      rw [scan] at h
      cases Eval.eq_of_gives_pure h
  | cons e rest ih =>
      obtain ⟨known, value⟩ := e
      rw [scan] at h
      obtain ⟨same, -, hrest⟩ := Eval.gives_of_bind h
      split at hrest
      · cases Eval.eq_of_gives_pure hrest
        exact ⟨_, List.mem_cons_self, rfl⟩
      · obtain ⟨f, hf, hstored⟩ := ih hrest
        exact ⟨f, List.mem_cons_of_mem _ hf, hstored⟩

/-- The key under which a map holds a key is the key itself or one of its own. -/
theorem proper_storedKey? (hentries : (Value.map entries).Proper) (hkey : key.Proper)
    {stored : Option Value} (h : (m.storedKey? entries key).Gives stored) :
    ∀ k ∈ stored, k.Proper := by
  rw [storedKey?] at h
  rintro k rfl
  split at h
  · cases Eval.eq_of_gives_pure h
    exact hkey
  · obtain ⟨declares, -, hscan⟩ := Eval.gives_of_bind h
    split at hscan
    · obtain ⟨e, he, rfl⟩ := mem_of_scan hscan
      rw [Value.proper_iff_keysApart] at hentries ⊢
      exact (hentries.of_mem e he).1
    · cases Eval.eq_of_gives_pure hscan

/-- The operations on maps make the maps that can be made. -/
theorem proper_of_operation (hentries : (Value.map entries).Proper) (hkey : key.Proper)
    (hvalue : value.Proper) (h : (m.mapInsert entries key value).Gives entries' ∨
      (m.mapRemove entries key).Gives entries') : (Value.map entries').Proper := by
  rcases h with hinsert | hremove
  · obtain ⟨stored, hstored, hentries'⟩ := Eval.gives_of_bind hinsert
    cases Eval.eq_of_gives_pure hentries'
    have hproper := proper_storedKey? hentries hkey hstored
    refine .insert hentries ?_ hvalue
    cases stored with
    | none => exact hkey
    | some k => exact hproper k rfl
  · obtain ⟨stored, hstored, hentries'⟩ := Eval.gives_of_bind hremove
    cases stored with
    | none =>
        cases Eval.eq_of_gives_pure hentries'
        exact hentries
    | some k =>
        cases Eval.eq_of_gives_pure hentries'
        exact .erase k hentries

end Machine

/-! ### The laws -/

namespace Value

/-- Structural equality is an equivalence on all values that can be made, and equal
values are mixed into a running hash in the same way.  It does not see the span of a
list, the order of the entries of a map, the sign of zero and the payload of what is
not a number; and the operations on maps make no other values than those it is meant
for. -/
theorem same_lawful :
    EquivalenceOn Proper (same · ·) ∧
    (∀ a b, Proper a → Proper b → same a b → ∀ state, feed state a = feed state b) ∧
    (∀ items source source', Proper (.list items source) →
      same (.list items source) (.list items source')) ∧
    (∀ xs ys, Proper (.map xs) → xs.Perm ys → same (.map xs) (.map ys)) ∧
    (∀ x y, Number.magnitude x = 0 → Number.magnitude y = 0 → same (.num x) (.num y)) ∧
    (∀ x y, Number.infinityPattern < Number.magnitude x →
      Number.infinityPattern < Number.magnitude y → same (.num x) (.num y)) ∧
    (∀ entries key, Proper (.map entries) → Proper key →
      entries.find? (fun e => key.hashed == e.1.hashed && same key e.1) = entry? key entries) ∧
    ∀ (m : Machine) entries key value entries', Proper (.map entries) → Proper key →
      Proper value → ((m.mapInsert entries key value).Gives entries' ∨
        (m.mapRemove entries key).Gives entries') → Proper (.map entries') := by
  have hdomain : Proper = KeysApart same := funext fun v => propext proper_iff_keysApart
  rw [hdomain]
  refine ⟨same_equivalenceOn, fun a b => feed_eq_of_same, ?_, fun xs ys => same_map_of_perm,
    ?_, ?_, fun entries key => find?_hashed_eq_entry?, ?_⟩
  · intro items source source' hitems
    rw [same]
    refine sameItems_iff.mpr (List.forall₂_same.mpr fun x hx => ?_)
    exact same_equivalenceOn.refl (hitems.part (.item hx))
  · intro x y hx hy
    simp [same, Number.same, Number.key, hx, hy]
  · intro x y hx hy
    have hx₀ : Number.magnitude x ≠ 0 := by omega
    have hy₀ : Number.magnitude y ≠ 0 := by omega
    simp [same, Number.same, Number.key, hx, hy, hx₀, hy₀]
  · rw [← hdomain]
    exact fun m entries key value entries' hentries hkey hvalue =>
      Machine.proper_of_operation hentries hkey hvalue

/-- Two orders of one map, and two zeros in it. -/
theorem same_lawful_zeros :
    let a : Value := .map [(.str "a", .num 0.0), (.keyword "b", .nil)]
    let b : Value := .map [(.keyword "b", .nil), (.str "a", .num (-0.0))]
    Proper a ∧ Proper b ∧ same a b ∧ same b a ∧ a.hashed = b.hashed := by
  intro a b
  have hleaf : ∀ {v : Value}, (∀ entries, v ≠ .map entries) → (∀ x, ¬ Part x v) → Proper v :=
    fun hmap hparts => .whole hmap fun x hx => absurd hx (hparts x)
  have hstr : Proper (.str "a") := hleaf nofun nofun
  have hkeyword : Proper (.keyword "b") := hleaf nofun nofun
  have hnum : ∀ n, Proper (.num n) := fun n => hleaf nofun nofun
  have hnil : Proper .nil := hleaf nofun nofun
  have ha : Proper a := .insert (.insert .empty hstr (hnum _)) hkeyword hnil
  have hb : Proper b := .insert (.insert .empty hkeyword hnil) hstr (hnum _)
  have hab : same a b := by decide
  obtain ⟨hequivalence, hfeed, -⟩ := same_lawful
  exact ⟨ha, hb, hab, hequivalence.symm ha hb hab, hfeed a b ha hb hab hashStart⟩

end Value

end Lisp
