import Lisp.Eval.Machine
import Lisp.Proofs.Equality.Comparison

/-!
# The laws of maps and of the comparison

With lawful equalities in place, the comparison of the language never fails and is
an equivalence on built values, and the maps that its operations make are finite
maps up to this equivalence.

* `Setting.Lawful.equates_equivalenceOn`: the comparison is total and an
  equivalence.
* `Setting.Lawful.mapLaws`: what `assoc` and `dissoc` do to what is found under a
  key and to the number of entries.
-/

namespace Lisp

namespace Setting

open Classical in
/-- The laws of a finite map up to the comparison, for a map, two keys and a
value. -/
structure MapLaws (S : Setting) (entries : Entries) (key key' value : Value) : Prop where
  /-- No two stored keys are equal. -/
  apart : entries.Pairwise fun e f =>
    S.Answers (S.machine.equal e.1 f.1) false ∧ S.Answers (S.machine.equal f.1 e.1) false
  /-- A value is found just if some stored key is equal. -/
  get : ∃ found, S.Answers (S.machine.mapGet? entries key) found ∧
    (found.isSome ↔ ∃ e ∈ entries, S.Equates e.1 key)
  /-- Binding a key decides what is found under the keys equal to it, and makes room
  for an entry if there was none. -/
  assoc : ∃ entries',
    S.Answers (S.machine.callSequence .assoc [.map entries, key, value]) (.map entries') ∧
    (∃ found, S.Answers (S.machine.mapGet? entries key') found ∧
      S.Answers (S.machine.mapGet? entries' key')
        (if S.Equates key key' then some value else found)) ∧
    ∃ n, S.Answers (S.machine.countOf (.map entries)) n ∧
      S.Answers (S.machine.countOf (.map entries'))
        (if ∃ e ∈ entries, S.Equates e.1 key then n else n + 1)
  /-- Taking a key out leaves nothing under the keys equal to it, and one entry less
  if there was one. -/
  dissoc : ∃ entries',
    S.Answers (S.machine.callSequence .dissoc [.map entries, key]) (.map entries') ∧
    (∃ found, S.Answers (S.machine.mapGet? entries key') found ∧
      S.Answers (S.machine.mapGet? entries' key')
        (if S.Equates key key' then none else found)) ∧
    ∃ n, S.Answers (S.machine.countOf (.map entries')) n ∧
      S.Answers (S.machine.countOf (.map entries))
        (if ∃ e ∈ entries, S.Equates e.1 key then n + 1 else n)

namespace Lawful

variable {S : Setting} {entries entries' : Entries} {key key' value : Value}

/-- Stored keys that are equal are stored keys that are alike. -/
theorem exists_equates_iff (hS : S.Lawful) (hentries : S.TidyKeys entries) (hkey : S.Built key) :
    (∃ e ∈ entries, S.Equates e.1 key) ↔
      ∃ e ∈ entries, Value.alike S.relations e.1 key := by
  refine exists_congr fun e => and_congr_right fun he => ?_
  exact hS.equates_iff (hentries.keys e he).1 hkey

theorem answers_assoc (hS : S.Lawful) (hentries : S.TidyKeys entries) (hkey : S.Tidy key)
    (value : Value) :
    ∃ entries', S.Answers (S.machine.callSequence .assoc [.map entries, key, value])
        (.map entries') ∧
      Value.Bound S.Built S.relations key value entries entries' := by
  obtain ⟨entries', hinsert, hbound⟩ := hS.answers_mapInsert hentries hkey value
  have hall : S.Answers (S.machine.mapInsertAll entries [key, value]) entries' :=
    .bind hinsert (.pure _)
  have hcall : S.machine.callSequence .assoc [.map entries, key, value] =
      (do return Value.map (← S.machine.mapInsertAll entries [key, value])) := by
    simp [Machine.callSequence, Machine.assoc]
  rw [hcall]
  exact ⟨entries', .bind hall (.pure _), hbound⟩

theorem answers_dissoc (hS : S.Lawful) (hentries : S.TidyKeys entries) (hkey : S.Tidy key) :
    ∃ entries', S.Answers (S.machine.callSequence .dissoc [.map entries, key]) (.map entries') ∧
      Value.Cleared S.relations key entries entries' := by
  obtain ⟨entries', hremove, hcleared⟩ := hS.answers_mapRemove hentries hkey
  have hall : S.Answers (S.machine.mapRemoveAll entries [key]) entries' :=
    .bind hremove (.pure _)
  have hmap : S.Answers (do return Value.map (← S.machine.mapRemoveAll entries [key]))
      (.map entries') := .bind hall (.pure _)
  exact ⟨entries', hmap, hcleared⟩

end Lawful

/-! ### A setting in which these laws hold -/

namespace Indifferent

/-- A record type with one field. -/
def type : RecordType where
  name := .intern "P"
  fields := [.intern "x"]
  equality := some (.closure 0)
  hash := some (.closure 1)

/-- The equality that is declared for it, `(proc (a b) true)`. -/
def equality : Closure where
  params := [.symbol "a", .symbol "b"]
  body := [.bool true]
  frame := Heap.global
  expands := false

/-- The hash that is declared for it, `(proc (a) 7)`. -/
def hash : Closure where
  params := [.symbol "a"]
  body := [.num 7]
  frame := Heap.global
  expands := false

/-- All records of the type are declared equal.  A call of the equality adds a
frame, so the worlds are calm whatever frames they have. -/
def setting : Setting where
  machine := run 2
  types := #[type]
  calm w := w.heap.recordTypes = #[type] ∧ w.heap.closures = #[equality, hash]

/-- A record of the type. -/
def point (text : String) : Value := .record 0 [.str text]

/-- A map with one entry. -/
def entries : Entries := [(point "left", .bool true)]

theorem answers_call (a b : Value) :
    setting.Answers (setting.machine.call (.closure 0) [a, b]) (.bool true) := by
  rintro ⟨⟨frames, closures, interfaces, types, traces, serials⟩, calls, depth, expansions, output,
    files, commands, options⟩ ⟨htypes, hclosures⟩
  obtain rfl : types = _ := htypes
  obtain rfl : closures = _ := hclosures
  exact ⟨_, ⟨rfl, rfl⟩, rfl⟩

theorem eq_of_equality? {ty : RecordTypeId} {imp : Value} (h : setting.equality? ty = some imp) :
    imp = .closure 0 := by
  cases ty with
  | zero => exact (Option.some.inj h).symm
  | succ ty => cases h

theorem lawful : setting.Lawful where
  inhabited := ⟨{ heap := { recordTypes := #[type], closures := #[equality, hash] } }, rfl, rfl⟩
  types _ hw := hw.1
  answers himp _ _ := by
    rw [eq_of_equality? himp]
    exact ⟨true, answers_call _ _⟩
  equivalence himp := by
    rw [eq_of_equality? himp]
    exact ⟨fun _ => answers_call _ _, fun _ _ _ => answers_call _ _,
      fun _ _ _ _ _ => answers_call _ _⟩
  structural himp _ _ _ := by
    rw [eq_of_equality? himp]
    exact answers_call _ _

theorem built_point (text : String) : setting.Built (point text) := by
  refine ⟨fun x hx => ?_, ?_, fun entries h => by cases h⟩
  · obtain hmem : x ∈ [Value.str text] := by
      cases hx
      assumption
    rw [List.mem_singleton.mp hmem]
    exact ⟨fun y hy => (by cases hy), fun ty xs h => (by cases h), fun entries h => (by cases h)⟩
  · rintro ty xs h
    cases h
    rfl

theorem made_entries : setting.Made entries := by
  have hkey := built_point "left"
  obtain ⟨entries', hinsert, hbound⟩ := lawful.answers_mapInsert
    (lawful.tidyKeys_of_made .empty) (lawful.tidy_of_built hkey) (.bool true)
  obtain rfl : entries' = entries := by
    generalize hnil : ([] : Entries) = old at hbound
    cases hbound with
    | replaced _ _ _ => simp at hnil
    | added _ => rw [← hnil, entries, List.nil_append]
  have hconstruct : setting.machine.construct .map [point "left", .bool true] =
      (do return Value.map (← setting.machine.mapInsertAll [] [point "left", .bool true])) := by
    simp [Machine.construct]
  have hanswers : setting.Answers (setting.machine.construct .map [point "left", .bool true])
      (.map entries) := by
    rw [hconstruct]
    exact .bind (.bind hinsert (.pure _)) (.pure _)
  obtain ⟨w, hw⟩ := lawful.inhabited
  obtain ⟨w', -, hrun⟩ := hanswers w hw
  refine .update .empty (.construct _) ?_ hw hrun
  intro key hmem
  rw [List.mem_singleton.mp hmem]
  exact hkey

/-- Two records of the type are equal whatever their fields. -/
theorem equates_point (text text' : String) :
    setting.Equates (point text) (point text') := by
  unfold Equates point
  rw [Machine.equal]
  simp only [if_true]
  refine .bind (.ask fun w hw => lawful.equality?_eq hw 0) ?_
  exact .bind (answers_call _ _) (.pure _)

end Indifferent


/-! ### The laws -/

/-- The comparison never fails, and is an equivalence on built values. -/
theorem Lawful.equates_equivalenceOn {S : Setting} (hS : S.Lawful) :
    (∀ a b, S.Built a → S.Built b → ∃ t, S.Answers (S.machine.equal a b) t) ∧
      EquivalenceOn S.Built S.Equates := by
  have hlaws := Value.alike_equivalenceOn hS.lawfulOn
  have htidy := fun {v} (hv : S.Built v) => hS.tidy_of_built hv
  refine ⟨fun a b ha hb => ⟨_, hS.answers_equal ha hb⟩, ?_, ?_, ?_⟩
  · intro a ha
    exact (hS.equates_iff ha ha).mpr (hlaws.refl (htidy ha))
  · intro a b ha hb hab
    rw [hS.equates_iff ha hb] at hab
    rw [hS.equates_iff hb ha]
    exact hlaws.symm (htidy ha) (htidy hb) hab
  · intro a b c ha hb hc hab hbc
    rw [hS.equates_iff ha hb] at hab
    rw [hS.equates_iff hb hc] at hbc
    rw [hS.equates_iff ha hc]
    exact hlaws.trans (htidy ha) (htidy hb) (htidy hc) hab hbc

/-- Two records that are declared equal though they differ. -/
theorem equates_indifferent :
    Indifferent.setting.Lawful ∧
    Indifferent.setting.Built (Indifferent.point "left") ∧
    Indifferent.setting.Built (Indifferent.point "right") ∧
    (Indifferent.point "left").same (Indifferent.point "right") = false ∧
    Indifferent.setting.Equates (Indifferent.point "left") (Indifferent.point "right") ∧
    Indifferent.setting.Equates (Indifferent.point "right") (Indifferent.point "left") := by
  have hlawful := Indifferent.lawful
  have hleft := Indifferent.built_point "left"
  have hright := Indifferent.built_point "right"
  have hequates := Indifferent.equates_point "left" "right"
  obtain ⟨-, hequivalence⟩ := hlawful.equates_equivalenceOn
  exact ⟨hlawful, hleft, hright, by decide, hequates, hequivalence.symm hleft hright hequates⟩

/-- Maps obey the laws of finite maps up to the comparison. -/
theorem Lawful.mapLaws {S : Setting} {entries : Entries} {key key' : Value} (hS : S.Lawful)
    (hentries : S.Made entries) (hkey : S.Built key) (hkey' : S.Built key') (value : Value) :
    S.MapLaws entries key key' value := by
  have hlaw := hS.lawfulOn
  have hlaws := Value.alike_equivalenceOn hlaw
  have hkeys := hS.tidyKeys_of_made hentries
  have htidy := hS.tidy_of_built hkey
  have htidy' := hS.tidy_of_built hkey'
  have hfound := hS.answers_mapGet? hkeys htidy'
  have hstored := hS.exists_equates_iff hkeys hkey
  refine ⟨?_, ?_, ?_, ?_⟩
  · refine hkeys.apart.imp_of_mem fun {e f} he hf hne => ?_
    have hback : Value.alike S.relations f.1 e.1 = false := by
      rw [Bool.eq_false_iff] at hne ⊢
      exact fun hfe => hne (hlaws.symm (hkeys.keys f hf) (hkeys.keys e he) hfe)
    have hef := hS.answers_alike (hkeys.keys e he) (hkeys.keys f hf)
    have hfe := hS.answers_alike (hkeys.keys f hf) (hkeys.keys e he)
    rw [hne] at hef
    rw [hback] at hfe
    exact ⟨hef, hfe⟩
  · refine ⟨_, hS.answers_mapGet? hkeys htidy, ?_⟩
    rw [hstored, Option.isSome_map, List.find?_isSome]
  · obtain ⟨entries', hassoc, hbound⟩ := hS.answers_assoc hkeys htidy value
    refine ⟨entries', hassoc, ⟨_, hfound, ?_⟩, entries.length, .pure _, ?_⟩
    · have hget := hS.answers_mapGet? (hkeys.of_bound hlaw htidy hbound) htidy'
      rw [hkeys.find?_of_bound hlaw htidy htidy' hbound] at hget
      simpa only [hS.equates_iff hkey hkey'] using hget
    · have hlength := hbound.length
      simp only [hstored]
      split
      · next hsome =>
          rw [if_pos hsome] at hlength
          exact hlength ▸ .pure _
      · next hnone =>
          rw [if_neg hnone] at hlength
          exact hlength ▸ .pure _
  · obtain ⟨entries', hdissoc, hcleared⟩ := hS.answers_dissoc hkeys htidy
    refine ⟨entries', hdissoc, ⟨_, hfound, ?_⟩, entries'.length, .pure _, ?_⟩
    · have hget := hS.answers_mapGet? (hkeys.of_cleared hcleared) htidy'
      rw [hkeys.find?_of_cleared hlaw htidy htidy' hcleared] at hget
      simp only [hS.equates_iff hkey hkey']
      split
      · next halike =>
          rw [if_pos halike] at hget
          exact hget
      · next halike =>
          rw [if_neg halike] at hget
          exact hget
    · have hlength := hcleared.length
      simp only [hstored]
      split
      · next hsome =>
          rw [if_pos hsome] at hlength
          exact hlength ▸ .pure _
      · next hnone =>
          rw [if_neg hnone] at hlength
          exact hlength ▸ .pure _

/-- Two records that differ, one of them a stored key. -/
theorem mapLaws_indifferent :
    Indifferent.setting.Lawful ∧ Indifferent.setting.Made Indifferent.entries ∧
    Indifferent.setting.Built (Indifferent.point "right") ∧
    Indifferent.setting.Built (Indifferent.point "left") ∧
    Indifferent.setting.MapLaws Indifferent.entries (Indifferent.point "right")
      (Indifferent.point "left") .nil := by
  have hlawful := Indifferent.lawful
  have hmade := Indifferent.made_entries
  have hright := Indifferent.built_point "right"
  have hleft := Indifferent.built_point "left"
  exact ⟨hlawful, hmade, hright, hleft, hlawful.mapLaws hmade hright hleft .nil⟩

end Setting

end Lisp
