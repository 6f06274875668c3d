import Lisp.Proofs.Scope.Programs

/-!
# What the tables never lose

A number once given keeps meaning the same cell, and the cell keeps what it holds.
Some of it never changes at all: the parameters, the body and the frame of a closure,
the fields of a record type, the signature of an interface.  The rest is filled in
once or added to: a closure keeps the first name it is given and an error value the
first stack attached to it, a key that is implemented stays implemented, a record type
that has an equality or a hash has one from then on, and an expansion that is
remembered is not forgotten.

Each table is an array whose cells are pushed or modified, so there are two lemmas for
all tables (`Stays.push`, `Stays.modify`), and what a cell may become is a relation of
its own for each kind of cell.  That the relation between two worlds is kept by every
run, by every step of a host and by whole sessions is then a discipline: `run_grows`.
-/

namespace Lisp

/-! ### Tables -/

/-- Every cell of the first table is in the second one under the same number, related
to what it was. -/
def Stays {α : Type} (R : α → α → Prop) (old new : Array α) : Prop :=
  ∀ (id : Nat) (a : α), old[id]? = some a → ∃ b, new[id]? = some b ∧ R a b

namespace Stays

variable {α : Type} {R : α → α → Prop}

theorem refl (hrefl : ∀ a, R a a) (table : Array α) : Stays R table table :=
  fun _ a ha => ⟨a, ha, hrefl a⟩

theorem trans (htrans : ∀ {a b c}, R a b → R b c → R a c) {old middle new : Array α}
    (hold : Stays R old middle) (hnew : Stays R middle new) : Stays R old new := by
  intro id a ha
  obtain ⟨b, hb, hab⟩ := hold id a ha
  obtain ⟨c, hc, hbc⟩ := hnew id b hb
  exact ⟨c, hc, htrans hab hbc⟩

/-- A new cell gets a number of its own. -/
theorem push (hrefl : ∀ a, R a a) (table : Array α) (new : α) : Stays R table (table.push new) := by
  intro id a ha
  have hlt : id < table.size := (Array.getElem?_eq_some_iff.mp ha).1
  refine ⟨a, ?_, hrefl a⟩
  rw [Array.getElem?_push, if_neg (Nat.ne_of_lt hlt)]
  exact ha

/-- One cell is changed, and the others are left alone. -/
theorem modify (hrefl : ∀ a, R a a) (table : Array α) (changed : Nat) {f : α → α}
    (hf : ∀ a, R a (f a)) : Stays R table (table.modify changed f) := by
  intro id a ha
  rw [Array.getElem?_modify, ha]
  by_cases hid : changed = id
  · exact ⟨f a, if_pos hid, hf a⟩
  · exact ⟨a, if_neg hid, hrefl a⟩

end Stays

/-! ### Cells -/

/-- The same closure, under the name that it had if it had one. -/
structure Closure.Keeps (c c' : Closure) : Prop where
  code : c' = { c with name := c'.name }
  name : ∀ s, c.name = some s → c'.name = some s

/-- The same interface, implemented wherever it was. -/
structure Interface.Keeps (i i' : Interface) : Prop where
  signature : i' = { i with impls := i'.impls }
  implemented : ∀ key, (i.registered? key).isSome → (i'.registered? key).isSome

/-- The same record type, with an equality and a hash if it had them. -/
structure RecordType.Keeps (t t' : RecordType) : Prop where
  shape : t' = { t with equality := t'.equality, hash := t'.hash }
  equality : t.equality.isSome → t'.equality.isSome
  hash : t.hash.isSome → t'.hash.isSome

/-- The same stack, if one is attached. -/
def KeepsStack (stack stack' : Option (List String)) : Prop :=
  ∀ calls, stack = some calls → stack' = some calls

theorem Closure.Keeps.refl (c : Closure) : c.Keeps c :=
  ⟨rfl, fun _ h => h⟩

theorem Closure.Keeps.trans {a b c : Closure} (hab : a.Keeps b) (hbc : b.Keeps c) : a.Keeps c where
  code := by rw [hbc.code, hab.code]
  name s hs := hbc.name s (hab.name s hs)

/-- A closure is named only if it has no name. -/
theorem Closure.keeps_named (c : Closure) (name : Symbol) :
    c.Keeps { c with name := some (c.name.getD name) } where
  code := rfl
  name s hs := by rw [hs, Option.getD_some]

theorem Interface.Keeps.refl (i : Interface) : i.Keeps i :=
  ⟨rfl, fun _ h => h⟩

theorem Interface.Keeps.trans {i j k : Interface} (hij : i.Keeps j) (hjk : j.Keeps k) :
    i.Keeps k where
  signature := by rw [hjk.signature, hij.signature]
  implemented key h := hjk.implemented key (hij.implemented key h)

/-- An implementation takes the place of one for the same key at most. -/
theorem Interface.keeps_register (i : Interface) (key : List TypeTag) (imp : Value) :
    i.Keeps (i.register key imp) where
  signature := rfl
  implemented other h := by
    rw [i.registered?_register]
    split
    · rfl
    · exact h

theorem RecordType.Keeps.refl (t : RecordType) : t.Keeps t :=
  ⟨rfl, fun h => h, fun h => h⟩

theorem RecordType.Keeps.trans {s t u : RecordType} (hst : s.Keeps t) (htu : t.Keeps u) :
    s.Keeps u where
  shape := by rw [htu.shape, hst.shape]
  equality h := htu.equality (hst.equality h)
  hash h := htu.hash (hst.hash h)

theorem KeepsStack.trans {s t u : Option (List String)} (hst : KeepsStack s t)
    (htu : KeepsStack t u) : KeepsStack s u :=
  fun calls h => htu calls (hst calls h)

/-! ### Heaps -/

/-- The second heap has all that the first one has. -/
structure Heap.Grows (h h' : Heap) : Prop where
  closures : Stays Closure.Keeps h.closures h'.closures
  interfaces : Stays Interface.Keeps h.interfaces h'.interfaces
  recordTypes : Stays RecordType.Keeps h.recordTypes h'.recordTypes
  traces : Stays KeepsStack h.traces h'.traces

namespace Heap

theorem Grows.refl (h : Heap) : h.Grows h where
  closures := .refl .refl _
  interfaces := .refl .refl _
  recordTypes := .refl .refl _
  traces := .refl (fun _ _ h => h) _

theorem Grows.trans {h h' h'' : Heap} (hfirst : h.Grows h') (hsecond : h'.Grows h'') :
    h.Grows h'' where
  closures := hfirst.closures.trans .trans hsecond.closures
  interfaces := hfirst.interfaces.trans .trans hsecond.interfaces
  recordTypes := hfirst.recordTypes.trans .trans hsecond.recordTypes
  traces := hfirst.traces.trans .trans hsecond.traces

/-- An override gives a record type an equality or a hash, and takes none away. -/
theorem grows_override (h : Heap) (hook : Option Hook) (key : List TypeTag) (imp : Value) :
    h.Grows (h.override hook key imp) := by
  have hset : ∀ (ty : RecordTypeId) {f : RecordType → RecordType},
      (∀ t : RecordType, t.Keeps (f t)) →
        h.Grows { h with recordTypes := h.recordTypes.modify ty f } := by
    intro ty f hf
    exact { Grows.refl h with recordTypes := .modify .refl h.recordTypes ty hf }
  unfold override
  split
  · next ty => exact hset ty fun t => ⟨rfl, fun h => h, fun _ => rfl⟩
  · next a b =>
      split
      · exact hset a fun t => ⟨rfl, fun _ => rfl, fun h => h⟩
      · exact .refl h
  · exact .refl h

/-- An implementation is added to those registered before. -/
theorem grows_implement (h : Heap) (id : InterfaceId) (key : List TypeTag) (imp : Value) :
    h.Grows (h.implement id key imp) := by
  unfold implement
  split
  · exact .refl h
  · next i _ =>
      split
      · have hregister : h.Grows (h.register id key imp) :=
          { Grows.refl h with
            interfaces := .modify .refl h.interfaces id fun i => i.keeps_register key imp }
        exact hregister.trans (grows_override _ i.hook key imp)
      · exact .refl h

end Heap

/-- No change of the tables loses anything. -/
theorem HeapEdit.grows {g : Heap → Heap} (edit : HeapEdit g) (h : Heap) : h.Grows (g h) := by
  have hsame := Heap.Grows.refl h
  cases edit with
  | nameClosure id name =>
      exact { hsame with closures := .modify .refl h.closures id fun c => c.keeps_named name }
  | newClosure c => exact { hsame with closures := .push .refl h.closures c }
  | newRecordType name fields => exact { hsame with recordTypes := .push .refl h.recordTypes _ }
  | newInterface name params fallback hook =>
      exact { hsame with interfaces := .push .refl h.interfaces _ }
  | implement id key imp => exact h.grows_implement id key imp
  | attachStack serial stack =>
      have hfirst : ∀ old, KeepsStack old (some (old.getD stack)) := by
        rintro _ calls rfl
        rfl
      exact { hsame with traces := .modify (fun _ _ h => h) h.traces serial hfirst }
  | newTrace stack => exact { hsame with traces := .push (fun _ _ h => h) h.traces stack }
  | nextSerial => exact { hsame with }

/-! ### Worlds -/

/-- An expansion takes the place of the one that is remembered for the same macro and
structurally equal operands, or else it comes after all that is remembered. -/
theorem Machine.remember_cases (id : ClosureId) (operands : List Value) (result : Value)
    (known : List Expansion) :
    (∃ before e after, known = before ++ e :: after ∧ e.closure = id ∧
      Value.sameItems e.operands operands = true ∧
        remember id operands result known = before ++ { e with result } :: after) ∨
    (∀ e ∈ known, ¬ (e.closure = id ∧ Value.sameItems e.operands operands = true)) ∧
      remember id operands result known = known ++ [⟨id, operands, result⟩] := by
  induction known with
  | nil => exact .inr ⟨nofun, rfl⟩
  | cons first rest ih =>
      rw [remember]
      by_cases hfirst : (first.closure == id && Value.sameItems first.operands operands) = true
      · rw [if_pos hfirst]
        simp only [Bool.and_eq_true, beq_iff_eq] at hfirst
        exact .inl ⟨[], first, rest, rfl, hfirst.1, hfirst.2, rfl⟩
      · rw [if_neg hfirst]
        simp only [Bool.and_eq_true, beq_iff_eq] at hfirst
        rcases ih with ⟨before, e, after, rfl, hclosure, hsame, hnew⟩ | ⟨hnone, hnew⟩
        · exact .inl ⟨first :: before, e, after, rfl, hclosure, hsame, congrArg _ hnew⟩
        · exact .inr ⟨List.forall_mem_cons.mpr ⟨hfirst, hnone⟩, congrArg _ hnew⟩

/-- What is remembered under some operands stays remembered under them when an
expansion is added. -/
theorem Machine.remembered?_remember {id other : ClosureId} {operands operands' : List Value}
    {result : Value} {known : List Expansion}
    (h : (remembered? other operands' known).isSome) :
    (remembered? other operands' (remember id operands result known)).isSome := by
  rw [remembered?, Option.isSome_map, List.find?_isSome] at h ⊢
  obtain ⟨e, he, hkey⟩ := h
  -- a result may be replaced, but never the macro and the operands it is remembered under
  have hkept : ∃ e' ∈ remember id operands result known,
      e'.closure = e.closure ∧ e'.operands = e.operands := by
    rcases remember_cases id operands result known with
      ⟨before, first, after, rfl, -, -, hnew⟩ | ⟨-, hnew⟩
    · rw [hnew]
      rcases List.mem_append.mp he with hbefore | hcons
      · exact ⟨e, List.mem_append_left _ hbefore, rfl, rfl⟩
      · rcases List.mem_cons.mp hcons with rfl | hafter
        · exact ⟨_, List.mem_append_right _ List.mem_cons_self, rfl, rfl⟩
        · exact ⟨e, List.mem_append_right _ (List.mem_cons_of_mem _ hafter), rfl, rfl⟩
    · rw [hnew]
      exact ⟨e, List.mem_append_left _ he, rfl, rfl⟩
  obtain ⟨e', he', hclosure, hoperands⟩ := hkept
  exact ⟨e', he', by rw [hclosure, hoperands]; exact hkey⟩

/-- The second world has all that the first one has, in its tables and in its
memory. -/
structure World.Grows (w w' : World) : Prop where
  heap : w.heap.Grows w'.heap
  expansions : ∀ id operands, (Machine.remembered? id operands w.expansions).isSome →
    (Machine.remembered? id operands w'.expansions).isSome

theorem World.Grows.refl (w : World) : w.Grows w :=
  ⟨.refl w.heap, fun _ _ h => h⟩

theorem World.Grows.trans {u v w : World} (huv : u.Grows v) (hvw : v.Grows w) : u.Grows w where
  heap := huv.heap.trans hvw.heap
  expansions id operands h := hvw.expansions id operands (huv.expansions id operands h)

/-- Frames are no part of what grows here. -/
theorem World.grows_frames (w : World) (frames : Frames) :
    w.Grows { w with heap := { w.heap with frames } } where
  heap := { Heap.Grows.refl w.heap with }
  expansions _ _ h := h

/-- The discipline of losing nothing. -/
def growing : Discipline where
  rel _ w w' := w.Grows w'
  refl w := .refl w
  trans := .trans
  change w edit := by
    cases edit with
    | heap edit => exact ⟨edit.grows w.heap, fun _ _ h => h⟩
    | print text => exact ⟨.refl w.heap, fun _ _ h => h⟩
    | write files => exact ⟨.refl w.heap, fun _ _ h => h⟩
    | run line run => exact ⟨.refl w.heap, fun _ _ h => h⟩
  remember _ _ hgrows :=
    ⟨hgrows.heap, fun id operands h =>
      Machine.remembered?_remember (hgrows.expansions id operands h)⟩
  define w f s v := w.grows_frames _
  extend w outer label _ hgrows := (w.grows_frames _).trans hgrows
  nested _ _ hgrows := ⟨hgrows.heap, hgrows.expansions⟩
  inCall _ _ _ hgrows := ⟨hgrows.heap, hgrows.expansions⟩

/-- No evaluation and no call loses anything, whether it ends in a value or in a
failure, and neither does a session. -/
theorem run_grows (fuel : Nat) :
    (∀ (request : Request) (w : World), w.Grows (run fuel request w).2) ∧
    (∀ (frame : FrameId) (form : Value) (w : World),
      w.Grows ((run fuel).value frame form w).2) ∧
    (∀ (frame : FrameId) (form : Value) (w : World),
      w.Grows ((run fuel).interpret frame form w).2) ∧
    (∀ (step : HostStep) (w : World), w.Grows (HostStep.perform w step)) ∧
    ∀ start w : World, start.Leads w → start.Grows w := by
  have hrequest : ∀ (fuel : Nat) (request : Request) (w : World),
      w.Grows (run fuel request w).2 := by
    intro fuel request w
    have h := growing.congruence.machines fuel
    cases request with
    | eval frame form => exact h.eval frame form w
    | apply source callee args => exact h.apply (e := none) (t := true) source callee args w
    | unfold sequence taken => exact h.unfold (e := none) (t := true) sequence taken w
  have h := growing.congruence.machines fuel
  refine ⟨hrequest fuel, ?_, ?_, fun step w => growing.perform w step, ?_⟩
  · exact fun frame form => h.value (t := true) frame form
  · exact fun frame form => h.interpret (t := true) frame form
  · intro start w hleads
    induction hleads with
    | refl => exact .refl start
    | step s _ _ ih => exact ih.trans (growing.perform _ s)
    | request fuel r _ _ ih => exact ih.trans (hrequest fuel r _)
    | inside calls depth _ ih => exact ⟨ih.heap, ih.expansions⟩

end Lisp
