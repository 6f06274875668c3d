import Lisp.Proofs.Congruence.Run
import Lisp.Proofs.Scope.Reach

/-!
# Tables that agree

The equality and the hash of a record type are kept twice: in the table of an
interface, for dispatch, and with the record type, for comparisons and hashes.  A
heap **conforms** when the two agree for every record type, every key of an
interface has the length that its interface dispatches on, and nothing in it
mentions a record type that does not exist.

The last part is what makes the first one last: a type is recorded with its
implementation only if it is there to be recorded with, and a type that is declared
later finds no implementation registered under its number.

There is one statement for each change that evaluations make to a heap.
-/

namespace Lisp

namespace Interface

/-- Registering an implementation decides what its own key selects, and nothing
else. -/
theorem registered?_register (i : Interface) (key other : List TypeTag) (imp : Value) :
    (i.register key imp).registered? other =
      if other = key then some imp else i.registered? other := by
  obtain ⟨name, params, impls, fallback, hook⟩ := i
  simp only [registered?, register]
  induction impls with
  | nil =>
      by_cases h : other = key
      · simp [put, h]
      · simp [put, List.lookup_cons, h, beq_false_of_ne h]
  | cons e rest ih =>
      obtain ⟨first, old⟩ := e
      by_cases hkey : key = first
      · subst hkey
        by_cases h : other = key
        · simp [put, h]
        · simp [put, List.lookup_cons, h, beq_false_of_ne h]
      · by_cases h : other = first
        · have hne : ¬ other = key := fun heq => hkey (heq.symm.trans h)
          have hne' : ¬ first = key := fun heq => hkey heq.symm
          simp [put, beq_false_of_ne hkey, h, hne']
        · simp only [put, beq_false_of_ne hkey, Bool.false_eq_true, if_false, List.lookup_cons,
            beq_false_of_ne h]
          exact ih

/-- The keys after a registration are those before it and the new one. -/
theorem mem_put {key : List TypeTag} {imp : Value} {impls : List (List TypeTag × Value)}
    {e : List TypeTag × Value} (h : e ∈ put key imp impls) : e = (key, imp) ∨ e ∈ impls := by
  induction impls with
  | nil => exact .inl (List.mem_singleton.mp h)
  | cons first rest ih =>
      obtain ⟨other, old⟩ := first
      rw [put] at h
      split at h
      · rcases List.mem_cons.mp h with rfl | hrest
        · exact .inl rfl
        · exact .inr (List.mem_cons_of_mem _ hrest)
      · rcases List.mem_cons.mp h with rfl | hrest
        · exact .inr List.mem_cons_self
        · exact (ih hrest).imp_right (List.mem_cons_of_mem _)

theorem reach_register_le (i : Interface) (key : List TypeTag) (imp : Value) :
    reach (i.register key imp) ≤ max (reach i) (max (reach key) (reach imp)) := by
  have himpls : reach (put key imp i.impls) ≤
      max (reach i.impls) (max (reach key) (reach imp)) := by
    refine reach_le_iff.mpr fun e he => ?_
    rcases mem_put he with rfl | hold
    · exact Nat.le_max_right _ _
    · exact Nat.le_trans (reach_le_of_mem hold) (Nat.le_max_left _ _)
  show max (reach (put key imp i.impls)) (max (reach i.fallback) (reach i.hook)) ≤
    max (max (reach i.impls) (max (reach i.fallback) (reach i.hook))) _
  omega

end Interface

namespace Heap

/-- An interface of the heap that dispatches on `arity` arguments, with a default
and a hook of its own. -/
def Serves (h : Heap) (i : CoreInterface) (arity : Nat) (fallback : CoreOp) (hook : Hook) : Prop :=
  ∃ interface, h.interfaces[i.id]? = some interface ∧ interface.arity = arity ∧
    interface.fallback = some (.builtin (.core fallback)) ∧ interface.hook = some hook

/-- The number of record types. -/
abbrev types (h : Heap) : Nat := h.recordTypes.size

/-- The tables of the heap agree with each other, and mention record types that
exist. -/
structure Conforms (h : Heap) : Prop where
  inScope : reach h ≤ h.types
  keys : ∀ {id : InterfaceId} {i : Interface}, h.interfaces[id]? = some i →
    ∀ e ∈ i.impls, e.1.length = i.arity
  hashing : h.Serves .hash 1 .hash .recordHash
  equating : h.Serves .equals 2 .equals .recordEquality
  hooks : ∀ {id : InterfaceId} {i : Interface}, h.interfaces[id]? = some i →
    (i.hook = some .recordHash → id = CoreInterface.hash.id) ∧
      (i.hook = some .recordEquality → id = CoreInterface.equals.id)
  equality : ∀ ty, h.equality? ty = h.coreImplementation? .equals [.record ty, .record ty]
  hash : ∀ ty, h.hash? ty = h.coreImplementation? .hash [.record ty]

theorem reach_heap_le_iff {h : Heap} {n : Nat} : reach h ≤ n ↔
    reach h.frames.table.toList ≤ n ∧ reach h.closures.toList ≤ n ∧
      reach h.interfaces.toList ≤ n ∧ reach h.recordTypes.toList ≤ n := by
  show max _ _ ≤ n ↔ _
  simp only [Nat.max_le, and_assoc]

namespace Conforms

variable {h : Heap}

theorem frames (hh : h.Conforms) : reach h.frames.table.toList ≤ h.types :=
  (reach_heap_le_iff.mp hh.inScope).1

theorem closures (hh : h.Conforms) : reach h.closures.toList ≤ h.types :=
  (reach_heap_le_iff.mp hh.inScope).2.1

theorem interfaces (hh : h.Conforms) : reach h.interfaces.toList ≤ h.types :=
  (reach_heap_le_iff.mp hh.inScope).2.2.1

theorem recordTypes (hh : h.Conforms) : reach h.recordTypes.toList ≤ h.types :=
  (reach_heap_le_iff.mp hh.inScope).2.2.2

/-- A change that leaves interfaces and record types alone has only to mention
record types that exist. -/
theorem of_tables_eq (hh : h.Conforms) {h' : Heap} (hinterfaces : h'.interfaces = h.interfaces)
    (hrecordTypes : h'.recordTypes = h.recordTypes)
    (hframes : reach h'.frames.table.toList ≤ h.types)
    (hclosures : reach h'.closures.toList ≤ h.types) : h'.Conforms := by
  have hscoped : reach h' ≤ h'.types := by
    rw [reach_heap_le_iff, types, hinterfaces, hrecordTypes]
    exact ⟨hframes, hclosures, hh.interfaces, hh.recordTypes⟩
  obtain ⟨-, hkeys, hhashing, hequating, hhooks, hequality, hhash⟩ := hh
  obtain ⟨frames', closures', interfaces', recordTypes', traces', serials'⟩ := h'
  obtain rfl : interfaces' = h.interfaces := hinterfaces
  obtain rfl : recordTypes' = h.recordTypes := hrecordTypes
  exact ⟨hscoped, hkeys, hhashing, hequating, hhooks, hequality, hhash⟩

/-! ### Frames, closures and traces -/

theorem reach_bindIn_le (s : Symbol) (v : Value) (bindings : List (Symbol × Value)) :
    reach (Frame.bindIn s v bindings) ≤ max (reach bindings) (reach v) := by
  induction bindings with
  | nil => simp [Frame.bindIn]
  | cons b rest ih =>
      obtain ⟨t, u⟩ := b
      rw [Frame.bindIn]
      split
      · simp only [reach_cons, reach_prod, reach_eq_zero]
        omega
      · simp only [reach_cons]
        omega

theorem define (hh : h.Conforms) (frame : FrameId) (s : Symbol) {v : Value}
    (hv : reach v ≤ h.types) : Conforms { h with frames := h.frames.define frame s v } := by
  refine hh.of_tables_eq rfl rfl (reach_modify_le (fun f hf => ?_) hh.frames) hh.closures
  have hold := Nat.le_trans (reach_le_of_mem hf) hh.frames
  exact Nat.le_trans (reach_bindIn_le s v f.bindings) (Nat.max_le.mpr ⟨hold, hv⟩)

theorem extend (hh : h.Conforms) (outer : FrameId) (label : String) :
    Conforms { h with frames := h.frames.extend outer label } := by
  refine hh.of_tables_eq rfl rfl ?_ hh.closures
  show reach (h.frames.table.push _).toList ≤ _
  rw [reach_push]
  exact Nat.max_le.mpr ⟨hh.frames, Nat.zero_le _⟩

theorem newClosure (hh : h.Conforms) {c : Closure} (hc : reach c ≤ h.types) :
    Conforms { h with closures := h.closures.push c } := by
  refine hh.of_tables_eq rfl rfl hh.frames ?_
  rw [reach_push]
  exact Nat.max_le.mpr ⟨hh.closures, hc⟩

theorem nameClosure (hh : h.Conforms) (id : ClosureId) (name : Symbol) :
    (h.nameClosure id name).Conforms := by
  refine hh.of_tables_eq rfl rfl hh.frames (reach_modify_le (fun c hc => ?_) hh.closures)
  have hold : reach c ≤ h.types := Nat.le_trans (reach_le_of_mem hc) hh.closures
  exact hold

theorem traces (hh : h.Conforms) (traces : Array (Option (List String))) :
    Conforms { h with traces } :=
  hh.of_tables_eq rfl rfl hh.frames hh.closures

theorem serials (hh : h.Conforms) (serials : Nat) : Conforms { h with serials } :=
  hh.of_tables_eq rfl rfl hh.frames hh.closures

/-! ### Declarations -/

/-- A record type is declared: none of its implementations can have been registered
before. -/
theorem newRecordType (hh : h.Conforms) (name : Symbol) (fields : List Symbol) :
    Conforms { h with recordTypes := h.recordTypes.push { name, fields } } := by
  obtain ⟨hscoped, hkeys, hhashing, hequating, hhooks, hequality, hhash⟩ := hh
  have hnew : ∀ (ty : RecordTypeId) {α : Type} (view : RecordType → Option α),
      view { name, fields } = none →
        (h.recordTypes.push { name, fields })[ty]?.bind view = h.recordTypes[ty]?.bind view := by
    intro ty α view hview
    rw [Array.getElem?_push]
    split
    · next hty =>
        have hnone : h.recordTypes[ty]? = none := by simp [hty]
        rw [hnone]
        exact hview
    · rfl
  refine ⟨?_, hkeys, hhashing, hequating, hhooks, ?_, ?_⟩
  · obtain ⟨hframes, hclosures, hinterfaces, htypes⟩ := reach_heap_le_iff.mp hscoped
    rw [reach_heap_le_iff]
    dsimp only [types] at hframes hclosures hinterfaces htypes ⊢
    rw [reach_push, Array.size_push]
    have hfresh : reach ({ name, fields } : RecordType) = 0 := rfl
    refine ⟨?_, ?_, ?_, ?_⟩ <;> omega
  · intro ty
    exact (hnew ty (·.equality) rfl).trans (hequality ty)
  · intro ty
    exact (hnew ty (·.hash) rfl).trans (hhash ty)

/-- An interface is declared, without implementations and with no hook but a
procedure. -/
theorem newInterface (hh : h.Conforms) (name : Symbol) (params : List Symbol)
    {fallback hook : Option Value} (hfallback : reach fallback ≤ h.types)
    (hhook : reach hook ≤ h.types) :
    Conforms { h with
      interfaces := h.interfaces.push
        { name, params, fallback, hook := hook.map .procedure } } := by
  have hold : ∀ {id : InterfaceId}, id < h.interfaces.size → ∀ i,
      (h.interfaces.push i)[id]? = h.interfaces[id]? := by
    intro id hlt i
    rw [Array.getElem?_push, if_neg (Nat.ne_of_lt hlt)]
  have hprocedure : ∀ {hooked : Hook}, hook.map Hook.procedure = some hooked →
      hooked ≠ .recordHash ∧ hooked ≠ .recordEquality := by
    intro hooked hsome
    obtain ⟨p, -, rfl⟩ := Option.map_eq_some_iff.mp hsome
    exact ⟨Hook.noConfusion, Hook.noConfusion⟩
  have hreach : reach (hook.map Hook.procedure) = reach hook := by
    cases hook <;> rfl
  obtain ⟨hscoped, hkeys, hhashing, hequating, hhooks, hequality, hhash⟩ := hh
  obtain ⟨i, hi, hiRest⟩ := hhashing
  obtain ⟨j, hj, hjRest⟩ := hequating
  have hilt := (Array.getElem?_eq_some_iff.mp hi).1
  have hjlt := (Array.getElem?_eq_some_iff.mp hj).1
  have hi' := (hold hilt { name, params, fallback, hook := hook.map .procedure }).trans hi
  have hj' := (hold hjlt { name, params, fallback, hook := hook.map .procedure }).trans hj
  refine ⟨?_, ?_, ⟨i, hi', hiRest⟩, ⟨j, hj', hjRest⟩, ?_, ?_, ?_⟩
  · obtain ⟨hframes, hclosures, hinterfaces, htypes⟩ := reach_heap_le_iff.mp hscoped
    rw [reach_heap_le_iff]
    dsimp only
    rw [reach_push]
    refine ⟨hframes, hclosures, Nat.max_le.mpr ⟨hinterfaces, ?_⟩, htypes⟩
    show max 0 (max (reach fallback) (reach (hook.map Hook.procedure))) ≤ h.types
    rw [hreach]
    omega
  · intro id k hk
    rw [Array.getElem?_push] at hk
    split at hk
    · cases hk
      intro e he
      cases he
    · exact hkeys hk
  · intro id k hk
    rw [Array.getElem?_push] at hk
    split at hk
    · cases hk
      exact ⟨fun hsome => absurd rfl (hprocedure hsome).1,
        fun hsome => absurd rfl (hprocedure hsome).2⟩
    · exact hhooks hk
  · intro ty
    rw [coreImplementation?, hold hjlt]
    exact hequality ty
  · intro ty
    rw [coreImplementation?, hold hilt]
    exact hhash ty

/-! ### Implementations -/

theorem register_interfaces (h : Heap) (id other : InterfaceId) (key : List TypeTag) (imp : Value) :
    (h.register id key imp).interfaces[other]? =
      if id = other then h.interfaces[other]?.map (·.register key imp)
      else h.interfaces[other]? := by
  rw [register, Array.getElem?_modify]

/-- What a core interface selects after a registration. -/
theorem coreImplementation?_register (h : Heap) (i : CoreInterface) (id : InterfaceId)
    (key other : List TypeTag) (imp : Value) (hi : h.interfaces[i.id]?.isSome) :
    (h.register id key imp).coreImplementation? i other =
      if id = i.id ∧ other = key then some imp else h.coreImplementation? i other := by
  obtain ⟨interface, hinterface⟩ := Option.isSome_iff_exists.mp hi
  rw [coreImplementation?, coreImplementation?, register_interfaces, hinterface]
  by_cases hid : id = i.id
  · simp only [hid, if_true, true_and, Option.map_some, Option.bind_some]
    exact interface.registered?_register key other imp
  · simp [hid]

end Conforms

/-- An override changes record types only. -/
theorem override_eq (h : Heap) (hook : Option Hook) (key : List TypeTag) (imp : Value) :
    ∃ recordTypes, h.override hook key imp = { h with recordTypes } ∧
      recordTypes.size = h.types ∧
      ∀ n, reach h.recordTypes.toList ≤ n → reach imp ≤ n → reach recordTypes.toList ≤ n := by
  have hset : ∀ (ty : RecordTypeId) (f : RecordType → RecordType),
      (∀ t, reach (f t) ≤ max (reach t) (reach imp)) → ∀ n, reach h.recordTypes.toList ≤ n →
        reach imp ≤ n → reach (h.recordTypes.modify ty f).toList ≤ n := by
    intro ty f hf n htypes himp
    refine reach_modify_le (fun t ht => ?_) htypes
    exact Nat.le_trans (hf t) (Nat.max_le.mpr ⟨Nat.le_trans (reach_le_of_mem ht) htypes, himp⟩)
  unfold override
  split
  · next ty =>
      refine ⟨_, rfl, Array.size_modify, hset ty _ fun t => ?_⟩
      show max (reach t.equality) (reach imp) ≤ max (max (reach t.equality) (reach t.hash)) _
      omega
  · next a b =>
      split
      · refine ⟨_, rfl, Array.size_modify, hset a _ fun t => ?_⟩
        show max (reach imp) (reach t.hash) ≤ max (max (reach t.equality) (reach t.hash)) _
        omega
      · exact ⟨_, rfl, rfl, fun _ htypes _ => htypes⟩
  · exact ⟨_, rfl, rfl, fun _ htypes _ => htypes⟩

/-- Registering an implementation makes and loses no record type. -/
theorem types_implement (h : Heap) (id : InterfaceId) (key : List TypeTag) (imp : Value) :
    (h.implement id key imp).types = h.types := by
  unfold implement
  split
  · rfl
  · next i _ =>
      split
      · obtain ⟨recordTypes, hoverride, hsize, -⟩ :=
          (h.register id key imp).override_eq i.hook key imp
        rw [hoverride]
        exact hsize
      · rfl

theorem equality?_setEquality (h : Heap) (a ty : RecordTypeId) (imp : Value) :
    (h.setEquality a imp).equality? ty =
      if a = ty ∧ ty < h.types then some imp else h.equality? ty := by
  rw [equality?, setEquality, Array.getElem?_modify]
  by_cases hty : a = ty
  · by_cases hlt : ty < h.recordTypes.size
    · simp [hty, hlt]
    · simp [hty, hlt, equality?]
  · simp [hty, equality?]

theorem hash?_setHash (h : Heap) (a ty : RecordTypeId) (imp : Value) :
    (h.setHash a imp).hash? ty = if a = ty ∧ ty < h.types then some imp else h.hash? ty := by
  rw [hash?, setHash, Array.getElem?_modify]
  by_cases hty : a = ty
  · by_cases hlt : ty < h.recordTypes.size
    · simp [hty, hlt]
    · simp [hty, hlt, hash?]
  · simp [hty, hash?]

theorem equality?_setHash (h : Heap) (a ty : RecordTypeId) (imp : Value) :
    (h.setHash a imp).equality? ty = h.equality? ty := by
  rw [equality?, setHash, Array.getElem?_modify, equality?]
  split
  · cases h.recordTypes[ty]? <;> rfl
  · rfl

theorem hash?_setEquality (h : Heap) (a ty : RecordTypeId) (imp : Value) :
    (h.setEquality a imp).hash? ty = h.hash? ty := by
  rw [hash?, setEquality, Array.getElem?_modify, hash?]
  split
  · cases h.recordTypes[ty]? <;> rfl
  · rfl

open Classical in
/-- An override of the equality changes the equality of its own type. -/
theorem equality?_override (h : Heap) (hook : Option Hook) (key : List TypeTag) (imp : Value)
    (ty : RecordTypeId) :
    (h.override hook key imp).equality? ty =
      if hook = some .recordEquality ∧ key = [.record ty, .record ty] ∧ ty < h.types then some imp
      else h.equality? ty := by
  unfold override
  split
  · rw [equality?_setHash]
    simp
  · next a b =>
      split
      · next hab =>
          rw [equality?_setEquality]
          simp [hab]
      · next hab =>
          rw [if_neg]
          rintro ⟨-, hkey, -⟩
          simp only [List.cons.injEq, TypeTag.record.injEq] at hkey
          exact hab (hkey.1.trans hkey.2.1.symm)
  · next hhash hequality =>
      rw [if_neg]
      rintro ⟨rfl, rfl, -⟩
      exact hequality ty ty rfl rfl

open Classical in
/-- An override of the hash changes the hash of its own type. -/
theorem hash?_override (h : Heap) (hook : Option Hook) (key : List TypeTag) (imp : Value)
    (ty : RecordTypeId) :
    (h.override hook key imp).hash? ty =
      if hook = some .recordHash ∧ key = [.record ty] ∧ ty < h.types then some imp
      else h.hash? ty := by
  unfold override
  split
  · rw [hash?_setHash]
    simp
  · split
    · rw [hash?_setEquality]
      simp
    · simp
  · next hhash hequality =>
      rw [if_neg]
      rintro ⟨rfl, rfl, -⟩
      exact hhash ty rfl rfl

namespace Conforms

variable {h : Heap}

/-- The hook that records an equality is that of the equality, and of no other
interface. -/
theorem hook_iff_equals (hh : h.Conforms) {id : InterfaceId} {i : Interface}
    (hi : h.interfaces[id]? = some i) :
    i.hook = some .recordEquality ↔ id = CoreInterface.equals.id := by
  refine ⟨(hh.hooks hi).2, ?_⟩
  rintro rfl
  obtain ⟨j, hj, -, -, hhook⟩ := hh.equating
  rw [hi] at hj
  cases hj
  exact hhook

theorem hook_iff_hash (hh : h.Conforms) {id : InterfaceId} {i : Interface}
    (hi : h.interfaces[id]? = some i) :
    i.hook = some .recordHash ↔ id = CoreInterface.hash.id := by
  refine ⟨(hh.hooks hi).1, ?_⟩
  rintro rfl
  obtain ⟨j, hj, -, -, hhook⟩ := hh.hashing
  rw [hi] at hj
  cases hj
  exact hhook

/-- An interface after a registration is one from before, or the one registered
with. -/
theorem interface_of_register {id other : InterfaceId} {key : List TypeTag} {imp : Value}
    {j : Interface} (hj : (h.register id key imp).interfaces[other]? = some j) :
    h.interfaces[other]? = some j ∨
      other = id ∧ ∃ i, h.interfaces[id]? = some i ∧ j = i.register key imp := by
  rw [register_interfaces] at hj
  split at hj
  · next hid =>
      subst hid
      obtain ⟨i, hi, rfl⟩ := Option.map_eq_some_iff.mp hj
      exact .inr ⟨rfl, i, hi, rfl⟩
  · exact .inl hj

/-- Registering an implementation changes neither the arity nor the default nor the
hook of an interface. -/
theorem serves_register {i : CoreInterface} {arity : Nat} {fallback : CoreOp} {hook : Hook}
    (hi : h.Serves i arity fallback hook) (id : InterfaceId) (key : List TypeTag) (imp : Value) :
    (h.register id key imp).Serves i arity fallback hook := by
  obtain ⟨interface, hinterface, harity, hfallback, hhook⟩ := hi
  refine ⟨if id = i.id then interface.register key imp else interface, ?_, ?_⟩
  · rw [register_interfaces, hinterface]
    split <;> rfl
  · split <;> exact ⟨harity, hfallback, hhook⟩

section

variable (hh : h.Conforms) {id : InterfaceId} {i : Interface} (hi : h.interfaces[id]? = some i)
  {key : List TypeTag} (imp : Value)
include hh

theorem reach_register_interfaces_le (id : InterfaceId) {imp : Value}
    (hkey : reach key ≤ h.types) (himp : reach imp ≤ h.types) :
    reach (h.register id key imp).interfaces.toList ≤ h.types := by
  refine reach_modify_le (fun j hj => ?_) hh.interfaces
  have hold := Nat.le_trans (reach_le_of_mem hj) hh.interfaces
  have hnew := j.reach_register_le key imp
  omega

include hi

theorem keys_register (hlength : key.length = i.arity) {other : InterfaceId} {j : Interface}
    (hj : (h.register id key imp).interfaces[other]? = some j) :
    ∀ e ∈ j.impls, e.1.length = j.arity := by
  rcases interface_of_register hj with hold | ⟨-, i', hi', rfl⟩
  · exact hh.keys hold
  · rw [hi] at hi'
    cases hi'
    intro e he
    rcases Interface.mem_put he with rfl | hmem
    · exact hlength
    · exact hh.keys hi e hmem

omit hi in
theorem hooks_register {other : InterfaceId} {j : Interface}
    (hj : (h.register id key imp).interfaces[other]? = some j) :
    (j.hook = some .recordHash → other = CoreInterface.hash.id) ∧
      (j.hook = some .recordEquality → other = CoreInterface.equals.id) := by
  rcases interface_of_register hj with hold | ⟨rfl, i', hi', rfl⟩
  · exact hh.hooks hold
  · have hkept : (i'.register key imp).hook = i'.hook := rfl
    rw [hkept]
    exact hh.hooks hi'

/-- The types of a key exist, so the override is recorded wherever the
implementation is registered. -/
theorem equality_implement (hkey : reach key ≤ h.types) (ty : RecordTypeId) :
    ((h.register id key imp).override i.hook key imp).equality? ty =
      (h.register id key imp).coreImplementation? .equals [.record ty, .record ty] := by
  obtain ⟨j, hj, -⟩ := hh.equating
  have hexists : [.record ty, .record ty] = key → ty < h.types := by
    rintro rfl
    exact Nat.le_trans (reach_le_of_mem (a := TypeTag.record ty) List.mem_cons_self) hkey
  have hunchanged : (h.register id key imp).equality? ty =
      h.coreImplementation? .equals [.record ty, .record ty] := hh.equality ty
  have hselects : i.hook = some .recordEquality ∧ key = [.record ty, .record ty] ∧
      ty < (h.register id key imp).types ↔
        id = CoreInterface.equals.id ∧ [.record ty, .record ty] = key := by
    rw [hh.hook_iff_equals hi, eq_comm (a := key)]
    exact and_congr_right fun _ => and_iff_left_of_imp hexists
  rw [equality?_override, hunchanged,
    coreImplementation?_register _ _ _ _ _ _ (Option.isSome_of_eq_some hj)]
  simp only [hselects]

theorem hash_implement (hkey : reach key ≤ h.types) (ty : RecordTypeId) :
    ((h.register id key imp).override i.hook key imp).hash? ty =
      (h.register id key imp).coreImplementation? .hash [.record ty] := by
  obtain ⟨j, hj, -⟩ := hh.hashing
  have hexists : [.record ty] = key → ty < h.types := by
    rintro rfl
    exact Nat.le_trans (reach_le_of_mem (a := TypeTag.record ty) List.mem_cons_self) hkey
  have hunchanged : (h.register id key imp).hash? ty = h.coreImplementation? .hash [.record ty] :=
    hh.hash ty
  have hselects : i.hook = some .recordHash ∧ key = [.record ty] ∧
      ty < (h.register id key imp).types ↔
        id = CoreInterface.hash.id ∧ [.record ty] = key := by
    rw [hh.hook_iff_hash hi, eq_comm (a := key)]
    exact and_congr_right fun _ => and_iff_left_of_imp hexists
  rw [hash?_override, hunchanged,
    coreImplementation?_register _ _ _ _ _ _ (Option.isSome_of_eq_some hj)]
  simp only [hselects]

end

/-- An implementation is registered: if it is an equality or a hash of a record
type, the type is there to be recorded with it. -/
theorem implement (hh : h.Conforms) (id : InterfaceId) {key : List TypeTag} {imp : Value}
    (hkey : reach key ≤ h.types) (himp : reach imp ≤ h.types) :
    (h.implement id key imp).Conforms := by
  unfold Heap.implement
  cases hi : h.interfaces[id]? with
  | none => exact hh
  | some i =>
      dsimp only
      split
      · next hlength =>
          obtain ⟨recordTypes, hoverride, hsize, hreach⟩ :=
            (h.register id key imp).override_eq i.hook key imp
          have hinterfaces := hh.reach_register_interfaces_le id hkey himp
          have hequality := hh.equality_implement hi imp hkey
          have hhash := hh.hash_implement hi imp hkey
          rw [hoverride] at hequality hhash ⊢
          refine ⟨?_, hh.keys_register hi imp hlength, serves_register hh.hashing id key imp,
            serves_register hh.equating id key imp, hh.hooks_register imp, hequality, hhash⟩
          rw [reach_heap_le_iff]
          dsimp only [types] at hsize ⊢
          rw [hsize]
          exact ⟨hh.frames, hh.closures, hinterfaces, hreach _ hh.recordTypes himp⟩
      · exact hh

end Conforms

end Heap

end Lisp
