import Lisp.Eval.Machine

/-!
# How far the mention of record types reaches

A value mentions record types by their numbers: a record that of its own type, a
type that of itself, and a list, a map or an error value those of its parts.  The
**reach** of a value is one more than the largest of these numbers, so a value
whose reach does not exceed the number of record types mentions none that does not
exist.  Failures, requests and the cells of the heap have a reach as well, that of
the values they hold.

A closure, an interface or a frame is mentioned by number too, but what it holds is
counted where it is kept, in the reach of the heap.
-/

namespace Lisp

/-- What mentions record types, with one more than the largest of their numbers. -/
class Reach (α : Type) where
  reach : α → Nat

export Reach (reach)

/-- A type whose members mention no record types. -/
class Plain (α : Type) [Reach α] : Prop where
  reach_eq_zero : ∀ a : α, reach a = 0

@[simp] theorem reach_eq_zero {α : Type} [Reach α] [Plain α] (a : α) : reach a = 0 :=
  Plain.reach_eq_zero a

/-! ### Plain data -/

instance : Reach Unit := ⟨fun _ => 0⟩
instance : Reach Bool := ⟨fun _ => 0⟩
instance : Reach Nat := ⟨fun _ => 0⟩
instance : Reach Float := ⟨fun _ => 0⟩
instance : Reach UInt64 := ⟨fun _ => 0⟩
instance : Reach String := ⟨fun _ => 0⟩
instance : Reach Symbol := ⟨fun _ => 0⟩
instance : Reach Ordering := ⟨fun _ => 0⟩

instance : Plain Unit := ⟨fun _ => rfl⟩
instance : Plain Bool := ⟨fun _ => rfl⟩
instance : Plain Nat := ⟨fun _ => rfl⟩
instance : Plain Float := ⟨fun _ => rfl⟩
instance : Plain UInt64 := ⟨fun _ => rfl⟩
instance : Plain String := ⟨fun _ => rfl⟩
instance : Plain Symbol := ⟨fun _ => rfl⟩
instance : Plain Ordering := ⟨fun _ => rfl⟩

/-! ### Pairs, options and lists -/

section

variable {α β : Type} [Reach α] [Reach β]

instance : Reach (α × β) := ⟨fun p => max (reach p.1) (reach p.2)⟩

instance : Reach (Option α) := ⟨fun o => o.elim 0 reach⟩

instance : Reach (List α) := ⟨fun l => l.foldr (fun a n => max (reach a) n) 0⟩

@[simp] theorem reach_prod (a : α) (b : β) : reach (a, b) = max (reach a) (reach b) := rfl

@[simp] theorem reach_none : reach (none : Option α) = 0 := rfl

@[simp] theorem reach_some (a : α) : reach (some a) = reach a := rfl

@[simp] theorem reach_nil : reach ([] : List α) = 0 := rfl

@[simp] theorem reach_cons (a : α) (l : List α) : reach (a :: l) = max (reach a) (reach l) := rfl

theorem reach_le_iff {l : List α} {n : Nat} : reach l ≤ n ↔ ∀ a ∈ l, reach a ≤ n := by
  induction l with
  | nil => simp
  | cons a l ih => rw [reach_cons, Nat.max_le, ih, List.forall_mem_cons]

theorem reach_le_of_mem {l : List α} {a : α} (h : a ∈ l) : reach a ≤ reach l :=
  reach_le_iff.mp (Nat.le_refl _) a h

theorem reach_le_of_subset {l l' : List α} (h : ∀ a ∈ l, a ∈ l') : reach l ≤ reach l' :=
  reach_le_iff.mpr fun a ha => reach_le_of_mem (h a ha)

@[simp] theorem reach_append (l l' : List α) : reach (l ++ l') = max (reach l) (reach l') := by
  induction l with
  | nil => simp
  | cons a l ih => simp only [List.cons_append, reach_cons, ih, Nat.max_assoc]

theorem reach_map_le {l : List α} {f : α → β} (h : ∀ a ∈ l, reach (f a) ≤ reach a) :
    reach (l.map f) ≤ reach l := by
  refine reach_le_iff.mpr fun b hb => ?_
  obtain ⟨a, ha, rfl⟩ := List.mem_map.mp hb
  exact Nat.le_trans (h a ha) (reach_le_of_mem ha)

@[simp] theorem reach_reverse (l : List α) : reach l.reverse = reach l := by
  refine Nat.le_antisymm ?_ ?_
  · exact reach_le_of_subset fun a ha => List.mem_reverse.mp ha
  · exact reach_le_of_subset fun a ha => List.mem_reverse.mpr ha

theorem reach_getElem?_le (l : List α) (i : Nat) : reach l[i]? ≤ reach l := by
  cases h : l[i]? with
  | none => exact Nat.zero_le _
  | some a => exact reach_le_of_mem (List.mem_of_getElem? h)

theorem reach_getD_le (o : Option α) (a : α) : reach (o.getD a) ≤ max (reach o) (reach a) := by
  cases o with
  | none => exact Nat.le_max_right _ _
  | some b => exact Nat.le_max_left _ _

theorem reach_headD_le (l : List α) (a : α) : reach (l.headD a) ≤ max (reach l) (reach a) := by
  cases l with
  | nil => exact Nat.le_max_right _ _
  | cons b l => simp only [List.headD_cons, reach_cons]; omega

theorem reach_tail_le (l : List α) : reach l.tail ≤ reach l :=
  reach_le_of_subset fun _ ha => List.mem_of_mem_tail ha

theorem reach_take_le (l : List α) (k : Nat) : reach (l.take k) ≤ reach l :=
  reach_le_of_subset fun _ ha => List.mem_of_mem_take ha

theorem reach_drop_le (l : List α) (k : Nat) : reach (l.drop k) ≤ reach l :=
  reach_le_of_subset fun _ ha => List.mem_of_mem_drop ha

theorem reach_dropLast_le (l : List α) : reach l.dropLast ≤ reach l :=
  reach_le_of_subset fun _ ha => List.dropLast_subset l ha

theorem reach_getLast?_le (l : List α) : reach l.getLast? ≤ reach l := by
  cases h : l.getLast? with
  | none => exact Nat.zero_le _
  | some a => exact reach_le_of_mem (List.mem_of_getLast? h)

theorem reach_set_le (l : List α) (i : Nat) (a : α) :
    reach (l.set i a) ≤ max (reach l) (reach a) := by
  refine reach_le_iff.mpr fun b hb => ?_
  rcases List.mem_or_eq_of_mem_set hb with hmem | rfl
  · exact Nat.le_trans (reach_le_of_mem hmem) (Nat.le_max_left _ _)
  · exact Nat.le_max_right _ _

theorem reach_map_option_le {o : Option α} {f : α → β} (h : ∀ a, reach (f a) ≤ reach a) :
    reach (o.map f) ≤ reach o := by
  cases o with
  | none => exact Nat.zero_le _
  | some a => exact h a

theorem reach_lookup_le {γ : Type} [BEq γ] [Reach γ] (l : List (γ × α)) (key : γ) :
    reach (l.lookup key) ≤ reach l := by
  induction l with
  | nil => exact Nat.zero_le _
  | cons e l ih =>
      obtain ⟨k, a⟩ := e
      rw [List.lookup_cons]
      split
      · simp only [reach_some, reach_cons, reach_prod]
        omega
      · simp only [reach_cons]
        omega

instance [Plain α] : Plain (Option α) :=
  ⟨fun o => by cases o <;> simp⟩

instance [Plain α] : Plain (List α) :=
  ⟨fun _ => Nat.le_zero.mp (reach_le_iff.mpr fun a _ => Nat.le_of_eq (reach_eq_zero a))⟩

end

/-! ### Values -/

instance : Reach TypeTag where
  reach
    | .record id => id + 1
    | _ => 0

@[simp] theorem reach_tag_record (ty : RecordTypeId) : reach (TypeTag.record ty) = ty + 1 := rfl

namespace Value

mutual

/-- One more than the largest number of a record type that a value mentions. -/
def typeReach : Value → Nat
  | .list items _ => itemsReach items
  | .map entries => entriesReach entries
  | .accessor _ _ subject => typeReach subject
  | .bound receiver target => max (typeReach receiver) (typeReach target)
  | .type tag => reach tag
  | .record ty fields => max (ty + 1) (itemsReach fields)
  | .error _ _ data _ => typeReach data
  | _ => 0

/-- The reach of the elements of a sequence. -/
def itemsReach : List Value → Nat
  | [] => 0
  | v :: rest => max (typeReach v) (itemsReach rest)

/-- The reach of the entries of a map. -/
def entriesReach : List (Value × Value) → Nat
  | [] => 0
  | (key, value) :: rest => max (max (typeReach key) (typeReach value)) (entriesReach rest)

end

end Value

instance : Reach Value := ⟨Value.typeReach⟩

theorem itemsReach_eq (items : List Value) : Value.itemsReach items = reach items := by
  induction items with
  | nil => rfl
  | cons v rest ih => rw [Value.itemsReach, ih]; rfl

theorem entriesReach_eq (entries : List (Value × Value)) :
    Value.entriesReach entries = reach entries := by
  induction entries with
  | nil => rfl
  | cons e rest ih => rw [Value.entriesReach, ih]; rfl

section

variable (items : List Value) (source : Option Span) (v r t : Value)

@[simp] theorem reach_value_nil : reach Value.nil = 0 := rfl
@[simp] theorem reach_bool (b : Bool) : reach (Value.bool b) = 0 := rfl
@[simp] theorem reach_num (n : Float) : reach (Value.num n) = 0 := rfl
@[simp] theorem reach_str (text : String) : reach (Value.str text) = 0 := rfl
@[simp] theorem reach_sym (s : Symbol) : reach (Value.sym s) = 0 := rfl
@[simp] theorem reach_symbol (name : String) : reach (Value.symbol name) = 0 := rfl
@[simp] theorem reach_keyword (name : String) : reach (Value.keyword name) = 0 := rfl
@[simp] theorem reach_closure (id : ClosureId) : reach (Value.closure id) = 0 := rfl
@[simp] theorem reach_builtin (b : Builtin) : reach (Value.builtin b) = 0 := rfl
@[simp] theorem reach_interface (id : InterfaceId) : reach (Value.interface id) = 0 := rfl
@[simp] theorem reach_type (tag : TypeTag) : reach (Value.type tag) = reach tag := rfl

@[simp] theorem reach_list : reach (Value.list items source) = reach items :=
  itemsReach_eq items

@[simp] theorem reach_ofList : reach (Value.ofList items) = reach items :=
  itemsReach_eq items

@[simp] theorem reach_map (entries : List (Value × Value)) :
    reach (Value.map entries) = reach entries :=
  entriesReach_eq entries

@[simp] theorem reach_record (ty : RecordTypeId) :
    reach (Value.record ty items) = max (ty + 1) (reach items) :=
  congrArg (max (ty + 1)) (itemsReach_eq items)

@[simp] theorem reach_accessor (serial : Nat) (way : Access) :
    reach (Value.accessor serial way v) = reach v := rfl

@[simp] theorem reach_bound : reach (Value.bound r t) = max (reach r) (reach t) := rfl

@[simp] theorem reach_error (serial : Nat) (message : String) (kind : Option String) :
    reach (Value.error serial message v kind) = reach v := rfl

end

/-- The type of a value is mentioned by the value. -/
theorem reach_tag_le (v : Value) : reach v.tag ≤ reach v := by
  cases v with
  | record ty fields => simp only [Value.tag, reach_tag_record, reach_record]; omega
  | _ => exact Nat.zero_le _

/-! ### Failures, requests and steps -/

instance : Reach Failure where
  reach f := match f.cause with
    | .thrown v => reach v
    | .recur target args => max (reach target) (reach args)
    | _ => 0

/-- The reach of a failure is that of its cause. -/
theorem reach_failure_congr {f g : Failure} (h : f.cause = g.cause) : reach f = reach g := by
  obtain ⟨cause, context⟩ := f
  obtain ⟨cause', context'⟩ := g
  cases h
  rfl

instance {α : Type} [Reach α] : Reach (Answer α) where
  reach
    | .ok a => reach a
    | .failed f => reach f
    | .outOfFuel => 0

instance : Reach Request where
  reach
    | .eval _ form => reach form
    | .apply _ callee args => max (reach callee) (reach args)
    | .unfold sequence taken => max (reach sequence) (reach taken)

instance : Reach Next where
  reach
    | .done v => reach v
    | .again request => reach request

/-! ### The cells of the heap -/

section

variable {α : Type} [Reach α]

theorem reach_push (cells : Array α) (a : α) :
    reach (cells.push a).toList = max (reach cells.toList) (reach a) := by
  simp

theorem reach_modify_le {cells : Array α} {i n : Nat} {f : α → α}
    (hf : ∀ a ∈ cells.toList, reach (f a) ≤ n) (h : reach cells.toList ≤ n) :
    reach (cells.modify i f).toList ≤ n := by
  refine reach_le_iff.mpr fun b hb => ?_
  obtain ⟨j, hj⟩ := List.mem_iff_getElem?.mp hb
  rw [Array.getElem?_toList, Array.getElem?_modify] at hj
  split at hj
  · obtain ⟨a, ha, rfl⟩ := Option.map_eq_some_iff.mp hj
    exact hf a (Array.mem_toList_iff.mpr (Array.mem_of_getElem? ha))
  · exact reach_le_iff.mp h b (Array.mem_toList_iff.mpr (Array.mem_of_getElem? hj))

theorem reach_cell_le {cells : Array α} {i : Nat} {a : α} (h : cells[i]? = some a) :
    reach a ≤ reach cells.toList :=
  reach_le_of_mem (Array.mem_toList_iff.mpr (Array.mem_of_getElem? h))

end

instance : Reach Frame := ⟨fun f => reach f.bindings⟩

instance : Reach Closure := ⟨fun c => max (reach c.params) (reach c.body)⟩

instance : Reach Hook where
  reach
    | .procedure p => reach p
    | _ => 0

instance : Reach Interface :=
  ⟨fun i => max (reach i.impls) (max (reach i.fallback) (reach i.hook))⟩

instance : Reach RecordType := ⟨fun t => max (reach t.equality) (reach t.hash)⟩

instance : Reach Expansion := ⟨fun e => max (reach e.operands) (reach e.result)⟩

instance : Reach Heap where
  reach h := max (max (reach h.frames.table.toList) (reach h.closures.toList))
    (max (reach h.interfaces.toList) (reach h.recordTypes.toList))

instance : Reach World := ⟨fun w => max (reach w.heap) (reach w.expansions)⟩

end Lisp
