import Lisp.Proofs.Instance
import Lisp.Proofs.Overrides

/-!
# Records and the patterns that take them apart

A record is made by applying its type to one value per field.  A pattern headed by the
type, with a name per field, undoes this: it takes every such record, whether it insists
or asks, and leaves the names bound to the values (`run_destructure_construct`).

The pattern goes through the elements of the record, and a type may say what its
elements are.  That is the one thing that a program can register to change the outcome:
as long as nothing is registered under `empty?` for the type, implementations of
anything else do not matter.  With an `empty?` that says yes the elements of a record
are no longer its fields; and a few names mean something else at the head of a pattern,
be they names of types or not (`TypedPatterns.not_undoes`).
-/

namespace Lisp

/-! ### Names defined one after another -/

/-- The world after some definitions in one frame. -/
def World.defining (w : World) (frame : FrameId) (bs : Bindings) : World :=
  { w with heap := { w.heap with
      frames := bs.foldl (fun fs b => fs.define frame b.1 b.2) w.heap.frames } }

/-- Definitions of other names leave a name alone. -/
theorem Frames.lookup_foldl_define_of_notMem (fs : Frames) (frame : FrameId) {bs : Bindings}
    {s : Symbol} (hs : s ∉ bs.map Prod.fst) (other : FrameId) :
    (bs.foldl (fun fs b => fs.define frame b.1 b.2) fs).lookup other s = fs.lookup other s := by
  induction bs generalizing fs with
  | nil => rfl
  | cons b bs ih =>
      rw [List.map_cons, List.mem_cons, not_or] at hs
      rw [List.foldl_cons, ih _ hs.2, fs.lookup_define_of_ne frame b.2 hs.1]

/-- Distinct names are each found with the value they were defined with. -/
theorem World.lookup_defining {w : World} {frame : FrameId} (hframe : frame < w.heap.frames.size)
    {bs : Bindings} (hdistinct : (bs.map Prod.fst).Nodup) :
    ∀ b ∈ bs, (w.defining frame bs).heap.frames.lookup frame b.1 = some b.2 := by
  unfold defining
  dsimp only
  generalize w.heap.frames = fs at hframe ⊢
  induction bs generalizing fs with
  | nil => exact fun b hb => nomatch hb
  | cons first bs ih =>
      obtain ⟨hfirst, hrest⟩ := List.nodup_cons.mp hdistinct
      intro b hb
      rw [List.foldl_cons]
      rcases List.mem_cons.mp hb with rfl | hb
      · -- No later definition is of this name.
        rw [Frames.lookup_foldl_define_of_notMem _ _ hfirst]
        exact fs.lookup_define_self b.1 b.2 hframe
      · exact ih hrest _ (by rwa [Frames.size_define]) b hb

/-! ### Rows of names -/

namespace Machine

variable (m : Machine) (mode : Mode) (frame : FrameId)

/-- A row of names takes as many values, in either mode. -/
theorem destructureSequence_names {bs : Bindings}
    (hplain : ∀ b ∈ bs, b.1 ≠ SpecialForm.splice.symbol) (w : World) :
    m.destructureSequence mode frame (bs.map fun b => .sym b.1) (bs.map Prod.snd) w =
      (.ok true, w.defining frame bs) := by
  induction bs generalizing w with
  | nil => cases mode <;> rfl
  | cons b bs ih =>
      have hname := hplain b List.mem_cons_self
      have hfirst : m.destructure mode frame (.sym b.1) b.2 w =
          (.ok true, w.defining frame [b]) := by
        rw [m.destructure_name mode frame hname]
        rfl
      rw [List.map_cons, List.map_cons, m.destructureSequence_cons, Value.restPattern?_sym hname]
      exact (Eval.bind_of_ok hfirst).trans (ih (fun b hb => hplain b (List.mem_cons_of_mem _ hb)) _)

/-- A pattern headed by a type takes the elements of the values of that type. -/
theorem destructure_typed {head v : Value} {parts : List Value} {source : Option Span}
    {w u : World} (hhead : ∀ s ∈ .intern "List" :: patternHeads, head ≠ .sym s)
    (htype : m.value frame head w = (.ok (.type v.tag), u)) :
    m.destructure mode frame (.list (head :: parts) source) v w =
      m.withElements mode v (m.destructureSequence mode frame parts) u := by
  rw [m.destructure_headed mode frame hhead]
  unfold withType
  rw [Eval.bind_of_ok (m.headType_of_value htype), if_pos rfl]

end Machine

/-- A name has a value only where looking it up leaves the world alone. -/
theorem run_value_symbol {fuel : Nat} {frame : FrameId} {s : Symbol} {v : Value} {w u : World}
    (h : (run fuel).value frame (.sym s) w = (.ok v, u)) : u = w := by
  cases fuel with
  | zero => cases h
  | succ fuel =>
      rw [run_value_sym] at h
      exact (congrArg Prod.snd h).symm

/-- A pattern whose head denotes a type takes the elements of the values of that type,
and so does a row. -/
theorem run_destructure_typed {fuel : Nat} {mode : Mode} {frame : FrameId} {head v : Value}
    {parts : List Value} {source : Option Span} {w u : World}
    (hhead : ∀ s ∈ Machine.patternHeads, head ≠ .sym s)
    (htype : (run fuel).value frame head w = (.ok (.type v.tag), u)) :
    (run fuel).destructure mode frame (.list (head :: parts) source) v w =
      (run fuel).withElements mode v ((run fuel).destructureSequence mode frame parts) u := by
  by_cases hlist : head = .sym (.intern "List")
  · -- The head is not even evaluated, but being a name it would not have changed anything.
    subst hlist
    obtain rfl := run_value_symbol htype
    rw [Machine.destructure]
    rfl
  · exact Machine.destructure_typed _ _ _ (List.forall_mem_cons.mpr ⟨hlist, hhead⟩) htype

/-- **Typed patterns undo construction.**  A record made of some values is taken apart by a
pattern headed by its type into as many distinct names, in either mode: each name is then
bound to the value of its field, and nothing else has changed.  This is so whatever has
been registered for the type, as long as it is not an implementation of `empty?`. -/
theorem run_destructure_construct {fuel : Nat} {mode : Mode} {frame : FrameId} {head : Value}
    {ty : RecordTypeId} {t : RecordType} {source : Option Span} {bs : Bindings} {made w u : World}
    (hdeclared : made.heap.recordTypes[ty]? = some t) (hfields : bs.length = t.fields.length)
    (hplain : ∀ b ∈ bs, b.1 ≠ SpecialForm.splice.symbol) (hdistinct : (bs.map Prod.fst).Nodup)
    (hhead : ∀ s ∈ Machine.patternHeads, head ≠ .sym s)
    (htype : (run fuel).value frame head w = (.ok (.type (.record ty)), u))
    (hframe : frame < u.heap.frames.size)
    (hregistered : u.heap.coreImplementation? .isEmpty [.record ty] = none) :
    ∃ record, (run fuel).construct (.record ty) (bs.map Prod.snd) made = (.ok record, made) ∧
      (run fuel).destructure mode frame (.list (head :: bs.map fun b => .sym b.1) source) record w =
        (.ok true, u.defining frame bs) ∧
      ∀ b ∈ bs, (u.defining frame bs).heap.frames.lookup frame b.1 = some b.2 := by
  refine ⟨.record ty (bs.map Prod.snd), ?_, ?_, World.lookup_defining hframe hdistinct⟩
  · unfold Machine.construct
    dsimp only
    rw [Eval.bind_ask, hdeclared, List.length_map]
    exact congrFun (if_pos hfields) made
  · have hiterate : (run fuel).iterate (.record ty (bs.map Prod.snd)) u =
        (.ok (bs.map Prod.snd), u) := (run fuel).iterate_record hregistered
    have helements : (run fuel).elements mode (.record ty (bs.map Prod.snd)) u =
        (.ok (some (bs.map Prod.snd)), u) := by
      unfold Machine.elements
      rw [hiterate]
    rw [run_destructure_typed hhead htype]
    unfold Machine.withElements
    rw [Eval.bind_of_ok helements]
    exact (run fuel).destructureSequence_names mode frame hplain u

/-- A world with a type of two fields, for which a conversion is implemented. -/
def World.withPoint : World where
  heap :=
    { frames := ⟨#[{ bindings := [(.intern "Point", .type (.record 0))] }]⟩
      recordTypes := #[{ name := .intern "Point", fields := [.intern "x", .intern "y"] }]
      interfaces := #[{ name := .intern "to-Bool", params := [.intern "v"],
                        impls := [([.record 0], .nil)] }] }

/-- The pattern `(Point a b)` and the record `(Point :n nil)`, in either mode. -/
theorem run_destructure_construct_point :
    let w := World.withPoint
    let bs : Bindings := [(.intern "a", .keyword "n"), (.intern "b", .nil)]
    let pattern : Value := .ofList [.symbol "Point", .symbol "a", .symbol "b"]
    w.heap.frames.lookup Heap.global (.intern "Point") = some (.type (.record 0)) ∧
      ∀ mode, ∃ record,
        (run 1).construct (.record 0) [.keyword "n", .nil] w = (.ok record, w) ∧
        (run 1).destructure mode Heap.global pattern record w =
          (.ok true, w.defining Heap.global bs) ∧
        ∀ b ∈ bs, (w.defining Heap.global bs).heap.frames.lookup Heap.global b.1 = some b.2 := by
  intro w bs pattern
  have hlookup : w.heap.frames.lookup Heap.global (.intern "Point") = some (.type (.record 0)) := by
    with_unfolding_all rfl
  have hdeclared : w.heap.recordTypes[0]? =
      some { name := .intern "Point", fields := [.intern "x", .intern "y"] } := rfl
  have hplain : ∀ b ∈ bs, b.1 ≠ SpecialForm.splice.symbol := by decide
  have hhead : ∀ s ∈ Machine.patternHeads, Value.symbol "Point" ≠ .sym s :=
    Value.sym_ne_of_notMem (by decide)
  have htype : (run 1).value Heap.global (.symbol "Point") w = (.ok (.type (.record 0)), w) := by
    with_unfolding_all rfl
  have hregistered : w.heap.coreImplementation? .isEmpty [.record 0] = none := by
    with_unfolding_all rfl
  exact ⟨hlookup, fun mode => run_destructure_construct hdeclared rfl hplain (by decide) hhead htype
    (by decide) hregistered⟩

/-! ### What else a pattern may mean -/

/-- In the world, the pattern headed by the form takes apart the records of the type that
the form denotes, whatever the values and the names. -/
def World.Undoes (w : World) (head : Value) (ty : RecordTypeId) : Prop :=
  ∀ (mode : Mode) (bs : Bindings),
    w.heap.recordTypes[ty]?.map (·.fields.length) = some bs.length →
    (∀ b ∈ bs, b.1 ≠ SpecialForm.splice.symbol) → (bs.map Prod.fst).Nodup →
    (Interpreter.machine.headType Heap.global head w).1.value? = some (.record ty) →
    (Interpreter.machine.destructure mode Heap.global
      (.ofList (head :: bs.map fun b => .sym b.1)) (.record ty (bs.map Prod.snd)) w).1.value? =
        some true

namespace TypedPatterns

/-- A type whose records are said to be empty. -/
def emptied : World :=
  (HostStep.program "(def-type (P x)) (def-impl empty? (P) (proc (p) true))").perform (.core {})

/-- A type with the name that heads the patterns for members. -/
def members : World := (HostStep.program "(def-type (Map x))").perform (.core {})

theorem programmed_emptied : emptied.Programmed :=
  .core {} (.step (.program _) .refl (Nat.zero_le _))

theorem programmed_members : members.Programmed :=
  .core {} (.step (.program _) .refl (Nat.zero_le _))

/-- Typed patterns do not undo construction in every world that programs reach: not where
`empty?` is implemented for the type, and elsewhere not under every name. -/
theorem not_undoes :
    (¬ ∀ w : World, w.Programmed → ∀ head ty, w.Undoes head ty) ∧
      ¬ ∀ w : World, w.Programmed → ∀ head ty,
        w.heap.coreImplementation? .isEmpty [.record ty] = none → w.Undoes head ty := by
  constructor
  · intro hall
    have htaken := hall emptied programmed_emptied (.symbol "P") 0 .test
      [(.intern "a", .nil)] (by decide +kernel) (by decide) (by decide) (by decide +kernel)
    revert htaken
    decide +kernel
  · intro hall
    have hnone : members.heap.coreImplementation? .isEmpty [.record 0] = none := by
      have h : (members.heap.coreImplementation? .isEmpty [.record 0]).isNone := by decide +kernel
      exact Option.isNone_iff_eq_none.mp h
    have htaken := hall members programmed_members (.symbol "Map") 0 hnone .test
      [(.intern "a", .nil)] (by decide +kernel) (by decide) (by decide) (by decide +kernel)
    revert htaken
    decide +kernel

end TypedPatterns

end Lisp
