import Lisp.Value

/-!
# The heap

Everything that a running program can change lives here, in tables that only
grow: a new frame, closure, interface, record type or error value gets the next
number of its table, and a number once given keeps meaning the same cell.

**Frames** form a forest.  A frame binds symbols and points to the frame around
it, which is always older; looking up a symbol walks outwards until a frame
binds it.  A definition only ever changes the frame it is made in.

* `Frame.get?_define`: a definition decides what its own symbol is bound to.
* `Frames.get?_extend_of_lt`, `Frames.get?_define_of_ne`: a new frame and a
  definition leave all other frames alone.

The other tables hold closures with the name they are given once, interfaces
with their implementations, record types with the equality and the hash that
programs declare for them, and the call stack attached to an error value.
-/

namespace Lisp

/-- One frame of the lexical environment. -/
structure Frame where
  bindings : List (Symbol × Value) := []
  outer : Option FrameId := none
  label : String := "global"
  deriving Inhabited

namespace Frame

/-- The value that a frame itself binds to a symbol. -/
def get? (f : Frame) (s : Symbol) : Option Value :=
  f.bindings.lookup s

/-- Binds a symbol, in place of an earlier binding of it. -/
def bindIn (s : Symbol) (v : Value) : List (Symbol × Value) → List (Symbol × Value)
  | [] => [(s, v)]
  | (t, u) :: rest => if s == t then (s, v) :: rest else (t, u) :: bindIn s v rest

/-- The frame with one more definition. -/
def define (f : Frame) (s : Symbol) (v : Value) : Frame :=
  { f with bindings := bindIn s v f.bindings }

/-- A definition decides what its own symbol is bound to, and nothing else. -/
theorem get?_define (f : Frame) (s t : Symbol) (v : Value) :
    (f.define s v).get? t = if t = s then some v else f.get? t := by
  obtain ⟨bindings, outer, label⟩ := f
  simp only [get?, define]
  induction bindings with
  | nil =>
      by_cases h : t = s
      · simp [bindIn, h]
      · simp [bindIn, List.lookup_cons, h, beq_false_of_ne h]
  | cons b bs ih =>
      obtain ⟨u, w⟩ := b
      by_cases hu : s = u
      · subst hu
        by_cases h : t = s
        · simp [bindIn, h]
        · simp [bindIn, List.lookup_cons, h, beq_false_of_ne h]
      · by_cases h : t = u
        · have hts : ¬ t = s := fun hts => hu (hts.symm.trans h)
          have hus : ¬ u = s := fun hus => hu hus.symm
          simp [bindIn, beq_false_of_ne hu, h, hus]
        · simp only [bindIn, beq_false_of_ne hu, Bool.false_eq_true, if_false, List.lookup_cons,
            beq_false_of_ne h]
          exact ih

/-- The symbols that a frame binds. -/
def names (f : Frame) : List Symbol :=
  f.bindings.map Prod.fst

end Frame

/-- The frames of a heap, by number. -/
structure Frames where
  table : Array Frame := #[]
  deriving Inhabited

namespace Frames

/-- A forest with one root. -/
def root : Frames := ⟨#[{}]⟩

/-- The number of frames. -/
def size (fs : Frames) : Nat := fs.table.size

/-- The frame of a number. -/
def get? (fs : Frames) (id : FrameId) : Option Frame := fs.table[id]?

/-- Adds a frame inside `outer`; it gets the number `fs.size`. -/
def extend (fs : Frames) (outer : FrameId) (label : String) : Frames :=
  ⟨fs.table.push { outer := some outer, label }⟩

/-- Binds a symbol in one frame. -/
def define (fs : Frames) (id : FrameId) (s : Symbol) (v : Value) : Frames :=
  ⟨fs.table.modify id (·.define s v)⟩

/-- A new frame comes after all others. -/
@[simp] theorem size_extend (fs : Frames) (outer : FrameId) (label : String) :
    (fs.extend outer label).size = fs.size + 1 := by
  simp [extend, size]

/-- A definition makes no frame. -/
@[simp] theorem size_define (fs : Frames) (id : FrameId) (s : Symbol) (v : Value) :
    (fs.define id s v).size = fs.size := by
  simp [define, size]

/-- A new frame leaves the others alone. -/
theorem get?_extend_of_lt (fs : Frames) (outer : FrameId) (label : String) (id : FrameId)
    (h : id < fs.size) : (fs.extend outer label).get? id = fs.get? id := by
  simp only [get?, extend, size] at h ⊢
  rw [Array.getElem?_push]
  have hne : ¬ id = fs.table.size := Nat.ne_of_lt h
  simp [hne]

/-- A definition changes the frame it is made in, and no other. -/
theorem get?_define_of_ne (fs : Frames) (id other : FrameId) (s : Symbol) (v : Value)
    (h : other ≠ id) : (fs.define id s v).get? other = fs.get? other := by
  simp only [get?, define, Array.getElem?_modify]
  have hne : ¬ id = other := fun heq => h heq.symm
  simp [hne]

/-- The nearest binding of a symbol, walking outwards. -/
def lookup (fs : Frames) (id : FrameId) (s : Symbol) : Option Value :=
  match fs.get? id with
  | none => none
  | some frame =>
    match frame.get? s with
    | some v => some v
    | none =>
      match frame.outer with
      | none => none
      | some outer => if outer < id then fs.lookup outer s else none
termination_by id

/-- A name is found in the frame that it has just been defined in. -/
theorem lookup_define_self (fs : Frames) {id : FrameId} (s : Symbol) (v : Value)
    (h : id < fs.size) : (fs.define id s v).lookup id s = some v := by
  have hframe : (fs.define id s v).get? id = some (fs.table[id].define s v) := by
    simp only [get?, define, Array.getElem?_modify, if_true]
    rw [Array.getElem?_eq_getElem h, Option.map_some]
  have hbound : (fs.table[id].define s v).get? s = some v := by
    rw [Frame.get?_define, if_pos rfl]
  rw [lookup, hframe]
  simp only [hbound]

/-- No other name is found differently from any frame. -/
theorem lookup_define_of_ne (fs : Frames) (id : FrameId) {s t : Symbol} (v : Value)
    (h : t ≠ s) (other : FrameId) : (fs.define id s v).lookup other t = fs.lookup other t := by
  induction other using Nat.strongRecOn with
  | ind other ih =>
      rw [lookup, lookup]
      have hframe : (fs.define id s v).get? other =
          (fs.get? other).map fun f => if id = other then f.define s v else f := by
        simp only [get?, define, Array.getElem?_modify]
        split
        · rfl
        · cases fs.table[other]? <;> rfl
      rw [hframe]
      cases fs.get? other with
      | none => rfl
      | some f =>
          have hbound : (if id = other then f.define s v else f).get? t = f.get? t := by
            split
            · rw [Frame.get?_define, if_neg h]
            · rfl
          have houter : (if id = other then f.define s v else f).outer = f.outer := by
            split <;> rfl
          simp only [Option.map_some, hbound, houter]
          cases f.get? t with
          | some u => rfl
          | none =>
              cases f.outer with
              | none => rfl
              | some outer =>
                  dsimp only
                  split
                  · next hlt => exact ih outer hlt
                  · rfl

/-- Some frame on the way outwards binds the symbol, be it to nil. -/
def has (fs : Frames) (id : FrameId) (s : Symbol) : Bool :=
  match fs.get? id with
  | none => false
  | some frame =>
    (frame.get? s).isSome ||
      match frame.outer with
      | none => false
      | some outer => if outer < id then fs.has outer s else false
termination_by id

end Frames

/-- A procedure or macro together with its defining frame. -/
structure Closure where
  params : List Value
  body : List Value
  frame : FrameId
  expands : Bool
  name : Option Symbol := none
  deriving Inhabited

/-- The name of a closure in messages and call stacks. -/
def Closure.displayName (c : Closure) : String :=
  match c.name with
  | some s => s.name
  | none => "anonymous"

/-- What happens after an implementation has been registered. -/
inductive Hook where
  | recordHash
  | recordEquality
  | procedure (p : Value)
  deriving Inhabited

/-- An open generic procedure, dispatched on the exact type tags of its leading
arguments. -/
structure Interface where
  name : Symbol
  params : List Symbol
  impls : List (List TypeTag × Value) := []
  fallback : Option Value := none
  hook : Option Hook := none
  deriving Inhabited

namespace Interface

/-- The number of arguments dispatched on. -/
def arity (i : Interface) : Nat := i.params.length

/-- The implementation registered for exactly these tags. -/
def registered? (i : Interface) (key : List TypeTag) : Option Value :=
  i.impls.lookup key

/-- The implementation for these tags, else the default. -/
def implementation? (i : Interface) (key : List TypeTag) : Option Value :=
  i.registered? key <|> i.fallback

/-- Puts an implementation in place of an earlier one for the same tags. -/
def put (key : List TypeTag) (imp : Value) :
    List (List TypeTag × Value) → List (List TypeTag × Value)
  | [] => [(key, imp)]
  | (other, old) :: rest =>
    if key == other then (key, imp) :: rest else (other, old) :: put key imp rest

/-- The interface with one more implementation. -/
def register (i : Interface) (key : List TypeTag) (imp : Value) : Interface :=
  { i with impls := put key imp i.impls }

/-- The interface as it is called: its name and parameters. -/
def signature (i : Interface) : String :=
  "(" ++ i.name.name ++ String.join (i.params.map fun p => " " ++ p.name) ++ ")"

end Interface

/-- A record type, with the equality and hash declared for it. -/
structure RecordType where
  name : Symbol
  fields : List Symbol
  equality : Option Value := none
  hash : Option Value := none
  deriving Inhabited

/-- The position of a field. -/
def RecordType.fieldIndex? (t : RecordType) (name : String) : Option Nat :=
  t.fields.findIdx? fun field => field.name == name

/-- The interfaces that the evaluator itself dispatches through. -/
inductive CoreInterface where
  | toBool
  | toNum
  | toStr
  | toProc
  | first
  | rest
  | isEmpty
  | hash
  | equals
  deriving DecidableEq, Repr

namespace CoreInterface

/-- The core interfaces are the first ones of every heap. -/
def id : CoreInterface → InterfaceId
  | .toBool => 0
  | .toNum => 1
  | .toStr => 2
  | .toProc => 3
  | .first => 4
  | .rest => 5
  | .isEmpty => 6
  | .hash => 7
  | .equals => 8

end CoreInterface

/-- The tables of a running program.  `serials` counts the fresh symbols and
access procedures made so far. -/
structure Heap where
  frames : Frames := .root
  closures : Array Closure := #[]
  interfaces : Array Interface := #[]
  recordTypes : Array RecordType := #[]
  traces : Array (Option (List String)) := #[]
  serials : Nat := 0
  deriving Inhabited

namespace Heap

/-- The frame that holds the global definitions. -/
def global : FrameId := 0

/-- The name of a type. -/
def typeName (h : Heap) : TypeTag → String
  | .record id => (h.recordTypes[id]?.map fun t => t.name.name).getD "Record"
  | tag => tag.builtinName

/-- A tuple of tags as it is written after the name of an interface. -/
def describeKey (h : Heap) (name : Symbol) (key : List TypeTag) : String :=
  "(" ++ name.name ++ String.join (key.map fun tag => " " ++ h.typeName tag) ++ ")"

/-- The tags an interface is implemented for, in the order of their
descriptions. -/
def implementedKeys (h : Heap) (i : Interface) : List (List TypeTag) :=
  (i.impls.map Prod.fst).mergeSort fun a b =>
    decide (h.describeKey i.name a ≤ h.describeKey i.name b)

/-- The equality declared for a record type. -/
def equality? (h : Heap) (ty : RecordTypeId) : Option Value :=
  h.recordTypes[ty]?.bind (·.equality)

/-- The hash declared for a record type. -/
def hash? (h : Heap) (ty : RecordTypeId) : Option Value :=
  h.recordTypes[ty]?.bind (·.hash)

/-- The implementation of a core interface for exactly these tags. -/
def coreImplementation? (h : Heap) (i : CoreInterface) (key : List TypeTag) : Option Value :=
  h.interfaces[i.id]?.bind (·.registered? key)

/-- The call stack attached to an error value. -/
def stack? (h : Heap) (serial : Nat) : Option (List String) :=
  h.traces[serial]?.join

/-- Attaches a call stack to an error value, unless it has one. -/
def attachStack (h : Heap) (serial : Nat) (stack : List String) : Heap :=
  { h with traces := h.traces.modify serial fun old => some (old.getD stack) }

/-- Names a closure, unless it has a name. -/
def nameClosure (h : Heap) (id : ClosureId) (name : Symbol) : Heap :=
  { h with closures := h.closures.modify id fun c => { c with name := some (c.name.getD name) } }

/-- Registers an implementation of an interface. -/
def register (h : Heap) (id : InterfaceId) (key : List TypeTag) (imp : Value) : Heap :=
  { h with interfaces := h.interfaces.modify id (·.register key imp) }

/-- Records the equality of a record type. -/
def setEquality (h : Heap) (ty : RecordTypeId) (imp : Value) : Heap :=
  { h with recordTypes := h.recordTypes.modify ty fun t => { t with equality := some imp } }

/-- Records the hash of a record type. -/
def setHash (h : Heap) (ty : RecordTypeId) (imp : Value) : Heap :=
  { h with recordTypes := h.recordTypes.modify ty fun t => { t with hash := some imp } }

end Heap

end Lisp
