import Lisp.Eval.Conversion
import Lisp.Value.Equality
import Lisp.Value.Hash

/-!
# Equality and hash as programs declare them

`Machine.equal` is structural equality except where a program has declared an
equality for a record type: two records of such a type are compared by it,
wherever they occur inside lists, records and maps.

A map finds a key by structural equality first.  Only a key that holds records
with a declared equality is then compared with each stored key in turn, since
the declared equality may hold where structure differs.  `Machine.hashOf` is
the hash to go with it.
-/

namespace Lisp

/-- The entries of a map. -/
abbrev Entries := List (Value × Value)

namespace Heap

mutual

/-- A value that holds a record whose type has a declared equality. -/
def declaresEquality (h : Heap) : Value → Bool
  | .record ty fields => (h.equality? ty).isSome || anyDeclaresEquality h fields
  | .list items _ => anyDeclaresEquality h items
  | .map entries => entriesDeclareEquality h entries
  | _ => false

/-- Some value of a sequence holds such a record. -/
def anyDeclaresEquality (h : Heap) : List Value → Bool
  | [] => false
  | v :: rest => declaresEquality h v || anyDeclaresEquality h rest

/-- Some key or value of a map holds such a record. -/
def entriesDeclareEquality (h : Heap) : List (Value × Value) → Bool
  | [] => false
  | (key, value) :: rest =>
    declaresEquality h key || declaresEquality h value || entriesDeclareEquality h rest

end

end Heap

namespace Machine

variable (m : Machine)

mutual

/-- Equality of two values, by declared equalities where there are any. -/
def equal (a b : Value) : Eval Bool :=
  match a, b with
  | .record ty xs, .record ty' ys =>
    if ty = ty' then do
      match ← Eval.ask fun w => w.heap.equality? ty with
      | some imp =>
        let answer ← m.call imp [.record ty xs, .record ty' ys]
        m.toBool answer
      | none => if xs.length = ys.length then equalItems xs ys else return false
    else return false
  | .list xs _, .list ys _ =>
    if xs.length = ys.length then equalItems xs ys else return false
  | .map xs, .map ys =>
    if xs.length = ys.length then equalEntries xs ys else return false
  | a, b => return a.same b
termination_by 2 * (sizeOf a + sizeOf b)

/-- Equality of two sequences of one length, up to the first difference. -/
def equalItems (xs ys : List Value) : Eval Bool :=
  match xs, ys with
  | x :: xs, y :: ys => do
    if ← equal x y then equalItems xs ys else return false
  | _, _ => return true
termination_by 2 * (sizeOf xs + sizeOf ys)

/-- Each of the entries is found in the other map, with an equal value. -/
def equalEntries (xs ys : Entries) : Eval Bool :=
  match xs with
  | [] => return true
  | (key, value) :: rest => do
    match ← storedKey? ys key with
    | none => return false
    | some stored =>
      match h : Value.entry? stored ys with
      | none => return false
      | some other =>
        have : sizeOf other < sizeOf ys := List.sizeOf_lt_of_mem (List.mem_of_find?_eq_some h)
        have : sizeOf other.2 < sizeOf other := by
          cases other
          simp only [Prod.mk.sizeOf_spec]
          omega
        if ← equal value other.2 then equalEntries rest ys else return false
termination_by 2 * (sizeOf xs + sizeOf ys)
decreasing_by
  all_goals simp only [List.cons.sizeOf_spec, Prod.mk.sizeOf_spec]
  all_goals omega

/-- The key under which a map holds `key`: `key` itself if a structurally equal
one is stored, else the first stored key that is equal as declared. -/
def storedKey? (entries : Entries) (key : Value) : Eval (Option Value) := do
  match Value.entry? key entries with
  | some _ => return some key
  | none =>
    if ← Eval.ask fun w => w.heap.declaresEquality key then scan entries key
    else return none
termination_by 2 * (sizeOf entries + sizeOf key) + 1

/-- The first stored key that is equal to the one looked for. -/
def scan (entries : Entries) (key : Value) : Eval (Option Value) :=
  match entries with
  | [] => return none
  | (stored, _) :: rest => do
    if ← equal stored key then return some stored else scan rest key
termination_by 2 * (sizeOf entries + sizeOf key)

end

/-- A sequence without elements has nothing to compare. -/
@[simp] theorem equalItems_nil (ys : List Value) : m.equalItems [] ys = pure true := by
  rw [equalItems]
  intro x xs y ys' hcons
  cases hcons

/-- Elements that have no counterpart are not compared. -/
@[simp] theorem equalItems_nil_right (xs : List Value) : m.equalItems xs [] = pure true := by
  rw [equalItems]
  intro x xs' y ys _ hcons
  cases hcons

/-- The value of a key in a map. -/
def mapGet? (entries : Entries) (key : Value) : Eval (Option Value) := do
  match ← m.storedKey? entries key with
  | none => return none
  | some stored => return (Value.entry? stored entries).map Prod.snd

/-- A map has an entry for the key. -/
def mapContains (entries : Entries) (key : Value) : Eval Bool := do
  return (← m.storedKey? entries key).isSome

/-- A map with one more entry, under the key already stored for an equal one. -/
def mapInsert (entries : Entries) (key value : Value) : Eval Entries := do
  let stored ← m.storedKey? entries key
  return Value.insertEntry (stored.getD key) value entries

/-- A map without the entry of a key. -/
def mapRemove (entries : Entries) (key : Value) : Eval Entries := do
  match ← m.storedKey? entries key with
  | none => return entries
  | some stored => return Value.eraseEntry stored entries

/-- A map with more entries, given as keys and values in turn. -/
def mapInsertAll (entries : Entries) : List Value → Eval Entries
  | key :: value :: rest => do
    let entries ← m.mapInsert entries key value
    mapInsertAll entries rest
  | _ => return entries

/-- A map with more entries, given as two-element lists. -/
def mapInsertPairs (entries : Entries) : List Value → Eval Entries
  | [] => return entries
  | .list [key, value] _ :: rest => do
    let entries ← m.mapInsert entries key value
    mapInsertPairs entries rest
  | other :: _ =>
    Eval.failShowing other fun shown => .expectsGot "Expected a (key value) entry" shown

/-- A map without the entries of several keys. -/
def mapRemoveAll (entries : Entries) : List Value → Eval Entries
  | [] => return entries
  | key :: rest => do
    let entries ← m.mapRemove entries key
    mapRemoveAll entries rest

/-- Some element is equal to the value looked for. -/
def anyEqual (needle : Value) : List Value → Eval Bool
  | [] => return false
  | item :: rest => do
    if ← m.equal item needle then return true else anyEqual needle rest

mutual

/-- The hash of a value, by declared hashes where there are any.  A list is
hashed as its length and the hashes of its elements, without its kind, so the
empty list has the hash of nil. -/
def hashOf : Value → Eval UInt64
  | .record ty fields => do
    match ← Eval.ask fun w => w.heap.hash? ty with
    | some imp =>
      let answer ← m.call imp [.record ty fields]
      let n ← m.toNum answer
      return n.toUInt64
    | none => hashItems (mixHash hashStart (UInt64.ofNat (ty + 1))) fields
  | .list items _ => hashItems (mixHash hashStart (UInt64.ofNat items.length)) items
  | other => return other.hashed

/-- The hashes of the elements of a sequence, mixed in order. -/
def hashItems (state : UInt64) : List Value → Eval UInt64
  | [] => return state
  | item :: rest => do
    let h ← hashOf item
    hashItems (mixHash state h) rest

end

/-- The hash as a number that represents it exactly. -/
def hashNumber (h : UInt64) : Value :=
  .num (h &&& 0x1FFFFFFFFFFFFF).toFloat

end Machine

end Lisp
