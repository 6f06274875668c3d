import Lisp.Number.Binary64
import Lisp.Value

/-!
# Structural equality

`Value.same` compares values by their structure.  Numbers are compared by
their key, so the two zeros are one number and a value that is not a number
equals itself; the span of a list does not matter; two maps are equal when they
have as many entries and each entry of the first is an entry of the second;
closures, interfaces and access procedures are equal only to themselves; error
values are compared by message and data.
-/

namespace Lisp.Value

mutual

/-- Structural equality of two values. -/
def same : Value → Value → Bool
  | .nil, .nil => true
  | .bool a, .bool b => a == b
  | .num a, .num b => Number.same a b
  | .str a, .str b => a == b
  | .sym a, .sym b => a == b
  | .keyword a, .keyword b => a == b
  | .list xs _, .list ys _ => sameItems xs ys
  | .map xs, .map ys => xs.length == ys.length && sameEntries xs ys
  | .closure a, .closure b => a == b
  | .builtin a, .builtin b => a == b
  | .accessor a _ _, .accessor b _ _ => a == b
  | .bound r t, .bound r' t' => same r r' && same t t'
  | .interface a, .interface b => a == b
  | .type a, .type b => a == b
  | .record a xs, .record b ys => a == b && sameItems xs ys
  | .error _ m d _, .error _ m' d' _ => m == m' && same d d'
  | _, _ => false

/-- Equality of two sequences, element by element. -/
def sameItems : List Value → List Value → Bool
  | [], [] => true
  | x :: xs, y :: ys => same x y && sameItems xs ys
  | _, _ => false

/-- Each entry of the first list has an equal one in the second, which is
looked up by its key. -/
def sameEntries : List (Value × Value) → List (Value × Value) → Bool
  | [], _ => true
  | (key, value) :: rest, others =>
    (match others.find? fun other => same key other.1 with
      | some other => same value other.2
      | none => false) && sameEntries rest others

end

/-- The entry of a map whose key is structurally equal to `key`. -/
def entry? (key : Value) (entries : List (Value × Value)) : Option (Value × Value) :=
  entries.find? fun entry => same key entry.1

/-- Binds `key` to `value` among the entries of a map.  The new key replaces an
equal one. -/
def insertEntry (key value : Value) : List (Value × Value) → List (Value × Value)
  | [] => [(key, value)]
  | entry :: rest =>
    if same key entry.1 then (key, value) :: rest else entry :: insertEntry key value rest

/-- Takes the entry of `key` out of a map. -/
def eraseEntry (key : Value) : List (Value × Value) → List (Value × Value)
  | [] => []
  | entry :: rest => if same key entry.1 then rest else entry :: eraseEntry key rest

end Lisp.Value
