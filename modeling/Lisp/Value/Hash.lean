import Lisp.Number.Binary64
import Lisp.Value

/-!
# Structural hash

`Value.feed` mixes a value into a running hash, so that structurally equal
values change it in the same way: a number is fed as its key, a list without
its span, an error value without its kind, and a map as the sum of the hashes
of its entries, in whichever order they are kept.
-/

namespace Lisp

/-- The state of a hash before anything is mixed in. -/
def hashStart : UInt64 := 7

/-- Mixes a type tag into a running hash. -/
def TypeTag.feed (state : UInt64) : TypeTag → UInt64
  | .record id => mixHash (mixHash state 12) (UInt64.ofNat id)
  | tag => mixHash state (hash tag.builtinName)

namespace Value

mutual

/-- Mixes a value into a running hash: first its kind, then its content. -/
def feed (state : UInt64) : Value → UInt64
  | .nil => mixHash state 0
  | .bool b => mixHash (mixHash state 1) (if b then hash "true" else hash "false")
  | .num n => mixHash (mixHash state 2) (Number.key n)
  | .str text => mixHash (mixHash state 3) (hash text)
  | .sym s => mixHash (mixHash state 4) (hash s.name)
  | .keyword name => mixHash (mixHash state 5) (hash name)
  | .list items _ => feedItems (mixHash (mixHash state 6) (UInt64.ofNat items.length)) items
  | .map entries =>
    mixHash (mixHash (mixHash state 7) (UInt64.ofNat entries.length)) (entriesSum entries)
  | .closure id => mixHash (mixHash state 8) (hash id)
  | .builtin b => mixHash (mixHash state 9) (hash b.name)
  | .accessor serial _ _ => mixHash (mixHash state 10) (hash serial)
  | .bound receiver target => feed (feed (mixHash state 11) receiver) target
  | .interface id => mixHash (mixHash state 12) (hash id)
  | .type tag => tag.feed (mixHash state 13)
  | .record ty fields => feedItems (mixHash (mixHash state 14) (UInt64.ofNat ty)) fields
  | .error _ message data _ => feed (mixHash (mixHash state 15) (hash message)) data

/-- Mixes the elements of a sequence into a running hash, in order. -/
def feedItems (state : UInt64) : List Value → UInt64
  | [] => state
  | item :: rest => feedItems (feed state item) rest

/-- The sum of the hashes of a map's entries, each hashed on its own. -/
def entriesSum : List (Value × Value) → UInt64
  | [] => 0
  | (key, value) :: rest => feed (feed hashStart key) value + entriesSum rest

end

/-- The structural hash of a value. -/
def hashed (v : Value) : UInt64 := feed hashStart v

end Value

end Lisp
