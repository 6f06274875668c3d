/-!
# Arities

How many arguments a procedure or a special form takes: at least `min`, and at
most `max` if there is a bound.
-/

namespace Lisp

/-- A range of argument counts. -/
structure Arity where
  min : Nat
  max : Option Nat
  deriving DecidableEq, Repr

namespace Arity

/-- Exactly `n` arguments. -/
def exactly (n : Nat) : Arity := ⟨n, some n⟩

/-- At least `n` arguments. -/
def atLeast (n : Nat) : Arity := ⟨n, none⟩

/-- From `low` to `high` arguments. -/
def between (low high : Nat) : Arity := ⟨low, some high⟩

/-- The count lies in the range. -/
def accepts (a : Arity) (count : Nat) : Bool :=
  a.min ≤ count && (match a.max with | some high => decide (count ≤ high) | none => true)

/-- The range in words. -/
def describe (a : Arity) : String :=
  match a.max with
  | some high => if high = a.min then s!"{high}" else s!"{a.min} to {high}"
  | none => s!"at least {a.min}"

end Arity

end Lisp
