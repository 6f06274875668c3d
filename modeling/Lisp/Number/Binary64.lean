/-!
# Doubles as scaled integers

The magnitude of a finite double is a whole number of **grains**, the smallest
positive double `2 ^ -1074` being one grain.  The bit pattern of a magnitude is
itself a number: reading it as `exponent * 2 ^ 52 + fraction`, a carry out of
the fraction moves to the next exponent by plain addition, which is why
rounding up needs no case of its own.

* `grains` decodes a pattern into its exact magnitude;
* `nearest` encodes the double nearest to a ratio, a tie going to the even
  pattern;
* `remainder` is the exact remainder of two doubles, with the sign of the
  dividend;
* `key` is one pattern per number: the two zeros share theirs, and so do all
  patterns that are not a number.
-/

namespace Lisp.Number

/-- The pattern of positive infinity; every larger magnitude is not a number. -/
def infinityPattern : Nat := 0x7FF0000000000000

/-- The weight of the exponent's last bit, `2 ^ 52`: a fraction is smaller. -/
def fractionWeight : Nat := 0x10000000000000

/-- The weight of the sign bit. -/
def signWeight : Nat := 0x8000000000000000

/-- The pattern of a double without its sign. -/
def magnitude (x : Float) : Nat :=
  x.toBits.toNat % signWeight

/-- The sign bit of a double. -/
def isNegative (x : Float) : Bool :=
  signWeight ≤ x.toBits.toNat

/-- The double with the given sign and magnitude pattern. -/
def ofPattern (negative : Bool) (pattern : Nat) : Float :=
  Float.ofBits (UInt64.ofNat (if negative then signWeight + pattern else pattern))

/-- One pattern per number, equal zeros and equal non-numbers included. -/
def key (x : Float) : UInt64 :=
  if magnitude x = 0 then 0
  else if magnitude x > infinityPattern then 0x7FF8000000000000
  else x.toBits

/-- Numbers are the same when they have the same key. -/
def same (x y : Float) : Bool :=
  key x == key y

/-- The exact magnitude of a finite pattern, counted in grains. -/
def grains (pattern : Nat) : Nat :=
  let exponent := pattern / fractionWeight
  let fraction := pattern % fractionWeight
  if exponent = 0 then fraction else (fractionWeight + fraction) <<< (exponent - 1)

/-- A quotient rounded to the nearest whole number, a tie going to the even
one. -/
def roundToEven (num den : Nat) : Nat :=
  let low := num / den
  let twice := 2 * (num % den)
  if twice < den then low
  else if den < twice then low + 1
  else if low % 2 = 0 then low
  else low + 1

/-- The largest `t` with `2 ^ t ≤ num / den`, for positive arguments. -/
def binaryExponent (num den : Nat) : Int :=
  let guess : Int := (Nat.log2 num : Int) - (Nat.log2 den : Int)
  if den <<< guess.toNat ≤ num <<< (-guess).toNat then guess else guess - 1

/-- The pattern of the double nearest to `num / den`. -/
def nearest (num den : Nat) : Nat :=
  if num = 0 then 0
  else
    let step := (binaryExponent num den + 1022).toNat
    let fraction := roundToEven (num <<< 1074) (den <<< step)
    min (step * fractionWeight + fraction) infinityPattern

/-- The remainder of `x` divided by `y`, exact and with the sign of `x`. -/
def remainder (x y : Float) : Float :=
  let a := magnitude x
  let b := magnitude y
  if infinityPattern ≤ a || infinityPattern < b || b = 0 then 0.0 / 0.0
  else if b = infinityPattern then x
  else ofPattern (isNegative x) (nearest (grains a % grains b) (1 <<< 1074))

/-- A number without a fractional part. -/
def isWhole (x : Float) : Bool :=
  magnitude x < infinityPattern && Number.same x.floor x

end Lisp.Number
