import Lisp.Number.Binary64
import Lisp.Text.CharClass

/-!
# Decimal text of a number

A **numeral** is a sign, digits with at most one point and an exponent.
`Numeral.parse?` recognises it over any class of digits; `Numeral.value?` gives
it a value if all its digits are ASCII, the double nearest to the exact decimal
value.

Writing goes the other way.  `shortest` looks for the fewest significant digits
that read back as the same number: for one digit, two, and so on it tries the
two neighbours of the number on that decimal grid, takes the nearer one if both
read back, and the larger one if they are equally near.  Should no grid up to
seventeen digits have a hit, the exact decimal expansion remains, which always
reads back.  The text is positional at every size and never has an exponent.
-/

namespace Lisp.Number

/-- A decimal value: `digits * 10 ^ exponent`. -/
structure Decimal where
  digits : Nat
  exponent : Int
  deriving DecidableEq, Repr

namespace Decimal

/-- The power of ten with the given exponent. -/
def tenTo (exponent : Nat) : Nat :=
  Nat.pow 10 exponent

/-- A decimal as a ratio of natural numbers. -/
def ratio (d : Decimal) : Nat × Nat :=
  if 0 ≤ d.exponent then (d.digits * tenTo d.exponent.toNat, 1)
  else (d.digits, tenTo (-d.exponent).toNat)

/-- The number of decimal digits of a number, counted one by one up to sixteen
and in blocks of sixteen above. -/
def digitCount (n : Nat) : Nat :=
  if n < 10 then 1
  else if n < 10000000000000000 then digitCount (n / 10) + 1
  else digitCount (n / 10000000000000000) + 16
termination_by n
decreasing_by
  all_goals omega

/-- The pattern of the double nearest to a decimal.  Beyond the range of the
format the answer is known without computing the ratio: zero below `10 ^ -326`
and infinity from `10 ^ 310` on. -/
def pattern (d : Decimal) : Nat :=
  let size : Int := digitCount d.digits
  if d.digits = 0 || d.exponent + size < -325 then 0
  else if 310 < d.exponent + size then infinityPattern
  else
    let (num, den) := d.ratio
    nearest num den

/-- The same decimal without trailing zero digits. -/
def strip : Nat → Decimal → Decimal
  | 0, d => d
  | turns + 1, d =>
    if d.digits ≠ 0 && d.digits % 10 = 0 then strip turns ⟨d.digits / 10, d.exponent + 1⟩
    else d

/-- Positional text: the digits, with zeros and a point where they belong. -/
def text (d : Decimal) : String :=
  let digits := (Nat.repr d.digits).toList
  if 0 ≤ d.exponent then
    String.ofList (digits ++ List.replicate d.exponent.toNat '0')
  else
    let places := (-d.exponent).toNat
    let padded := List.replicate (places + 1 - digits.length) '0' ++ digits
    let whole := padded.length - places
    String.ofList (padded.take whole ++ '.' :: padded.drop whole)

/-- The exact value of a finite pattern, as a decimal. -/
def exact (pattern : Nat) : Decimal :=
  strip 1100 ⟨grains pattern * Nat.pow 5 1074, -1074⟩

/-- The exact value of a finite pattern as a ratio, with no more factors of two
than it needs. -/
def ratioOf (pattern : Nat) : Nat × Nat :=
  let exponent := pattern / fractionWeight
  if exponent = 0 then (pattern, 1 <<< 1074)
  else
    let significand := fractionWeight + pattern % fractionWeight
    (significand <<< (exponent - 1075), 1 <<< (1075 - exponent))

/-- The number of digits before the point of `num / den`, negative for leading
zeros after the point. -/
def pointPosition (num den : Nat) : Int :=
  let places := Nat.log2 den + 1 - Nat.log2 num
  (digitCount (num * tenTo places / den) : Int) - places

/-- The decimal of the given number of digits that reads back as the pattern
with the value `num / den`, if one of the two neighbours on that grid does. -/
def onGrid (pattern num den : Nat) (point : Int) (size : Nat) : Option Decimal :=
  let exponent := point - (size : Int)
  let num := num * tenTo (-exponent).toNat
  let den := den * tenTo exponent.toNat
  let low : Decimal := ⟨num / den, exponent⟩
  let high : Decimal := ⟨num / den + 1, exponent⟩
  let lowReads := low.pattern == pattern
  let highReads := high.pattern == pattern
  if lowReads && (!highReads || decide (2 * (num % den) < den)) then some low
  else if highReads then some high
  else none

/-- The shortest decimal that reads back as a finite pattern. -/
def shortest (pattern : Nat) : Decimal :=
  let (num, den) := ratioOf pattern
  let point := pointPosition num den
  match (List.range 17).findSome? fun k => onGrid pattern num den point (k + 1) with
  | some d => strip 20 d
  | none => exact pattern

end Decimal

/-- The text of a number.  Both zeros are written alike. -/
def text (x : Float) : String :=
  let pattern := magnitude x
  let sign := if isNegative x then "-" else ""
  if infinityPattern < pattern then "nan"
  else if pattern = infinityPattern then sign ++ "infinity"
  else if pattern = 0 then "0"
  else sign ++ (Decimal.shortest pattern).text

/-- The parts of a numeral, digits as they were written. -/
structure Numeral where
  negative : Bool
  whole : List Char
  fraction : List Char
  exponentNegative : Bool
  exponent : List Char
  deriving DecidableEq, Repr

namespace Numeral

/-- An optional sign and the text after it. -/
def splitSign : List Char → Bool × List Char
  | '-' :: rest => (true, rest)
  | '+' :: rest => (false, rest)
  | cs => (false, cs)

/-- The exponent part of a numeral: nothing, or a mark, a sign and digits up to
the end of the text. -/
def splitExponent (digit : Char → Bool) : List Char → Option (Bool × List Char)
  | [] => some (false, [])
  | mark :: rest =>
    if mark = 'e' || mark = 'E' then
      let (negative, digits) := splitSign rest
      if !digits.isEmpty && digits.all digit then some (negative, digits) else none
    else none

/-- Recognises a numeral over the given class of digits. -/
def parse? (digit : Char → Bool) (cs : List Char) : Option Numeral :=
  let (negative, body) := splitSign cs
  let whole := body.takeWhile digit
  let afterWhole := body.dropWhile digit
  let (fraction, rest) :=
    match afterWhole with
    | '.' :: tail => (tail.takeWhile digit, tail.dropWhile digit)
    | _ => ([], afterWhole)
  if whole.isEmpty && fraction.isEmpty then none
  else
    match splitExponent digit rest with
    | none => none
    | some (exponentNegative, exponent) =>
      some ⟨negative, whole, fraction, exponentNegative, exponent⟩

/-- The number that a list of ASCII digits denotes. -/
def natural? (cs : List Char) : Option Nat :=
  cs.foldlM (fun acc c => (Text.digitValue? c).map (acc * 10 + ·)) 0

/-- The exponent from which on further digits of it no longer count. -/
def exponentLimit : Nat := 65536

/-- The exponent that a list of ASCII digits denotes, each digit counting only
while those before it stay below the limit. -/
def exponentSize? (cs : List Char) : Option Nat :=
  cs.foldlM (fun acc c => (Text.digitValue? c).map fun digit =>
    if acc < exponentLimit then acc * 10 + digit else acc) 0

/-- The decimal value of a numeral without its sign. -/
def decimal? (n : Numeral) : Option Decimal := do
  let digits ← natural? (n.whole ++ n.fraction)
  let size ← exponentSize? n.exponent
  let shift : Int := if n.exponentNegative then -(size : Int) else size
  return ⟨digits, shift - (n.fraction.length : Int)⟩

/-- The double nearest to a numeral whose digits are all ASCII. -/
def value? (n : Numeral) : Option Float :=
  n.decimal?.map fun d => ofPattern n.negative d.pattern

end Numeral

/-- Positive infinity. -/
def infinity : Float := ofPattern false infinityPattern

/-- Negative infinity. -/
def negativeInfinity : Float := ofPattern true infinityPattern

/-- The one value that is not a number. -/
def notANumber : Float := Float.ofBits 0x7FF8000000000000

/-- Whether a token is written as a numeral, in any script's digits. -/
def isNumeral (cs : List Char) : Bool :=
  (Numeral.parse? Text.isDecimal cs).isSome

/-- The number that a free text denotes: blanks around it do not matter, and
beside numerals the names of the infinite values count, in any case of
letters. -/
def ofText? (text : String) : Option Float :=
  let cs := Text.trimBlanks text.toList
  let (negative, body) := Numeral.splitSign cs
  let name := String.ofList (body.map Char.toLower)
  if name = "inf" || name = "infinity" then
    some (if negative then negativeInfinity else infinity)
  else if name = "nan" then some notANumber
  else (Numeral.parse? Char.isDigit cs).bind Numeral.value?

end Lisp.Number
