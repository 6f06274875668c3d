import Lisp.Text.CharClass

/-!
# Evaluation options

The limits and switches of an interpreter.  Two of them have defaults that the
environment can set: the nesting limit, by a positive whole number, and the
expansion cache, by a word for yes; any other word means no.
-/

namespace Lisp

/-- The limits and switches of an interpreter. -/
structure Options where
  maxDepth : Nat := 2000
  expansionCache : Bool := true
  dotAccess : Bool := true
  sourceName : Option String := none
  deriving DecidableEq, Repr, Inhabited

namespace Options

/-- The nesting limit unless the environment sets one. -/
def defaultMaxDepth : Nat := 2000

/-- The name of a text that was given none. -/
def defaultSourceName : String := "<anonymous>"

/-- The largest machine word: longer numerals are no counts. -/
def maxCount : Nat := 0xFFFFFFFFFFFFFFFF

/-- The value of a count: an optional plus sign and ASCII digits, within a
machine word. -/
def count? (cs : List Char) : Option Nat :=
  let digits := match cs with
    | '+' :: rest => rest
    | _ => cs
  if digits.isEmpty then none
  else
    match digits.foldlM (fun acc c => (Text.digitValue? c).map (acc * 10 + ·)) 0 with
    | some n => if n ≤ maxCount then some n else none
    | none => none

/-- A count that is not zero. -/
def positiveCount? (cs : List Char) : Option Nat :=
  (count? cs).filter (0 < ·)

/-- The nesting limit that a setting of the environment gives. -/
def maxDepthOf (setting : Option String) : Nat :=
  (setting.bind fun raw => positiveCount? (Text.trimBlanks raw.toList)).getD defaultMaxDepth

/-- Whether a setting of the environment is a word for yes. -/
def isYes (raw : String) : Bool :=
  let word := String.ofList ((Text.trimBlanks raw.toList).map Char.toLower)
  word = "1" || word = "true" || word = "yes" || word = "on"

/-- Whether the environment leaves the expansion cache on. -/
def expansionCacheOf (setting : Option String) : Bool :=
  (setting.map isYes).getD true

/-- The defaults under the given settings of the environment. -/
def ofEnvironment (maxDepth expansionCache : Option String) : Options :=
  { maxDepth := maxDepthOf maxDepth
    expansionCache := expansionCacheOf expansionCache
    dotAccess := true
    sourceName := none }

/-- The name of the evaluated text in spans. -/
def sourceLabel (o : Options) : String :=
  o.sourceName.getD defaultSourceName

end Options

end Lisp
