import Lisp.Text.Bytes

/-!
# Quoted text

A text value is written between double quotes with backslash escapes.
Writing (`quote`) escapes the quote, the backslash and the control characters
below the space, and leaves everything else alone.

Reading (`unquote`) works in two passes.  A literal may run over several
lines, so `spellOut` first replaces each raw newline, carriage return and tab
by its two-character escape; `decode` then takes the items of the literal one
by one up to the closing quote.  An item is a plain character or an escape,
and a code point beyond the basic plane is written as a complete surrogate
pair.  A literal that is no sequence of items has a **flaw**, and a flaw is
placed by the number of bytes of the spelled-out literal that were taken when
it showed.
-/

namespace Lisp.Text

/-- What can be wrong inside a quoted literal. -/
inductive Flaw where
  | badEscape
  | controlCharacter
  | loneSurrogate
  | unfinishedPair
  | endOfText
  deriving DecidableEq, Repr

/-- The wording of a flaw. -/
def Flaw.message : Flaw → String
  | .badEscape => "invalid escape"
  | .controlCharacter => "control character (\\u0000-\\u001F) found while parsing a string"
  | .loneSurrogate => "lone leading surrogate in hex escape"
  | .unfinishedPair => "unexpected end of hex escape"
  | .endOfText => "EOF while parsing a string"

/-- A flaw together with the number of bytes taken before it showed. -/
structure FlawAt where
  flaw : Flaw
  column : Nat
  deriving DecidableEq, Repr

/-- How one character is written between the quotes. -/
def quoteChar (c : Char) : List Char :=
  match c with
  | '"' => ['\\', '"']
  | '\\' => ['\\', '\\']
  | '\x08' => ['\\', 'b']
  | '\t' => ['\\', 't']
  | '\n' => ['\\', 'n']
  | '\x0c' => ['\\', 'f']
  | '\r' => ['\\', 'r']
  | c =>
    if c.toNat < 32 then
      ['\\', 'u', '0', '0', Nat.digitChar (c.toNat / 16), Nat.digitChar (c.toNat % 16)]
    else [c]

/-- The written form of a text value, quotes included. -/
def quote (text : String) : String :=
  String.ofList ('"' :: text.toList.flatMap quoteChar ++ ['"'])

/-- A raw newline, carriage return or tab becomes its two-character escape. -/
def spellOutChar (c : Char) : List Char :=
  match c with
  | '\n' => ['\\', 'n']
  | '\r' => ['\\', 'r']
  | '\t' => ['\\', 't']
  | c => [c]

/-- The one-line form of a literal that may run over several lines. -/
def spellOut (cs : List Char) : List Char :=
  cs.flatMap spellOutChar

/-- The value of a hexadecimal digit, in either case. -/
def hexValue? (c : Char) : Option Nat :=
  if c.isDigit then some (c.toNat - '0'.toNat)
  else if 'a' ≤ c && c ≤ 'f' then some (c.toNat - 'a'.toNat + 10)
  else if 'A' ≤ c && c ≤ 'F' then some (c.toNat - 'A'.toNat + 10)
  else none

/-- The value of the four hexadecimal digits that a text starts with. -/
def hexQuad? : List Char → Option Nat
  | a :: b :: c :: d :: _ => do
    let a ← hexValue? a
    let b ← hexValue? b
    let c ← hexValue? c
    let d ← hexValue? d
    return ((a * 16 + b) * 16 + c) * 16 + d
  | _ => none

/-- The code unit whose four digits `cs` starts with; `taken` bytes lie
before `cs`. -/
def codeUnit (taken : Nat) (cs : List Char) : Except FlawAt Nat :=
  let available := byteLength (cs.take 4)
  if available < 4 then .error ⟨.endOfText, taken + available⟩
  else
    match hexQuad? cs with
    | some unit => .ok unit
    | none => .error ⟨.badEscape, taken + 4⟩

/-- The first unit of a surrogate pair. -/
def isLeading (unit : Nat) : Bool :=
  0xD800 ≤ unit && unit < 0xDC00

/-- The second unit of a surrogate pair. -/
def isTrailing (unit : Nat) : Bool :=
  0xDC00 ≤ unit && unit < 0xE000

/-- The code point that a surrogate pair stands for. -/
def pairValue (leading trailing : Nat) : Nat :=
  0x10000 + (leading - 0xD800) * 0x400 + (trailing - 0xDC00)

/-- The character of the escape whose backslash precedes `cs`, with the number
of characters of `cs` that belong to it; `taken` counts the bytes up to and
including the backslash. -/
def escape (taken : Nat) (cs : List Char) : Except FlawAt (Char × Nat) :=
  match cs with
  | [] => .error ⟨.endOfText, taken⟩
  | '"' :: _ => .ok ('"', 1)
  | '\\' :: _ => .ok ('\\', 1)
  | '/' :: _ => .ok ('/', 1)
  | 'b' :: _ => .ok ('\x08', 1)
  | 'f' :: _ => .ok ('\x0c', 1)
  | 'n' :: _ => .ok ('\n', 1)
  | 'r' :: _ => .ok ('\r', 1)
  | 't' :: _ => .ok ('\t', 1)
  | 'u' :: digits =>
    match codeUnit (taken + 1) digits with
    | .error flaw => .error flaw
    | .ok unit =>
      if isTrailing unit then .error ⟨.loneSurrogate, taken + 5⟩
      else if isLeading unit then
        match digits.drop 4 with
        | '\\' :: 'u' :: more =>
          match codeUnit (taken + 7) more with
          | .error flaw => .error flaw
          | .ok second =>
            if isTrailing second then .ok (Char.ofNat (pairValue unit second), 11)
            else .error ⟨.loneSurrogate, taken + 11⟩
        | '\\' :: _ => .error ⟨.unfinishedPair, taken + 7⟩
        | _ => .error ⟨.unfinishedPair, taken + 6⟩
      else .ok (Char.ofNat unit, 5)
  | _ :: _ => .error ⟨.badEscape, taken + 1⟩

/-- The characters of the items in `cs` up to the closing quote; `taken` bytes
lie before `cs`. -/
def decode (taken : Nat) (cs : List Char) : Except FlawAt (List Char) :=
  match cs with
  | [] => .error ⟨.endOfText, taken⟩
  | c :: rest =>
    if c = '"' then .ok []
    else if c = '\\' then
      match escape (taken + 1) rest with
      | .error flaw => .error flaw
      | .ok (item, size) => (decode (taken + 1 + size) (rest.drop size)).map (item :: ·)
    else if c.toNat < 32 then .error ⟨.controlCharacter, taken + 1⟩
    else (decode (taken + c.utf8Size) rest).map (c :: ·)
termination_by cs.length
decreasing_by
  · simp only [List.length_drop, List.length_cons]; omega
  · simp only [List.length_cons]; omega

/-- The text of a literal, given all of it with both quotes. -/
def unquote (literal : List Char) : Except FlawAt String :=
  (decode 1 (spellOut literal.tail)).map String.ofList

end Lisp.Text
