import Lisp.Failure.Wording
import Lisp.Source.Cursor

/-!
# Reading forms

The reader turns a text into forms.  Blanks and comments, which run from `;` to
the end of the line, separate lexemes and mean nothing else.  At a form, the
first character decides:

* an opening bracket starts a list; square brackets read as a list headed by
  `List`, braces as one headed by `Map`;
* a quote mark, backquote, comma or `,,,` wraps the form after it, and so does
  `...` unless a closing bracket or the end of the text follows, in which case
  it is a symbol;
* a double quote starts a text literal;
* anything else is a token: a constant, a keyword, a numeral or a symbol.  With
  dot sugar on, a token with inner dots reads as a member access.

Nesting is limited: `readForm` recurses on the number of levels left.  The
elements of a list are read in turns, of which there are as many as characters
left; every form takes at least one character, so they always suffice.
-/

namespace Lisp

namespace Reader

/-- Forms nested deeper than this are rejected. -/
def maxNesting : Nat := 1000

/-- What reading a form gives: the form and the place after it. -/
abbrev Result (α : Type) := Except Failure (α × Cursor)

/-- The number of characters of the blanks and comments at the start of a
text; `inComment` tells whether the text starts inside a comment. -/
def blankLength (inComment : Bool) : List Char → Nat
  | [] => 0
  | c :: cs =>
    if inComment then blankLength (c != '\n') cs + 1
    else if Text.isBlank c then blankLength false cs + 1
    else if c = ';' then blankLength true cs + 1
    else 0

/-- Moves a cursor over blanks and comments. -/
def skipBlanks (c : Cursor) : Cursor :=
  c.advance (blankLength false c.rest)

/-- The number of characters up to and including the quote that closes a text
literal, after its opening quote. -/
def literalLength? : List Char → Option Nat
  | [] => none
  | '\\' :: _ :: cs => (literalLength? cs).map (· + 2)
  | c :: cs =>
    if c = '"' then some 1
    else if c = '\\' then none
    else (literalLength? cs).map (· + 1)

/-- The characters that end a token. -/
def endsToken (c : Char) : Bool :=
  c = '#' || c = ';' || c = '(' || c = ')' || c = '[' || c = ']' || c = '\x7b' || c = '\x7d' ||
    c = '"' || Text.isBlank c

/-- The characters that a token is made of. -/
def isTokenChar (c : Char) : Bool :=
  !endsToken c

/-- The parts of a text between its dots. -/
def splitDots : List Char → List (List Char)
  | [] => [[]]
  | c :: cs =>
    match splitDots cs with
    | [] => [[c]]
    | part :: rest => if c = '.' then [] :: part :: rest else (c :: part) :: rest

/-- The segments of a dotted token: at least two, none empty, and the whole no
numeral. -/
def dotSegments? (token : List Char) : Option (List (List Char)) :=
  let segments := splitDots token
  if segments.length < 2 || segments.any List.isEmpty || Number.isNumeral token then none
  else some segments

/-- The atom that a token denotes. -/
def atom (token : List Char) (at_ : Span) : Except Failure Value :=
  match String.ofList token with
  | "nil" => .ok .nil
  | "true" => .ok (.bool true)
  | "false" => .ok (.bool false)
  | "infinity" => .ok (.num Number.infinity)
  | "-infinity" => .ok (.num Number.negativeInfinity)
  | "nan" => .ok (.num Number.notANumber)
  | image =>
    match token with
    | ':' :: name => .ok (.keyword (String.ofList name))
    | _ =>
      match Number.Numeral.parse? Text.isDecimal token with
      | none => .ok (.symbol image)
      | some numeral =>
        match numeral.value? with
        | some n => .ok (.num n)
        | none => .error (.invalidNumber image at_)

/-- The atoms of the segments of a dotted token, in order. -/
def atoms (at_ : Span) : List (List Char) → Except Failure (List Value)
  | [] => .ok []
  | segment :: rest =>
    match atom segment at_ with
    | .error f => .error f
    | .ok v => (atoms at_ rest).map (v :: ·)

/-- The form that a token denotes. -/
def classify (dots : Bool) (token : List Char) (at_ : Span) : Except Failure Value :=
  match (if dots then dotSegments? token else none) with
  | some segments =>
    (atoms at_ segments).map fun parts => .list (.sym SpecialForm.member.symbol :: parts) (some at_)
  | none => atom token at_

/-- A text literal at the cursor, which stands at its opening quote. -/
def readText (c : Cursor) : Result Value :=
  match literalLength? c.rest.tail with
  | none => .error (.unterminatedText c.here)
  | some n =>
    let (span, after) := c.take (n + 1)
    match Text.unquote (c.rest.take (n + 1)) with
    | .ok text => .ok (.str text, after)
    | .error flaw => .error (.invalidText flaw span)

/-- A token at the cursor. -/
def readToken (dots : Bool) (c : Cursor) : Result Value :=
  match c.scanRun isTokenChar with
  | some (span, after) =>
    (classify dots (c.rest.takeWhile isTokenChar) span).map fun v => (v, after)
  | none => .error (.unexpectedCharacter (c.peek?.getD ' ') c.here)

/-- The form after a mark that stood at `opened`, wrapped under `form`. -/
def readWrapped (readForm : Cursor → Result Value) (form : SpecialForm) (opened : Cursor)
    (c : Cursor) : Result Value :=
  match readForm c with
  | .error f => .error f
  | .ok (inner, after) =>
    .ok (.list [.sym form.symbol, inner] (some (opened.spanTo after)), after)

/-- The elements of a list up to its closing bracket, after those in `read`,
which are kept last first. -/
def readItems (readForm : Cursor → Result Value) (opened : Span) (close : Char) :
    Nat → List Value → Cursor → Result (List Value)
  | 0, _, c => .error (.neverClosed opened.image opened c.here)
  | turns + 1, read, c =>
    let c := skipBlanks c
    match c.rest with
    | [] => .error (.neverClosed opened.image opened c.here)
    | next :: _ =>
      if next = close then .ok (read.reverse, c.advance 1)
      else
        match readForm c with
        | .error f => .error f
        | .ok (v, after) => readItems readForm opened close turns (v :: read) after

/-- A list whose opening bracket stands at the cursor; `head` comes before its
elements. -/
def readList (readForm : Cursor → Result Value) (close : Char) (head : List Value)
    (c : Cursor) : Result Value :=
  let (opened, inside) := c.take 1
  match readItems readForm opened close (inside.rest.length + 1) head inside with
  | .error f => .error f
  | .ok (items, after) => .ok (.list items (some (c.spanTo after)), after)

/-- A closing bracket. -/
def isCloser (c : Char) : Bool :=
  c = ')' || c = ']' || c = '\x7d'

/-- What follows `...` at the cursor: nothing that it could spread makes it a
symbol. -/
def readSplice (readForm : Cursor → Result Value) (c : Cursor) : Result Value :=
  let after := skipBlanks (c.advance 3)
  match after.rest with
  | [] => .ok (.sym SpecialForm.splice.symbol, after)
  | next :: _ =>
    if isCloser next then .ok (.sym SpecialForm.splice.symbol, after)
    else readWrapped readForm .splice c after

/-- One form at the cursor; `readForm` reads the forms nested in it. -/
def readNested (readForm : Cursor → Result Value) (dots : Bool) (c : Cursor) : Result Value :=
  let c := skipBlanks c
  match c.rest with
  | [] => .error (.unexpectedEnd c.here)
  | '(' :: _ => readList readForm ')' [] c
  | '[' :: _ => readList readForm ']' [.symbol "List"] c
  | '\x7b' :: _ => readList readForm '\x7d' [.symbol "Map"] c
  | '\x27' :: _ => readWrapped readForm .quote c (c.advance 1)
  | '\x60' :: _ => readWrapped readForm .quasiQuote c (c.advance 1)
  | ',' :: ',' :: ',' :: _ => readWrapped readForm .unquoteSplice c (c.advance 3)
  | ',' :: _ => readWrapped readForm .unquote c (c.advance 1)
  | '.' :: '.' :: '.' :: _ => readSplice readForm c
  | '"' :: _ => readText c
  | _ => readToken dots c

/-- One form at the cursor, nested at most `levels` deep. -/
def readForm (dots : Bool) : Nat → Cursor → Result Value
  | 0, c => .error (.nestedTooDeep maxNesting c.here)
  | levels + 1, c => readNested (readForm dots levels) dots c

/-- All forms up to the end of the text, after those in `read`, which are kept
last first. -/
def readForms (dots : Bool) : Nat → List Value → Cursor → Except Failure (List Value)
  | 0, read, _ => .ok read.reverse
  | turns + 1, read, c =>
    let c := skipBlanks c
    if c.atEnd then .ok read.reverse
    else
      match readForm dots maxNesting c with
      | .error f => .error f
      | .ok (v, after) => readForms dots turns (v :: read) after

end Reader

/-- Reads every form of a text; `file` names it in spans, and `dots` turns dot
sugar on. -/
def read (text file : String) (dots : Bool) : Except Failure (List Value) :=
  let start := Cursor.start text file
  Reader.readForms dots (start.rest.length + 1) [] start

end Lisp
