/-!
# Byte offsets into a text

Positions and lengths are counted in UTF-8 bytes, while the text itself is
handled as a list of characters.  `takeBytes` and `dropBytes` cut such a list
at a byte offset.

* `takeBytes_append_dropBytes`: a cut loses nothing, wherever it is made.
* `takeBytes_byteLength` and `dropBytes_byteLength`: a cut at the end of a first
  part gives back that part and the rest.
-/

namespace Lisp.Text

/-- The bytes that a list of characters takes up in UTF-8. -/
def byteLength : List Char → Nat
  | [] => 0
  | c :: cs => c.utf8Size + byteLength cs

/-- The bytes of two texts in a row are the bytes of both. -/
@[simp] theorem byteLength_append (xs ys : List Char) :
    byteLength (xs ++ ys) = byteLength xs + byteLength ys := by
  induction xs with
  | nil => simp [byteLength]
  | cons c cs ih => simp [byteLength, ih, Nat.add_assoc]

/-- Every character takes at least one byte. -/
theorem length_le_byteLength (cs : List Char) : cs.length ≤ byteLength cs := by
  induction cs with
  | nil => simp [byteLength]
  | cons c cs ih =>
      have hpos := c.utf8Size_pos
      simp only [byteLength, List.length_cons]
      omega

/-- The longest run of leading characters that fits into `n` bytes. -/
def takeBytes : Nat → List Char → List Char
  | _, [] => []
  | n, c :: cs => if c.utf8Size ≤ n then c :: takeBytes (n - c.utf8Size) cs else []

/-- What follows the longest run of leading characters that fits into `n`
bytes. -/
def dropBytes : Nat → List Char → List Char
  | _, [] => []
  | n, c :: cs => if c.utf8Size ≤ n then dropBytes (n - c.utf8Size) cs else c :: cs

/-- Cutting at an offset loses nothing. -/
theorem takeBytes_append_dropBytes (n : Nat) (cs : List Char) :
    takeBytes n cs ++ dropBytes n cs = cs := by
  induction cs generalizing n with
  | nil => rfl
  | cons c cs ih =>
      by_cases h : c.utf8Size ≤ n
      · simp [takeBytes, dropBytes, h, ih]
      · simp [takeBytes, dropBytes, h]

/-- Taking the bytes of a first part takes exactly that part. -/
theorem takeBytes_byteLength (xs ys : List Char) :
    takeBytes (byteLength xs) (xs ++ ys) = xs := by
  induction xs with
  | nil =>
      cases ys with
      | nil => rfl
      | cons c cs =>
          have hpos := c.utf8Size_pos
          have hlarge : ¬ c.utf8Size ≤ 0 := by omega
          simp [byteLength, takeBytes, hlarge]
  | cons c cs ih => simp [byteLength, takeBytes, ih]

/-- Dropping the bytes of a first part leaves exactly the rest. -/
theorem dropBytes_byteLength (xs ys : List Char) :
    dropBytes (byteLength xs) (xs ++ ys) = ys := by
  have hparts := takeBytes_append_dropBytes (byteLength xs) (xs ++ ys)
  rw [takeBytes_byteLength] at hparts
  exact List.append_cancel_left hparts

/-- The lines of a text, without their newlines. -/
def lines : List Char → List (List Char)
  | [] => [[]]
  | c :: cs =>
    match lines cs with
    | [] => [[c]]
    | line :: rest => if c = '\n' then [] :: line :: rest else (c :: line) :: rest

/-- A number right-aligned in the given width. -/
def alignRight (width n : Nat) : String :=
  let digits := (Nat.repr n).toList
  String.ofList (List.replicate (width - digits.length) ' ' ++ digits)

end Lisp.Text
