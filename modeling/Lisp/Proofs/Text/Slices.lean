import Lisp.Proofs.Source.Lines

/-!
# Slices that can be refused

`takeBytes` and `dropBytes` cut a text at any offset, and an offset inside a character or
past the end is moved to where a cut can be made.  A cut that must not be moved is refused
there (`cut?`): it can be made at a **boundary** and nowhere else (`cut?_eq_some`), which is
a valid position of the string (`boundary_iff_isValid`).  A slice takes two cuts
(`slice?_isSome`), and where it is not refused it is the one that `takeBytes` and
`dropBytes` give (`slice?_eq`).
-/

namespace Lisp.Text

/-- The offset is between two characters of the text, or at one of its ends. -/
def Boundary (cs : List Char) (n : Nat) : Prop :=
  ∃ before rest, cs = before ++ rest ∧ n = byteLength before

/-- The parts of a text before and behind an offset, if that is a boundary. -/
def cut? : Nat → List Char → Option (List Char × List Char)
  | 0, cs => some ([], cs)
  | _ + 1, [] => none
  | n + 1, c :: cs =>
    if c.utf8Size ≤ n + 1 then
      (cut? (n + 1 - c.utf8Size) cs).map fun (before, rest) => (c :: before, rest)
    else none

/-- The part of a text between two offsets, if these are boundaries in order. -/
def slice? (start stop : Nat) (cs : List Char) : Option (List Char) := do
  let (front, _) ← cut? stop cs
  let (_, found) ← cut? start front
  return found

/-! ### Cuts -/

/-- Only the empty text takes no bytes. -/
theorem byteLength_eq_zero {cs : List Char} : byteLength cs = 0 ↔ cs = [] := by
  constructor
  · intro h
    exact List.eq_nil_of_length_eq_zero (Nat.le_zero.mp (h ▸ length_le_byteLength cs))
  · rintro rfl
    rfl

/-- A text is cut behind a first part. -/
theorem cut?_byteLength (before rest : List Char) :
    cut? (byteLength before) (before ++ rest) = some (before, rest) := by
  induction before with
  | nil => rw [byteLength, cut?, List.nil_append]
  | cons c before ih =>
      obtain ⟨n, hn⟩ : ∃ n, byteLength (c :: before) = n + 1 :=
        Nat.exists_eq_succ_of_ne_zero (mt byteLength_eq_zero.mp (List.cons_ne_nil c before))
      have hless : n + 1 - c.utf8Size = byteLength before := by
        rw [← hn, byteLength, Nat.add_sub_cancel_left]
      have hfits : c.utf8Size ≤ n + 1 := by
        rw [← hn, byteLength]
        exact Nat.le_add_right _ _
      rw [hn, List.cons_append, cut?, if_pos hfits, hless, ih]
      rfl

/-- A cut loses nothing, and is made at its offset. -/
theorem cut?_eq_some {n : Nat} {cs before rest : List Char} :
    cut? n cs = some (before, rest) ↔ cs = before ++ rest ∧ n = byteLength before := by
  constructor
  · intro h
    fun_induction cut? n cs generalizing before with
    | case1 cs =>
        cases h
        exact ⟨rfl, rfl⟩
    | case2 n => cases h
    | case3 n c cs hfits ih =>
        obtain ⟨⟨front, tail⟩, hcut, heq⟩ := Option.map_eq_some_iff.mp h
        cases heq
        obtain ⟨rfl, hn⟩ := ih hcut
        refine ⟨rfl, ?_⟩
        rw [byteLength, ← hn, Nat.add_sub_cancel' hfits]
    | case4 n c cs hlarge => cases h
  · rintro ⟨rfl, rfl⟩
    exact cut?_byteLength before rest

/-! ### Boundaries -/

namespace Boundary

variable {cs before rest : List Char} {m n : Nat}

/-- A text starts at a boundary. -/
theorem zero (cs : List Char) : Boundary cs 0 :=
  ⟨[], cs, rfl, rfl⟩

/-- No boundary is past the end. -/
theorem le (h : Boundary cs n) : n ≤ byteLength cs := by
  obtain ⟨before, rest, rfl, rfl⟩ := h
  rw [byteLength_append]
  exact Nat.le_add_right _ _

/-- The boundaries in what follows a part of the text. -/
theorem behind (h : Boundary rest n) : Boundary (before ++ rest) (byteLength before + n) := by
  obtain ⟨front, tail, rfl, rfl⟩ := h
  exact ⟨before ++ front, tail, (List.append_assoc ..).symm, (byteLength_append ..).symm⟩

/-- Two boundaries in order have a part of the text between them. -/
theorem between (hm : Boundary cs m) (hn : Boundary cs n) (hle : m ≤ n) :
    ∃ before found rest, cs = before ++ found ++ rest ∧ m = byteLength before ∧
      n = byteLength (before ++ found) := by
  obtain ⟨before, rest, rfl, rfl⟩ := hm
  obtain ⟨front, tail, heq, rfl⟩ := hn
  rcases List.append_eq_append_iff.mp heq with ⟨found, rfl, rfl⟩ | ⟨more, rfl, rfl⟩
  · exact ⟨before, found, tail, (List.append_assoc ..).symm, rfl, rfl⟩
  · -- the second one is not before the first, so nothing is left for it to be before
    have hmore : more = [] := by
      rw [byteLength_append] at hle
      exact byteLength_eq_zero.mp (by omega)
    subst hmore
    exact ⟨front, [], rest, by simp, by simp, by simp⟩

end Boundary

/-- The bytes of a list of characters are those of the string that it makes up. -/
theorem byteLength_eq_utf8ByteSize (cs : List Char) :
    byteLength cs = (String.ofList cs).utf8ByteSize := by
  induction cs with
  | nil => rfl
  | cons c cs ih =>
      have hcons : String.ofList (c :: cs) = String.singleton c ++ String.ofList cs := by
        rw [String.singleton_eq_ofList, ← String.ofList_append]
        rfl
      rw [byteLength, ih, hcons, String.utf8ByteSize_append, String.utf8ByteSize_singleton]

/-- The boundaries of a string are its valid positions. -/
theorem boundary_iff_isValid {text : String} {n : Nat} :
    Boundary text.toList n ↔ String.Pos.Raw.IsValid text ⟨n⟩ := by
  rw [String.Pos.Raw.isValid_iff_exists_append]
  constructor
  · rintro ⟨before, rest, htext, rfl⟩
    refine ⟨String.ofList before, String.ofList rest, ?_, ?_⟩
    · rw [← String.ofList_append, ← htext, String.ofList_toList]
    · rw [byteLength_eq_utf8ByteSize]
      rfl
  · rintro ⟨before, rest, rfl, hn⟩
    refine ⟨before.toList, rest.toList, String.toList_append, ?_⟩
    rw [byteLength_eq_utf8ByteSize, String.ofList_toList]
    exact congrArg String.Pos.Raw.byteIdx hn

/-! ### Slices -/

/-- The slice that leaves out a first and a last part. -/
theorem slice?_append (before found rest : List Char) :
    slice? (byteLength before) (byteLength (before ++ found)) (before ++ found ++ rest) =
      some found := by
  rw [slice?, cut?_byteLength]
  show (cut? (byteLength before) (before ++ found)).bind _ = _
  rw [cut?_byteLength]
  rfl

/-- A slice is taken between boundaries in order only. -/
theorem slice?_isSome {start stop : Nat} {cs : List Char} :
    (slice? start stop cs).isSome = true ↔
      start ≤ stop ∧ Boundary cs start ∧ Boundary cs stop := by
  constructor
  · intro h
    obtain ⟨found, hfound⟩ := Option.isSome_iff_exists.mp h
    obtain ⟨⟨front, tail⟩, hfront, hrest⟩ := Option.bind_eq_some_iff.mp hfound
    obtain ⟨⟨before, rest⟩, hbefore, -⟩ := Option.bind_eq_some_iff.mp hrest
    obtain ⟨rfl, rfl⟩ := cut?_eq_some.mp hfront
    obtain ⟨rfl, rfl⟩ := cut?_eq_some.mp hbefore
    have hle : byteLength before ≤ byteLength (before ++ rest) := by
      rw [byteLength_append]
      exact Nat.le_add_right _ _
    exact ⟨hle, ⟨before, rest ++ tail, List.append_assoc .., rfl⟩, ⟨_, tail, rfl, rfl⟩⟩
  · rintro ⟨hle, hstart, hstop⟩
    obtain ⟨before, found, rest, rfl, rfl, rfl⟩ := hstart.between hstop hle
    rw [slice?_append]
    rfl

/-- A slice that is taken is the one that is taken in any case. -/
theorem slice?_eq {start stop : Nat} {cs found : List Char}
    (h : slice? start stop cs = some found) :
    takeBytes (stop - start) (dropBytes start cs) = found := by
  obtain ⟨hle, hstart, hstop⟩ := slice?_isSome.mp (Option.isSome_iff_exists.mpr ⟨found, h⟩)
  obtain ⟨before, middle, rest, rfl, rfl, rfl⟩ := hstart.between hstop hle
  rw [slice?_append] at h
  cases h
  rw [List.append_assoc, dropBytes_byteLength, byteLength_append, Nat.add_sub_cancel_left,
    takeBytes_byteLength]

/-! ### The start of a line -/

/-- The offset of the last newline of a text. -/
def lastNewline? : List Char → Option Nat
  | [] => none
  | c :: cs =>
    match lastNewline? cs with
    | some n => some (c.utf8Size + n)
    | none => if c = '\n' then some 0 else none

/-- The offset at which the last line of a text starts. -/
def lineStart (cs : List Char) : Nat :=
  (lastNewline? cs).elim 0 (· + 1)

/-- A text without newlines has no last one. -/
theorem lastNewline?_of_not_mem {cs : List Char} (h : '\n' ∉ cs) : lastNewline? cs = none := by
  induction cs with
  | nil => rfl
  | cons c cs ih =>
      obtain ⟨hc, hcs⟩ := not_or.mp (mt List.mem_cons.mpr h)
      rw [lastNewline?, ih hcs]
      exact if_neg (Ne.symm hc)

/-- The last newline is the one with none behind it. -/
theorem lastNewline?_append (earlier : List Char) {front : List Char} (h : '\n' ∉ front) :
    lastNewline? (earlier ++ '\n' :: front) = some (byteLength earlier) := by
  induction earlier with
  | nil =>
      rw [List.nil_append, lastNewline?, lastNewline?_of_not_mem h]
      rfl
  | cons c earlier ih => rw [List.cons_append, lastNewline?, ih, byteLength]

/-- The last line of a text without newlines starts with the text. -/
theorem lineStart_of_not_mem {cs : List Char} (h : '\n' ∉ cs) : lineStart cs = 0 := by
  rw [lineStart, lastNewline?_of_not_mem h]
  rfl

/-- The last line of a text starts behind its last newline. -/
theorem lineStart_append (earlier : List Char) {front : List Char} (h : '\n' ∉ front) :
    lineStart (earlier ++ '\n' :: front) = byteLength (earlier ++ ['\n']) := by
  rw [lineStart, lastNewline?_append earlier h, byteLength_append]
  rfl

/-- A text is cut where its last line starts. -/
theorem exists_lineStart (cs : List Char) :
    ∃ front, cs = front ++ lastLine cs ∧ lineStart cs = byteLength front := by
  rcases lastLine_cases cs with ⟨hnone, hlast⟩ | ⟨earlier, hcs, hlast⟩
  · exact ⟨[], hlast.symm, lineStart_of_not_mem hnone⟩
  · rw [List.append_cons] at hcs
    refine ⟨earlier ++ ['\n'], hcs, ?_⟩
    rw [← lineStart_append earlier hlast, List.append_cons, ← hcs]

/-- The last line is the slice from where it starts. -/
theorem slice?_lineStart (cs : List Char) :
    slice? (lineStart cs) (byteLength cs) cs = some (lastLine cs) := by
  obtain ⟨front, hcs, hstart⟩ := exists_lineStart cs
  have hslice := slice?_append front (lastLine cs) []
  rw [List.append_nil, ← hcs] at hslice
  rwa [hstart]

end Lisp.Text
