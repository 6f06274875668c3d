import Lisp.Proofs.Reader.Desk
import Lisp.Proofs.Reader.InStep

/-!
# The reader stays in the text and gets through it

A reading `Gives` what a reader of cursors gives if it works on the scanner only, has the
same answer, ends where that reader ends, and leaves the counter of levels as it was.  The
parts of a reading hand this on to the whole (`Gives.ask`, `Gives.bind_read`), so that each
part of the reader at work is compared with its counterpart, for nested forms that give
what theirs give.  What remains is to count the turns: a form takes one for each level
above it and for each character that is left (`Desk.gives_readForm`).

Altogether the scanner never slips and the reader always comes to its answer
(`scanner_reader_progress`).
-/

namespace Lisp

open Text (Boundary byteLength)

namespace Reading

variable {α β : Type} {text file : String} {d : Desk} {c : Cursor}

/-- One reading after another, from a desk. -/
theorem bind_run (x : Reading α) (k : α → Reading β) (d : Desk) :
    (x >>= k) d = match x d with
      | (.read a, d) => k a d
      | (.refused f, d) => (.refused f, d)
      | (.slipped, d) => (.slipped, d)
      | (.unfinished, d) => (.unfinished, d) :=
  rfl

instance : LawfulMonad Reading := by
  refine LawfulMonad.mk' Reading (fun x => ?_) (fun _ _ => rfl) fun x k l => ?_
  · funext d
    show (x >>= fun a => pure a) d = x d
    rw [bind_run]
    rcases x d with ⟨outcome, d'⟩
    cases outcome <;> rfl
  · funext d
    rw [bind_run, bind_run, bind_run]
    rcases x d with ⟨outcome, d'⟩
    cases outcome <;> rfl

/-- From the desk, the reading works on the scanner, leaves the counter as it was, and
answers as a reader of cursors does, at whose place it ends. -/
def Gives (text file : String) (d : Desk) (r : Reader.Result α) (x : Reading α) : Prop :=
  ∃ s, d.scanner.Works s ∧ x d = (.ofExcept (r.map Prod.fst), ⟨s, d.depth⟩) ∧
    ∀ a after, r = .ok (a, after) → s.At text file after

namespace Gives

variable {r : Reader.Result β}

/-- A value at once. -/
theorem pure {a : α} (hat : d.scanner.At text file c) :
    (Pure.pure a : Reading α).Gives text file d (.ok (a, c)) := by
  refine ⟨d.scanner, .stop _, rfl, ?_⟩
  rintro _ _ ⟨⟩
  exact hat

/-- A failure at once. -/
theorem refuse (f : Failure) : (Reading.refuse f : Reading α).Gives text file d (.error f) :=
  ⟨d.scanner, .stop _, rfl, nofun⟩

/-- Something is asked first. -/
theorem ask {op : Operation α} {reply : α} {s : Scanner} {k : α → Reading β}
    (hallows : d.scanner.Allows op) (hperform : d.scanner.perform op = some (reply, s))
    (hk : (k reply).Gives text file ⟨s, d.depth⟩ r) :
    (Reading.ask op >>= k).Gives text file d r := by
  obtain ⟨s', hworks, hrun, hafter⟩ := hk
  refine ⟨s', .step hallows hperform hworks, ?_, hafter⟩
  rw [bind_run, Reading.ask, hperform]
  exact hrun

/-- A reading goes on behind one that has a value. -/
theorem bind_read {x : Reading α} {k : α → Reading β} {a : α} {middle : Cursor}
    (hx : x.Gives text file d (.ok (a, middle)))
    (hk : ∀ s, s.At text file middle → d.scanner.Onward s →
      (k a).Gives text file ⟨s, d.depth⟩ r) : (x >>= k).Gives text file d r := by
  obtain ⟨s, hworks, hrun, hafter⟩ := hx
  obtain ⟨s', hworks', hrun', hafter'⟩ := hk s (hafter a middle rfl) hworks.onward
  refine ⟨s', hworks.trans hworks', ?_, hafter'⟩
  rw [bind_run, hrun]
  exact hrun'

/-- It ends with one that is refused. -/
theorem bind_refused {x : Reading α} {k : α → Reading β} {f : Failure}
    (hx : x.Gives text file d (.error f)) : (x >>= k).Gives text file d (.error f) := by
  obtain ⟨s, hworks, hrun, -⟩ := hx
  refine ⟨s, hworks, ?_, nofun⟩
  rw [bind_run, hrun]
  rfl

/-- The counter is read. -/
theorem bind_depth {k : Nat → Reading β} (hk : (k d.depth).Gives text file d r) :
    (Reading.depth >>= k).Gives text file d r :=
  hk

/-- The counter is put back, however the reading ends. -/
theorem oneDeeper {x : Reading β} (hx : x.Gives text file ⟨d.scanner, d.depth + 1⟩ r) :
    (Reading.oneDeeper x).Gives text file d r := by
  obtain ⟨s, hworks, hrun, hafter⟩ := hx
  refine ⟨s, hworks, ?_, hafter⟩
  rw [Reading.oneDeeper, hrun]
  rfl

/-! ### Operations -/

section Operations

variable (hat : d.scanner.At text file c)
include hat

theorem ask_atEnd {k : Bool → Reading β} (hk : (k c.atEnd).Gives text file d r) :
    (Reading.ask .atEnd >>= k).Gives text file d r :=
  ask trivial hat.perform_atEnd hk

theorem ask_peek {k : Option Char → Reading β} (hk : (k c.peek?).Gives text file d r) :
    (Reading.ask .peek >>= k).Gives text file d r :=
  ask trivial hat.perform_peek hk

theorem ask_lookahead {literal : List Char} {k : Bool → Reading β}
    (hk : (k (c.lookahead literal)).Gives text file d r) :
    (Reading.ask (.lookahead literal) >>= k).Gives text file d r :=
  ask trivial (hat.perform_lookahead literal) hk

theorem ask_image {span : Span} (hspan : span ∈ d.scanner.produced) {k : List Char → Reading β}
    (hk : (k span.image.toList).Gives text file d r) :
    (Reading.ask (.image span) >>= k).Gives text file d r := by
  have hallows : d.scanner.Allows (.image span) := hspan
  refine ask hallows ?_ hk
  rw [Scanner.perform, (hat.safe.spans span hspan).image?_eq]
  rfl

theorem ask_lineColumn {span : Span} (hspan : span ∈ d.scanner.produced)
    {k : Nat × Nat → Reading β} (hk : (k span.lineColumn).Gives text file d r) :
    (Reading.ask (.lineColumn span) >>= k).Gives text file d r := by
  have hallows : d.scanner.Allows (.lineColumn span) := hspan
  refine ask hallows ?_ hk
  rw [Scanner.perform, (hat.safe.spans span hspan).lineColumn?_eq]
  rfl

theorem ask_here {k : Span → Reading β}
    (hk : ∀ s, s.At text file c → d.scanner.Onward s → c.here ∈ s.produced →
      (k c.here).Gives text file ⟨s, d.depth⟩ r) :
    (Reading.ask .here >>= k).Gives text file d r := by
  have hallows : d.scanner.Allows .here := trivial
  have hperform : d.scanner.perform .here = some (d.scanner.give c.here) := hat.perform_here
  exact ask hallows hperform (hk _ (hat.onward hallows hperform (.refl c) hat.position)
    (Scanner.perform_onward hperform) List.mem_cons_self)

theorem ask_through {first last : Span} (hfirst : first ∈ d.scanner.produced)
    (hlast : last ∈ d.scanner.produced) {k : Span → Reading β}
    (hk : ∀ s, s.At text file c → (k (first.through last)).Gives text file ⟨s, d.depth⟩ r) :
    (Reading.ask (.through first last) >>= k).Gives text file d r := by
  have hperform : d.scanner.perform (.through first last) =
      some (d.scanner.give (first.through last)) := rfl
  have hallows : d.scanner.Allows (.through first last) := ⟨hfirst, hlast⟩
  exact ask hallows hperform (hk _ (hat.onward hallows hperform (.refl c) hat.position))

/-- An operation moves over characters. -/
theorem ask_advance {op : Operation (Option Span)} {n : Nat} (hallows : d.scanner.Allows op)
    (hperform : d.scanner.perform op =
      some ((d.scanner.advance (byteLength (c.rest.take n))).map some id))
    {k : Option Span → Reading β}
    (hk : ∀ s, s.At text file (c.advance n) → d.scanner.Onward s →
      c.spanTo (c.advance n) ∈ s.produced →
        (k (some (c.spanTo (c.advance n)))).Gives text file ⟨s, d.depth⟩ r) :
    (Reading.ask op >>= k).Gives text file d r := by
  rw [hat.advance_eq n] at hperform
  exact ask hallows hperform (hk _ (hat.onward hallows hperform (.advance c n) rfl)
    (Scanner.perform_onward hperform) List.mem_cons_self)

theorem ask_literal {literal : List Char} {k : Option Span → Reading β}
    (hsome : c.lookahead literal = true → ∀ s, s.At text file (c.advance literal.length) →
      d.scanner.Onward s → c.spanTo (c.advance literal.length) ∈ s.produced →
        (k (some (c.spanTo (c.advance literal.length)))).Gives text file ⟨s, d.depth⟩ r)
    (hnone : c.lookahead literal = false → (k none).Gives text file d r) :
    (Reading.ask (.literal literal) >>= k).Gives text file d r := by
  have hallows : d.scanner.Allows (.literal literal) := trivial
  have hperform := hat.perform_literal literal
  cases hahead : c.lookahead literal with
  | true =>
      rw [hahead, if_pos rfl] at hperform
      exact ask_advance hat hallows hperform (hsome hahead)
  | false =>
      rw [hahead, if_neg Bool.false_ne_true] at hperform
      exact ask hallows hperform (hnone hahead)

theorem ask_leading {length : List Char → Nat} {k : Option Span → Reading β}
    (hsome : c.rest.take (length c.rest) ≠ [] → ∀ s,
      s.At text file (c.advance (length c.rest)) → d.scanner.Onward s →
        c.spanTo (c.advance (length c.rest)) ∈ s.produced →
          (k (some (c.spanTo (c.advance (length c.rest))))).Gives text file ⟨s, d.depth⟩ r)
    (hnone : c.rest.take (length c.rest) = [] → (k none).Gives text file d r) :
    (Reading.ask (.pattern (.leading length)) >>= k).Gives text file d r := by
  have hallows : d.scanner.Allows (.pattern (.leading length)) := trivial
  have hperform := hat.perform_leading length
  by_cases hempty : c.rest.take (length c.rest) = []
  · rw [hempty, List.isEmpty_nil, if_pos rfl] at hperform
    exact ask hallows hperform (hnone hempty)
  · rw [if_neg (by rwa [List.isEmpty_iff])] at hperform
    exact ask_advance hat hallows hperform (hsome hempty)

end Operations

end Gives

end Reading

/-! ### Parts of the reader -/

/-- Nothing is moved over. -/
theorem Cursor.advance_of_take {c : Cursor} {n : Nat} (h : c.rest.take n = []) :
    c.advance n = c := by
  have hdrop : c.rest.drop n = c.rest := by
    have hparts := List.take_append_drop n c.rest
    rwa [h, List.nil_append] at hparts
  rw [Cursor.advance, h, hdrop]
  rfl

/-- A fixed text is compared character by character. -/
theorem Cursor.lookahead_cons {c : Cursor} {next : Char} {tail : List Char}
    (h : c.rest = next :: tail) (first : Char) (more : List Char) :
    c.lookahead (first :: more) = (decide (next = first) && more.isPrefixOf tail) := by
  have hfirst : (first == next) = decide (next = first) := by
    rw [Bool.eq_iff_iff, beq_iff_eq, decide_eq_true_iff, eq_comm]
  rw [Cursor.lookahead, h, List.isPrefixOf, hfirst]

/-- One that is a single character is compared with the next one. -/
theorem Cursor.lookahead_singleton {c : Cursor} {next : Char} {tail : List Char}
    (h : c.rest = next :: tail) (only : Char) : c.lookahead [only] = decide (next = only) := by
  rw [Cursor.lookahead_cons h]
  exact Bool.and_true _

/-- A span that is extended to a place ends there. -/
theorem Cursor.through_spanTo (c middle after : Cursor) {t : Span} (h : t.stop = after.position) :
    (c.spanTo middle).through t = c.spanTo after := by
  have hlength : max t.stop c.position - c.position = after.position - c.position := by omega
  rw [Span.through]
  unfold Cursor.spanTo
  rw [hlength]

/-- The span that the cursor moves over has the characters moved over as its image. -/
theorem Cursor.Stands.image_advance {c : Cursor} {text file : String} (h : c.Stands text file)
    (n : Nat) : (c.spanTo (c.advance n)).image.toList = c.rest.take n := by
  have hpasses : c.Passes (c.rest.take n) (c.advance n) :=
    ⟨rfl, rfl, rfl, (List.take_append_drop n c.rest).symm⟩
  obtain ⟨-, -, -, -, himage⟩ := h.spanTo hpasses
  rw [himage, String.toList_ofList]

/-- What a mark of so many characters announces. -/
def Mark.opening (size : Nat) : Mark → Reader.Opening
  | .bracket close head => .list close head
  | .prefixed form => .wrapped form size
  | .dots => .splice

namespace Desk

open Reading (Gives)
open Reader (Result isCloser opening readWrapped)

variable {text file : String} {d : Desk} {c : Cursor}

/-- Blanks. -/
theorem gives_skipBlanks (hat : d.scanner.At text file c) :
    skipBlanks.Gives text file d (.ok ((), Reader.skipBlanks c)) := by
  refine .ask_leading hat (fun _ s hs _ _ => .pure hs) fun hnone => ?_
  have hstays : Reader.skipBlanks c = c := Cursor.advance_of_take hnone
  rw [hstays]
  exact .pure hat

/-- Blanks are skipped before the end of the text is looked for. -/
theorem gives_atEnd {β : Type} {k : Bool → Reading β} {r : Result β}
    (hat : d.scanner.At text file c)
    (hk : ∀ s, s.At text file (Reader.skipBlanks c) → d.scanner.Onward s →
      (k (Reader.skipBlanks c).atEnd).Gives text file ⟨s, d.depth⟩ r) :
    (skipBlanks >>= fun _ => Reading.ask .atEnd >>= k).Gives text file d r :=
  .bind_read (gives_skipBlanks hat) fun s hs honward => .ask_atEnd hs (hk s hs honward)

/-- Several texts that may come next. -/
theorem gives_anyAhead (hat : d.scanner.At text file c) (texts : List (List Char)) :
    (anyAhead texts).Gives text file d (.ok (texts.any c.lookahead, c)) := by
  induction texts with
  | nil => exact .pure hat
  | cons first others ih =>
      refine .ask_lookahead hat ?_
      rw [List.any_cons]
      cases c.lookahead first with
      | true => exact .pure hat
      | false => exact ih

/-- The first of the fixed texts that the cursor stands at. -/
def markAt (entries : List (List Char × Mark)) (c : Cursor) : Option (List Char × Mark) :=
  entries.find? fun entry => c.lookahead entry.1

/-- What is done about the first of the fixed texts is done at the cursor behind it. -/
theorem gives_findMark {entries : List (List Char × Mark)}
    {k : Option (Span × Mark) → Reading Value} {r : Result Value} (hat : d.scanner.At text file c)
    (hsome : ∀ literal mark, markAt entries c = some (literal, mark) → ∀ s,
      s.At text file (c.advance literal.length) →
        c.spanTo (c.advance literal.length) ∈ s.produced →
          (k (some (c.spanTo (c.advance literal.length), mark))).Gives text file ⟨s, d.depth⟩ r)
    (hnone : markAt entries c = none → (k none).Gives text file d r) :
    (findMark entries >>= k).Gives text file d r := by
  unfold markAt at hsome hnone
  induction entries with
  | nil => exact hnone rfl
  | cons entry others ih =>
      obtain ⟨literal, mark⟩ := entry
      rw [findMark, bind_assoc]
      refine .ask_literal hat (fun hahead s hs _ hspan => ?_) fun hahead => ?_
      · exact hsome literal mark (List.find?_cons_of_pos hahead) s hs hspan
      · rw [List.find?_cons_of_neg (by rw [hahead]; exact Bool.false_ne_true)] at hsome hnone
        exact ih hsome hnone

section Nested

variable {x : Reading Value} {nested : Cursor → Result Value}

/-- A form behind a prefix, wherever it stands. -/
theorem gives_readPrefixed (form : SpecialForm) {opened middle : Cursor}
    (hspan : opened.spanTo middle ∈ d.scanner.produced)
    (hx : x.Gives text file d (nested c)) :
    (readPrefixed x form (opened.spanTo middle)).Gives text file d
      (readWrapped nested form opened c) := by
  unfold readPrefixed readWrapped
  cases hinner : nested c with
  | error f =>
      rw [hinner] at hx
      exact .bind_refused hx
  | ok result =>
      obtain ⟨inner, after⟩ := result
      rw [hinner] at hx
      refine .bind_read hx fun s hs honward => ?_
      refine .ask_here hs fun s' hs' honward' hhere => ?_
      refine .ask_through hs' (honward'.produced (honward.produced hspan)) hhere fun s'' hs'' => ?_
      rw [opened.through_spanTo middle after rfl]
      exact .pure hs''

/-- The readings of nested forms give what a reader of cursors gives, at a depth and with at
most so many characters left. -/
def Follows (text file : String) (depth room : Nat) (nested : Cursor → Result Value)
    (x : Reading Value) : Prop :=
  ∀ s c, s.At text file c → c.rest.length ≤ room → x.Gives text file ⟨s, depth⟩ (nested c)

variable {room : Nat} (hx : Follows text file d.depth room nested x)
include hx

/-- Three dots, with a form behind them or without. -/
theorem gives_readDots {opened middle : Cursor} (hat : d.scanner.At text file (opened.advance 3))
    (hroom : (opened.advance 3).rest.length ≤ room)
    (hspan : opened.spanTo middle ∈ d.scanner.produced) :
    (readDots x (opened.spanTo middle)).Gives text file d (Reader.readSplice nested opened) := by
  refine gives_atEnd hat fun s hs honward => ?_
  have hskip := Reader.length_rest_skipBlanks_le (opened.advance 3)
  unfold Reader.readSplice
  generalize Reader.skipBlanks (opened.advance 3) = c at hs hskip
  dsimp only
  cases hrest : c.rest with
  | nil =>
      rw [Cursor.atEnd, hrest]
      exact .pure hs
  | cons next tail =>
      have hahead : [[')'], [']'], ['\x7d']].any c.lookahead = isCloser next := by
        simp [Cursor.lookahead_singleton hrest, isCloser, Bool.or_assoc]
      rw [Cursor.atEnd, hrest]
      refine .bind_read (gives_anyAhead hs _) fun s' hs' honward' => ?_
      dsimp only
      rw [hahead]
      cases hcloser : isCloser next with
      | true => exact .pure hs'
      | false =>
          have hproduced := honward'.produced (honward.produced hspan)
          exact gives_readPrefixed .splice hproduced (hx s' c hs' (Nat.le_trans hskip hroom))

/-- The elements of a list, with enough turns on both sides. -/
theorem gives_readSequence
    (hshrinks : ∀ {c v after}, nested c = .ok (v, after) → after.rest.length < c.rest.length)
    {opened middle : Cursor} {close : Char} {turns turns' : Nat} {read : List Value}
    (hat : d.scanner.At text file c) (hspan : opened.spanTo middle ∈ d.scanner.produced)
    (hroom : c.rest.length ≤ room) (hturns : c.rest.length < turns)
    (hturns' : c.rest.length < turns') :
    (readSequence x (opened.spanTo middle) close turns read).Gives text file d
      (match Reader.readItems nested (opened.spanTo middle) close turns' read c with
        | .error f => .error f
        | .ok (items, after) => .ok (.list items (some (opened.spanTo after)), after)) := by
  induction turns generalizing d c turns' read with
  | zero => exact absurd hturns (Nat.not_lt_zero _)
  | succ turns ih =>
      obtain ⟨turns', rfl⟩ : ∃ n, turns' = n + 1 := ⟨turns' - 1, by omega⟩
      refine gives_atEnd hat fun s hs honward => ?_
      have hskip := Reader.length_rest_skipBlanks_le c
      have hspan' := honward.produced hspan
      unfold Reader.readItems
      generalize Reader.skipBlanks c = c' at hs hskip
      dsimp only
      cases hrest : c'.rest with
      | nil =>
          rw [Cursor.atEnd, hrest]
          refine .ask_image hs hspan' (.ask_lineColumn hs hspan' (.ask_here hs fun _ _ _ _ => ?_))
          rw [String.ofList_toList]
          exact .refuse _
      | cons next tail =>
          have hahead := Cursor.lookahead_singleton hrest close
          rw [Cursor.atEnd, hrest]
          dsimp only
          refine .ask_literal hs (fun hclose s' hs' honward' hstop => ?_) fun hclose => ?_
          · rw [hahead] at hclose
            rw [if_pos (of_decide_eq_true hclose)]
            refine .ask_through hs' (honward'.produced hspan') hstop fun s'' hs'' => ?_
            have hend : (c'.spanTo (c'.advance 1)).stop = (c'.advance 1).position :=
              (Cursor.Before.advance c' 1).stop_spanTo
            rw [List.length_singleton, opened.through_spanTo middle (c'.advance 1) hend]
            exact .pure hs''
          · rw [hahead] at hclose
            rw [if_neg (of_decide_eq_false hclose)]
            have hfirst := hx s c' hs (Nat.le_trans hskip hroom)
            cases hform : nested c' with
            | error f =>
                rw [hform] at hfirst
                exact .bind_refused hfirst
            | ok result =>
                obtain ⟨v, after⟩ := result
                have hlt := hshrinks hform
                rw [hform] at hfirst
                -- the form took a character, so the turns that are left suffice
                refine .bind_read hfirst fun s' hs' honward' => ?_
                exact @ih ⟨s', d.depth⟩ after hx _ _ hs' (honward'.produced hspan') (by omega)
                  (by omega) (by omega)

end Nested

/-! ### Forms -/

/-- The first characters of a form announce what the first mark among them does. -/
theorem opening_eq (hink : c.rest ≠ []) :
    opening c.rest =
      match markAt marks c with
      | some (literal, mark) => mark.opening literal.length
      | none => if c.lookahead ['"'] then .text else .token := by
  obtain ⟨next, tail, hrest⟩ := List.exists_cons_of_ne_nil hink
  unfold markAt marks
  rw [hrest, opening]
  simp only [List.find?_cons, Cursor.lookahead_singleton hrest, Cursor.lookahead_cons hrest]
  -- what follows the first character matters for a comma and a dot only
  generalize [',', ','].isPrefixOf tail = commas
  generalize ['.', '.'].isPrefixOf tail = dots
  by_cases hmark : next ∈ ['(', '[', '\x7b', '\x27', '\x60', ',', '.', '"']
  · simp only [List.mem_cons, List.not_mem_nil, or_false] at hmark
    rcases hmark with rfl | rfl | rfl | rfl | rfl | rfl | rfl | rfl
    all_goals cases commas <;> cases dots <;> rfl
  · simp only [List.mem_cons, List.not_mem_nil, or_false, not_or] at hmark
    simp [hmark]

/-- A bracket is one character, and the dots are three. -/
theorem length_of_markAt {literal : List Char} {mark : Mark}
    (h : markAt marks c = some (literal, mark)) :
    match mark with
    | .bracket _ _ => literal.length = 1
    | .prefixed _ => True
    | .dots => literal.length = 3 := by
  have hmem := List.mem_of_find?_eq_some h
  simp only [marks, List.mem_cons, Prod.mk.injEq, List.not_mem_nil, or_false] at hmem
  rcases hmem with ⟨rfl, rfl⟩ | ⟨rfl, rfl⟩ | ⟨rfl, rfl⟩ | ⟨rfl, rfl⟩ | ⟨rfl, rfl⟩ | ⟨rfl, rfl⟩ |
    ⟨rfl, rfl⟩ | ⟨rfl, rfl⟩
  all_goals trivial

/-- A text literal. -/
theorem gives_readText (hat : d.scanner.At text file c) (hquote : c.lookahead ['"'] = true)
    (dots : Bool) : (readAtom dots).Gives text file d (Reader.readText c) := by
  obtain ⟨inside, hrest⟩ : ∃ inside, c.rest = '"' :: inside := by
    obtain ⟨inside, hinside⟩ := List.isPrefixOf_iff_prefix.mp hquote
    exact ⟨inside, hinside.symm⟩
  have hlength : Pattern.literalLength c.rest =
      (Reader.literalLength? c.rest.tail).elim 0 (· + 1) := by
    rw [hrest]
    rfl
  refine .ask_lookahead hat ?_
  rw [hquote]
  refine .ask_here hat fun s hs _ _ => .ask_leading hs ?_ ?_
  · intro hsome s' hs' _ hspan
    cases hliteral : Reader.literalLength? c.rest.tail with
    | none =>
        rw [hlength, hliteral] at hsome
        exact absurd rfl hsome
    | some n =>
        have hsize : Pattern.literalLength c.rest = n + 1 := by
          rw [hlength, hliteral]
          rfl
        refine .ask_image hs' hspan ?_
        rw [hsize] at hs' ⊢
        rw [hat.stands.image_advance, Reader.readText_eq hliteral]
        cases Text.unquote (c.rest.take (n + 1)) with
        | ok text => exact .pure hs'
        | error flaw => exact .refuse _
  · intro hnone
    cases hliteral : Reader.literalLength? c.rest.tail with
    | none =>
        rw [Reader.readText_of_open hliteral]
        exact .refuse _
    | some n =>
        rw [hlength, hliteral, hrest] at hnone
        cases hnone

/-- A token. -/
theorem gives_readToken (hat : d.scanner.At text file c) (hquote : c.lookahead ['"'] = false)
    (dots : Bool) : (readAtom dots).Gives text file d (Reader.readToken dots c) := by
  have htoken : c.rest.take (c.rest.takeWhile Reader.isTokenChar).length =
      c.rest.takeWhile Reader.isTokenChar :=
    (List.prefix_iff_eq_take.mp (List.takeWhile_prefix _)).symm
  refine .ask_lookahead hat ?_
  rw [hquote]
  refine .ask_leading hat ?_ ?_
  · intro hsome s hs _ hspan
    refine .ask_image hs hspan ?_
    rw [hat.stands.image_advance]
    rw [htoken] at hsome ⊢
    obtain ⟨n, hn⟩ : ∃ n, (c.rest.takeWhile Reader.isTokenChar).length = n + 1 :=
      Nat.exists_eq_succ_of_ne_zero (mt List.eq_nil_of_length_eq_zero hsome)
    rw [Reader.readToken_eq dots hn]
    rw [hn] at hs ⊢
    cases Reader.classify dots (c.rest.takeWhile Reader.isTokenChar)
        (c.spanTo (c.advance (n + 1))) with
    | ok v => exact .pure hs
    | error f => exact .refuse f
  · intro hnone
    rw [htoken] at hnone
    rw [Reader.readToken_of_none dots (by rw [hnone, List.length_nil])]
    exact .ask_here hat fun s hs _ _ => .ask_peek hs (.refuse _)

/-- One form, for nested forms that give what those of a reader of cursors give. -/
theorem gives_readNested {x : Reading Value} {nested : Cursor → Result Value} {room turns : Nat}
    (hx : Follows text file d.depth room nested x)
    (hshrinks : ∀ {c v after}, nested c = .ok (v, after) → after.rest.length < c.rest.length)
    (hat : d.scanner.At text file c) (hroom : c.rest.length ≤ room)
    (hturns : c.rest.length ≤ turns) (dots : Bool) :
    (readNested x dots turns).Gives text file d (Reader.readNested nested dots c) := by
  refine gives_atEnd hat fun s hs _ => ?_
  have hskip := Reader.length_rest_skipBlanks_le c
  rw [Reader.readNested_eq]
  generalize Reader.skipBlanks c = c' at hs hskip
  by_cases hink : c'.rest = []
  · rw [Cursor.atEnd, hink]
    exact .ask_here hs fun _ _ _ _ => .refuse _
  have hmore : c'.atEnd = false := List.isEmpty_eq_false_iff.mpr hink
  rw [hmore, opening_eq hink]
  refine gives_findMark hs (fun literal mark hmark s' hs' hspan => ?_) fun hmark => ?_
  · rw [hmark]
    have hsize := length_of_markAt hmark
    have hinside : (c'.advance literal.length).rest.length ≤ c'.rest.length := by
      show (c'.rest.drop _).length ≤ _
      rw [List.length_drop]
      exact Nat.sub_le _ _
    cases mark with
    | bracket close head =>
        dsimp only at hsize
        have hless : (c'.advance 1).rest.length < c'.rest.length := by
          have hpositive := List.length_pos_iff.mpr hink
          show (c'.rest.drop 1).length < _
          rw [List.length_drop]
          omega
        rw [hsize] at hs' hspan ⊢
        exact gives_readSequence (d := ⟨s', d.depth⟩) hx hshrinks hs' hspan (by omega) (by omega)
          (Nat.lt_succ_self _)
    | prefixed form => exact gives_readPrefixed form hspan (hx s' _ hs' (by omega))
    | dots =>
        dsimp only at hsize
        rw [hsize] at hs' hspan hinside ⊢
        exact gives_readDots (d := ⟨s', d.depth⟩) hx hs' (by omega) hspan
  · rw [hmark]
    cases hquote : c'.lookahead ['"'] with
    | true => exact gives_readText hs hquote dots
    | false => exact gives_readToken hs hquote dots

/-- A form takes a turn for each level above it that is left and for each character that is
left. -/
theorem gives_readForm (dots : Bool) {turns : Nat} (hat : d.scanner.At text file c)
    (hturns : Reader.maxNesting - d.depth + c.rest.length < turns) :
    (readForm dots turns).Gives text file d
      (Reader.readForm dots (Reader.maxNesting - d.depth) c) := by
  induction turns generalizing d c with
  | zero => exact absurd hturns (Nat.not_lt_zero _)
  | succ turns ih =>
      refine .bind_depth ?_
      by_cases hdeep : Reader.maxNesting ≤ d.depth
      · rw [if_pos hdeep, Nat.sub_eq_zero_of_le hdeep]
        exact .ask_here hat fun _ _ _ _ => .refuse _
      · have hlevels : Reader.maxNesting - d.depth = Reader.maxNesting - (d.depth + 1) + 1 := by
          omega
        -- one turn less is enough for the nested forms, which have one level less
        have hnested : Follows text file (d.depth + 1) c.rest.length
            (Reader.readForm dots (Reader.maxNesting - (d.depth + 1))) (readForm dots turns) :=
          fun s c' hs hroom => @ih ⟨s, d.depth + 1⟩ c' hs (by dsimp only; omega)
        rw [if_neg hdeep, hlevels]
        exact .oneDeeper (gives_readNested (d := ⟨d.scanner, d.depth + 1⟩) hnested
          (Reader.readForm_continues dots _ _).shrinks hat (Nat.le_refl _) (by omega) dots)

/-- The forms up to the end of the text, with enough turns on both sides. -/
theorem gives_readForms (dots : Bool) {turns turns' : Nat} (read : List Value)
    (hturns : Reader.maxNesting + c.rest.length + 1 < turns) (hturns' : c.rest.length < turns') :
    ∃ stop, ∀ s, s.At text file c → (readForms dots turns read).Gives text file ⟨s, 0⟩
      ((Reader.readForms dots turns' read c).map (·, stop)) := by
  induction turns generalizing c turns' read with
  | zero => exact absurd hturns (Nat.not_lt_zero _)
  | succ turns ih =>
      obtain ⟨turns', rfl⟩ : ∃ n, turns' = n + 1 := ⟨turns' - 1, by omega⟩
      have hskip := Reader.length_rest_skipBlanks_le c
      by_cases hink : (Reader.skipBlanks c).rest = []
      · refine ⟨Reader.skipBlanks c, fun s hat => ?_⟩
        refine gives_atEnd hat fun s' hs' _ => ?_
        rw [Reader.readForms, Cursor.atEnd, hink]
        exact .pure hs'
      have hmore : (Reader.skipBlanks c).atEnd = false := List.isEmpty_eq_false_iff.mpr hink
      rw [Reader.readForms_of_ink hink]
      have hfirst : ∀ s, s.At text file (Reader.skipBlanks c) →
          (readForm dots turns).Gives text file ⟨s, 0⟩
            (Reader.readForm dots Reader.maxNesting (Reader.skipBlanks c)) :=
        fun s hat => gives_readForm (d := ⟨s, 0⟩) dots hat (by dsimp only; omega)
      cases hform : Reader.readForm dots Reader.maxNesting (Reader.skipBlanks c) with
      | error f =>
          refine ⟨c, fun s hat => ?_⟩
          refine gives_atEnd hat fun s' hs' _ => ?_
          rw [hmore]
          exact .bind_refused (hform ▸ hfirst s' hs')
      | ok result =>
          obtain ⟨v, after⟩ := result
          have hlt := (Reader.readForm_continues dots _ _).shrinks hform
          obtain ⟨stop, hothers⟩ := @ih after turns' (v :: read) (by omega) (by omega)
          refine ⟨stop, fun s hat => ?_⟩
          refine gives_atEnd hat fun s' hs' _ => ?_
          rw [hmore]
          exact .bind_read (hform ▸ hfirst s' hs') fun s'' hs'' _ => hothers s'' hs''

end Desk

/-! ### The whole text -/

/-- A text is read as no more forms than it has characters. -/
theorem Reader.length_of_readForms {dots : Bool} {c : Cursor} {turns : Nat} {forms : List Value}
    (h : readForms dots turns [] c = .ok forms) : forms.length ≤ c.rest.length := by
  obtain ⟨others, stop, hrow, rfl⟩ := row_of_readForms h
  exact Nat.le_of_add_right_le (hrow.length_le (readForm_continues dots maxNesting))

/-- A cursor with fewer characters left is further on. -/
theorem Cursor.Before.position_lt {c after : Cursor} (h : c.Before after)
    (hless : after.rest.length < c.rest.length) : c.position < after.position := by
  obtain ⟨passed, hpassed⟩ := h
  have hnonempty : byteLength passed ≠ 0 := by
    intro hzero
    rw [hpassed.rest, Text.byteLength_eq_zero.mp hzero, List.nil_append] at hless
    exact Nat.lt_irrefl _ hless
  rw [hpassed.position]
  omega

/-- There are no more characters left than bytes. -/
theorem Scanner.At.length_rest_le {text file : String} {s : Scanner} {c : Cursor}
    (h : s.At text file c) : c.rest.length ≤ text.utf8ByteSize - s.position := by
  obtain ⟨before, htext, hposition⟩ := h.stands.place
  have hbytes := Text.byteLength_eq_utf8ByteSize text.toList
  have hlength := Text.length_le_byteLength c.rest
  rw [String.ofList_toList, htext, Text.byteLength_append] at hbytes
  rw [h.position, hposition, ← hbytes, Nat.add_sub_cancel_left]
  exact hlength

/-- **No slice is out of range, and the reader gets on.**

* Whatever operations a scanner has been asked for, in whatever order, it stands at a
  boundary of its text, and so do the ends of all spans that it has produced.  It refuses
  no further operation, and none moves it back.
* There, a form is read by operations of the scanner, in as many turns as levels and bytes
  are left.  The counter of levels ends as it began, whether or not the form is refused;
  and if it is not, the scanner has moved on by at least one byte.
* So the whole text is read, as at most as many forms as it has bytes. -/
theorem scanner_reader_progress (text file : String) :
    (∀ s, (Scanner.start text file).Works s →
      s.Safe text file ∧ s.position ≤ text.utf8ByteSize ∧
        ∀ (α : Type) (op : Operation α), s.Allows op →
          ∃ reply s', s.perform op = some (reply, s') ∧ s.Onward s') ∧
    (∀ s, (Scanner.start text file).Works s → ∀ (dots : Bool) (depth turns : Nat),
      Reader.maxNesting - depth + (text.utf8ByteSize - s.position) < turns →
        ∃ c s', s.At text file c ∧ s.Works s' ∧
          Desk.readForm dots turns ⟨s, depth⟩ =
            (.ofExcept ((Reader.readForm dots (Reader.maxNesting - depth) c).map Prod.fst),
              ⟨s', depth⟩) ∧
          ∀ v after, Reader.readForm dots (Reader.maxNesting - depth) c = .ok (v, after) →
            s'.At text file after ∧ s.position < s'.position) ∧
    ∀ (dots : Bool) (turns : Nat), Reader.maxNesting + text.utf8ByteSize + 1 < turns →
      ∃ s', (Scanner.start text file).Works s' ∧
        Desk.readForms dots turns [] ⟨.start text file, 0⟩ =
          (.ofExcept (read text file dots), ⟨s', 0⟩) ∧
        ∀ forms, read text file dots = .ok forms → forms.length ≤ text.utf8ByteSize := by
  have hsafe : ∀ s, (Scanner.start text file).Works s → s.Safe text file :=
    fun s hworks => hworks.safe (Scanner.safe_start text file)
  refine ⟨fun s hworks => ⟨hsafe s hworks, ?_, fun α op hallows => ?_⟩, ?_, ?_⟩
  · have hle := (hsafe s hworks).place.le
    rwa [Text.byteLength_eq_utf8ByteSize, String.ofList_toList] at hle
  · obtain ⟨reply, s', hperform, -⟩ := Scanner.perform_safe (hsafe s hworks) hallows
    exact ⟨reply, s', hperform, Scanner.perform_onward hperform⟩
  · intro s hworks dots depth turns hturns
    obtain ⟨c, hat⟩ := (hsafe s hworks).exists_at
    have hleft := hat.length_rest_le
    have hturns' : Reader.maxNesting - depth + c.rest.length < turns := by omega
    obtain ⟨s', hworks', hrun, hafter⟩ :=
      Desk.gives_readForm (d := ⟨s, depth⟩) dots hat hturns'
    refine ⟨c, s', hat, hworks', hrun, fun v after hread => ⟨hafter v after hread, ?_⟩⟩
    have hbefore := (Reader.readForm_locates dots _ hread).onward
    rw [hat.position, (hafter v after hread).position]
    exact hbefore.position_lt ((Reader.readForm_continues dots _ _).shrinks hread)
  · intro dots turns hturns
    have hat := Scanner.at_start text file
    have hleft : (Cursor.start text file).rest.length ≤ text.utf8ByteSize := hat.length_rest_le
    have hturns' : Reader.maxNesting + (Cursor.start text file).rest.length + 1 < turns := by
      omega
    obtain ⟨stop, hreads⟩ := Desk.gives_readForms dots [] hturns' (Nat.lt_succ_self _)
    obtain ⟨s', hworks, hrun, -⟩ := hreads _ hat
    refine ⟨s', hworks, ?_, fun forms hread => ?_⟩
    · rw [hrun]
      unfold read
      dsimp only
      cases Reader.readForms dots _ [] (Cursor.start text file) <;> rfl
    · exact Nat.le_trans (Reader.length_of_readForms hread) hleft

end Lisp
