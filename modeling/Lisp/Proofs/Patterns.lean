import Lisp.Eval.Pattern
import Lisp.Proofs.Congruence

/-!
# The shape of patterns

A row of patterns goes from its first pattern to the rest of the row, unless the first one
is a rest pattern, which takes all values that are left (`Machine.destructureSequence_cons`).
A rest pattern is smaller than its row without being a part of its tail, so inductions on
patterns go by size (`Value.pattern_induction`).

The binder makes tests of smaller tests in a few ways only.  A relation between tests that
is closed under them is **compatible** with the binder (`Machine.Compatible`), and then it
holds between what two machines do with one pattern, be it in one mode or in two
(`Machine.Compatible.destructuring`).
-/

namespace Lisp

/-- A symbol is the marker of a rest, or is not. -/
theorem Symbol.isSplice_eq_false {s : Symbol} :
    s.isSplice = false ↔ s ≠ SpecialForm.splice.symbol :=
  beq_eq_false_iff_ne

/-! ### Rows -/

/-- A row of patterns whose first one is no rest pattern. -/
def Machine.takeFirst (m : Machine) (mode : Mode) (frame : FrameId) (pattern : Value)
    (rest values : List Value) : Eval Bool :=
  match values with
  | v :: others => do
    if ← m.destructure mode frame pattern v then m.destructureSequence mode frame rest others
    else return false
  | [] =>
    match mode with
    | .test => return false
    | .bind => do
      if ← m.destructure mode frame pattern .nil then m.destructureSequence mode frame rest []
      else return false

/-- The pattern for the rest, when a row starts with a rest pattern; it may be
lacking. -/
def Value.restPattern? (pattern : Value) (rest : List Value) : Option (Option Value) :=
  match pattern.spreadOperand? with
  | some inner => some (some inner)
  | none => if pattern.isSpliceMarker then some rest.head? else none

/-- A pattern for the rest is taken out of the middle of its row. -/
theorem Value.sizeOf_restPattern? {pattern inner : Value} {rest : List Value}
    (h : pattern.restPattern? rest = some (some inner)) :
    sizeOf inner < sizeOf (pattern :: rest) := by
  unfold restPattern? at h
  split at h
  · next operand hoperand =>
      obtain rfl : operand = inner := by simpa using h
      unfold spreadOperand? at hoperand
      split at hoperand
      · split at hoperand
        · cases hoperand
          simp only [List.cons.sizeOf_spec, Value.list.sizeOf_spec]
          omega
        · cases hoperand
      · cases hoperand
  · split at h
    · have hhead : rest.head? = some inner := by simpa using h
      have hlt := List.sizeOf_lt_of_mem (List.mem_of_mem_head? hhead)
      simp only [List.cons.sizeOf_spec]
      omega
    · cases h

/-- A name is no rest of a row. -/
theorem Value.restPattern?_sym {s : Symbol} (hs : s ≠ SpecialForm.splice.symbol)
    (rest : List Value) : (Value.sym s).restPattern? rest = none := by
  simp [restPattern?, spreadOperand?, isSpliceMarker, Symbol.isSplice_eq_false.mpr hs]

/-- A list with another head is no rest of a row. -/
theorem Value.restPattern?_list {head : Value} {parts : List Value} {source : Option Span}
    (hhead : head ≠ .sym SpecialForm.splice.symbol) (rest : List Value) :
    (Value.list (head :: parts) source).restPattern? rest = none := by
  unfold restPattern? spreadOperand? isSpliceMarker
  rcases parts with - | ⟨inner, - | ⟨other, others⟩⟩
  · cases head <;> rfl
  · cases head with
    | sym s =>
        have hsplice : s.isSplice = false :=
          Symbol.isSplice_eq_false.mpr fun heq => hhead (congrArg Value.sym heq)
        simp [hsplice]
    | _ => rfl
  · cases head <;> rfl

/-- A row gives its first pattern the first value, unless that is a rest pattern,
which ends the row. -/
theorem Machine.destructureSequence_cons (m : Machine) (mode : Mode) (frame : FrameId)
    (pattern : Value) (rest values : List Value) :
    m.destructureSequence mode frame (pattern :: rest) values =
      match pattern.restPattern? rest with
      | none => m.takeFirst mode frame pattern rest values
      | some none => Eval.fail .restOfNothing
      | some (some inner) => m.destructure mode frame inner (.ofList values) := by
  rw [destructureSequence.eq_def]
  unfold Value.restPattern?
  dsimp only
  split
  · next s inner source =>
      by_cases hs : s.isSplice = true
      · simp only [Value.spreadOperand?, hs, if_true]
      · simp only [Value.spreadOperand?, Value.isSpliceMarker, hs]
        rfl
  · next s =>
      by_cases hs : s.isSplice = true
      · simp only [Value.spreadOperand?, Value.isSpliceMarker, hs, if_true]
        cases rest <;> rfl
      · simp only [Value.spreadOperand?, Value.isSpliceMarker, hs]
        rfl
  · next hspread hsym =>
      have hoperand : pattern.spreadOperand? = none := by
        unfold Value.spreadOperand?
        split
        · exact absurd rfl (hspread _ _ _)
        · rfl
      have hmarker : pattern.isSpliceMarker = false := by
        unfold Value.isSpliceMarker
        split
        · exact absurd rfl (hsym _)
        · rfl
      simp only [hoperand, hmarker]
      rfl

/-! ### Heads -/

/-- A name that is none of the symbols is another form than all of them. -/
theorem Value.sym_ne_of_notMem {s : Symbol} {symbols : List Symbol} (hs : s ∉ symbols) :
    ∀ t ∈ symbols, Value.sym s ≠ .sym t :=
  fun _ ht heq => hs (Value.sym.inj heq ▸ ht)

/-- A name takes any value. -/
theorem Machine.destructure_name (m : Machine) (mode : Mode) (frame : FrameId) {s : Symbol}
    (hs : s ≠ SpecialForm.splice.symbol) (v : Value) :
    m.destructure mode frame (.sym s) v = (do
      Eval.define frame s v
      return true) := by
  rw [destructure, if_neg (by simp [Symbol.isSplice_eq_false.mpr hs])]

/-- A name at the start of a row takes the first value, or nil if there is none. -/
theorem Machine.destructureSequence_bind_name (m : Machine) (frame : FrameId) {s : Symbol}
    (hs : s ≠ SpecialForm.splice.symbol) (patterns values : List Value) :
    m.destructureSequence .bind frame (.sym s :: patterns) values =
      Eval.define frame s (values.headD .nil) >>= fun _ =>
        m.destructureSequence .bind frame patterns values.tail := by
  rw [m.destructureSequence_cons, Value.restPattern?_sym hs]
  cases values with
  | nil =>
      show (do if ← m.destructure .bind frame (.sym s) .nil then
        m.destructureSequence .bind frame patterns [] else return false) = _
      rw [m.destructure_name .bind frame hs, bind_assoc]
      rfl
  | cons v rest =>
      show (do if ← m.destructure .bind frame (.sym s) v then
        m.destructureSequence .bind frame patterns rest else return false) = _
      rw [m.destructure_name .bind frame hs, bind_assoc]
      rfl

/-- The symbols that have a meaning of their own at the head of a pattern: that of a
rest, of a quotation and of members. -/
def Machine.patternHeads : List Symbol :=
  [SpecialForm.splice.symbol, SpecialForm.quote.symbol, .intern "Map"]

/-- A head that evaluates to a type denotes it. -/
theorem Machine.headType_of_value (m : Machine) {frame : FrameId} {head : Value} {tag : TypeTag}
    {w u : World} (h : m.value frame head w = (.ok (.type tag), u)) :
    m.headType frame head w = (.ok tag, u) := by
  unfold headType
  rw [Eval.bind_of_ok h]
  rfl

/-- Any other head is a form for a type. -/
theorem Machine.destructure_headed (m : Machine) (mode : Mode) (frame : FrameId)
    {head v : Value} {parts : List Value} {source : Option Span}
    (hhead : ∀ s ∈ .intern "List" :: patternHeads, head ≠ .sym s) :
    m.destructure mode frame (.list (head :: parts) source) v =
      m.withType mode frame head v
        (m.withElements mode v fun values => m.destructureSequence mode frame parts values) := by
  cases head with
  | sym s =>
      have hother : ∀ t ∈ .intern "List" :: patternHeads, s ≠ t := fun t ht heq =>
        hhead t ht (congrArg Value.sym heq)
      have hsplice : s.isSplice = false :=
        Symbol.isSplice_eq_false.mpr (hother _ (by simp [patternHeads]))
      rw [destructure, if_neg (by simp [hsplice]), if_neg (hother _ (by simp)),
        if_neg (hother _ (by simp [patternHeads])), if_neg (hother _ (by simp [patternHeads]))]
  | _ => rfl

/-! ### Induction -/

/-- Patterns, rows of patterns and rows for members, by size: a pattern for the rest is
smaller than its row without being a tail of it. -/
theorem Value.pattern_induction {P : Value → Prop} {Q R : List Value → Prop}
    (hpattern : ∀ pattern, (∀ row : List Value, sizeOf row < sizeOf pattern → Q row ∧ R row) →
      P pattern)
    (hsequence : ∀ row, (∀ pattern : Value, sizeOf pattern < sizeOf row → P pattern) →
      (∀ rest : List Value, sizeOf rest < sizeOf row → Q rest) → Q row)
    (hmembers : ∀ row, (∀ pattern : Value, sizeOf pattern < sizeOf row → P pattern) →
      (∀ rest : List Value, sizeOf rest < sizeOf row → R rest) → R row) :
    (∀ pattern, P pattern) ∧ (∀ row, Q row) ∧ ∀ row, R row := by
  have hsize : ∀ size, (∀ pattern : Value, sizeOf pattern < size → P pattern) ∧
      ∀ row : List Value, sizeOf row < size → Q row ∧ R row := by
    intro size
    induction size with
    | zero => exact ⟨fun _ hlt => by omega, fun _ hlt => by omega⟩
    | succ size ih =>
        obtain ⟨ihPattern, ihRow⟩ := ih
        refine ⟨fun pattern hlt => ?_, fun row hlt => ⟨?_, ?_⟩⟩
        · exact hpattern pattern fun row hrow => ihRow row (by omega)
        · exact hsequence row (fun pattern hp => ihPattern pattern (by omega))
            fun rest hrest => (ihRow rest (by omega)).1
        · exact hmembers row (fun pattern hp => ihPattern pattern (by omega))
            fun rest hrest => (ihRow rest (by omega)).2
  exact ⟨fun pattern => (hsize _).1 pattern (Nat.lt_succ_self _),
    fun row => ((hsize _).2 row (Nat.lt_succ_self _)).1,
    fun row => ((hsize _).2 row (Nat.lt_succ_self _)).2⟩

/-! ### Compatible relations -/

/-- What a row comes to that has no values left: nothing can be missing for those who
insist. -/
def Mode.lacking : Mode → Eval Bool → Eval Bool
  | .test, _ => return false
  | .bind, next => next

/-- The relation passes from smaller tests of two machines to those that the binder makes of
them. -/
structure Machine.Compatible (R : Eval Bool → Eval Bool → Prop) (m n : Machine)
    (mode mode' : Mode) (frame : FrameId) : Prop where
  /-- A name is bound. -/
  name : ∀ s value, R (do Eval.define frame s value; return true)
    (do Eval.define frame s value; return true)
  /-- The pattern is ill-formed. -/
  fail : ∀ {f : Failure}, f.IsFresh → R (Eval.fail f) (Eval.fail f)
  /-- A row comes to its end. -/
  finished : ∀ values : List Value, R (return mode = .bind || values.isEmpty)
    (return mode' = .bind || values.isEmpty)
  missing : ∀ {x y}, R x y → R (mode.lacking x) (mode'.lacking y)
  both : ∀ {x y k l}, R x y → R k l →
    R (do if ← x then k else return false) (do if ← y then l else return false)
  literal : ∀ {literal value} {wording : String → String → Failure},
    (∀ v l, (wording v l).IsFresh) →
      R (m.takeLiteral mode literal value wording) (n.takeLiteral mode' literal value wording)
  elements : ∀ value {next next' : List Value → Eval Bool},
    (∀ values, R (next values) (next' values)) →
      R (m.withElements mode value next) (n.withElements mode' value next')
  type : ∀ head value {x y}, R x y →
    R (m.withType mode frame head value x) (n.withType mode' frame head value y)
  membered : ∀ {value x y}, R x y →
    R (if hasMembers mode value then x else return false)
      (if hasMembers mode' value then y else return false)
  member : ∀ {keyForm value} {next next' : Value → Eval Bool},
    (∀ entry, R (next entry) (next' entry)) →
      R (do
          let key ← m.value frame keyForm
          next (← m.get value key))
        (do
          let key ← n.value frame keyForm
          next' (← n.get value key))

namespace Machine.Compatible

variable {R : Eval Bool → Eval Bool → Prop} {m n : Machine} {mode mode' : Mode}
variable {frame : FrameId} (h : Compatible R m n mode mode' frame)
include h

/-- A pattern, given the smaller rows of patterns. -/
theorem destructure_of_smaller (pattern value : Value)
    (hsequence : ∀ patterns values, sizeOf patterns < sizeOf pattern →
      R (m.destructureSequence mode frame patterns values)
        (n.destructureSequence mode' frame patterns values))
    (hmembers : ∀ parts value, sizeOf parts < sizeOf pattern →
      R (m.destructureMembers mode frame parts value)
        (n.destructureMembers mode' frame parts value)) :
    R (m.destructure mode frame pattern value) (n.destructure mode' frame pattern value) := by
  rw [destructure.eq_def, destructure.eq_def]
  split
  · split
    · exact h.fail ⟨rfl, rfl⟩
    · exact h.name _ value
  · next head parts source =>
      have hparts : sizeOf parts < sizeOf (Value.list (head :: parts) source) := by
        simp only [Value.list.sizeOf_spec, List.cons.sizeOf_spec]
        omega
      have helements := h.elements value fun values => hsequence parts values hparts
      have htyped := h.type head value helements
      dsimp only
      split
      · split
        · exact h.fail ⟨rfl, rfl⟩
        · split
          · exact helements
          · split
            · split
              · exact h.membered (hmembers parts value hparts)
              · exact h.fail ⟨rfl, rfl⟩
            · split
              · exact h.literal fun _ _ => ⟨rfl, rfl⟩
              · exact htyped
      · exact htyped
  · exact h.literal fun _ _ => ⟨rfl, rfl⟩

/-- A row of patterns, given the smaller patterns. -/
theorem destructureSequence_of_smaller (patterns values : List Value)
    (hpattern : ∀ pattern value, sizeOf pattern < sizeOf patterns →
      R (m.destructure mode frame pattern value) (n.destructure mode' frame pattern value))
    (hrest : ∀ rest values, sizeOf rest < sizeOf patterns →
      R (m.destructureSequence mode frame rest values)
        (n.destructureSequence mode' frame rest values)) :
    R (m.destructureSequence mode frame patterns values)
      (n.destructureSequence mode' frame patterns values) := by
  cases patterns with
  | nil =>
      rw [destructureSequence.eq_def, destructureSequence.eq_def]
      exact h.finished values
  | cons pattern rest =>
      have hone : ∀ v others,
          R (do if ← m.destructure mode frame pattern v
                then m.destructureSequence mode frame rest others else return false)
            (do if ← n.destructure mode' frame pattern v
                then n.destructureSequence mode' frame rest others else return false) := by
        intro v others
        simp only [List.cons.sizeOf_spec] at hpattern hrest
        exact h.both (hpattern pattern v (by omega)) (hrest rest others (by omega))
      have hfirst : R (m.takeFirst mode frame pattern rest values)
          (n.takeFirst mode' frame pattern rest values) := by
        cases values with
        | cons v others => exact hone v others
        | nil =>
            have hmissing := h.missing (hone .nil [])
            cases mode <;> cases mode' <;> exact hmissing
      rw [m.destructureSequence_cons, n.destructureSequence_cons]
      split
      · exact hfirst
      · exact h.fail ⟨rfl, rfl⟩
      · next inner hinner => exact hpattern inner _ (Value.sizeOf_restPattern? hinner)

/-- Patterns for members, given the smaller patterns. -/
theorem destructureMembers_of_smaller (parts : List Value) (value : Value)
    (hpattern : ∀ pattern value, sizeOf pattern < sizeOf parts →
      R (m.destructure mode frame pattern value) (n.destructure mode' frame pattern value))
    (hrest : ∀ rest value, sizeOf rest < sizeOf parts →
      R (m.destructureMembers mode frame rest value)
        (n.destructureMembers mode' frame rest value)) :
    R (m.destructureMembers mode frame parts value)
      (n.destructureMembers mode' frame parts value) := by
  rw [destructureMembers.eq_def, destructureMembers.eq_def]
  split
  · next keyForm pattern rest =>
      simp only [List.cons.sizeOf_spec] at hpattern hrest
      exact h.member fun entry =>
        h.both (hpattern pattern entry (by omega)) (hrest rest value (by omega))
  · simpa using h.finished []

/-- A compatible relation holds between what the machines do with a pattern, with a row of
patterns and with the patterns for members. -/
theorem destructuring :
    (∀ pattern value,
      R (m.destructure mode frame pattern value) (n.destructure mode' frame pattern value)) ∧
    (∀ patterns values, R (m.destructureSequence mode frame patterns values)
      (n.destructureSequence mode' frame patterns values)) ∧
    ∀ parts value, R (m.destructureMembers mode frame parts value)
      (n.destructureMembers mode' frame parts value) := by
  apply Value.pattern_induction
  · exact fun pattern hrows value => h.destructure_of_smaller pattern value
      (fun row values hrow => (hrows row hrow).1 values)
      fun row value hrow => (hrows row hrow).2 value
  · exact fun row hpattern hrest values => h.destructureSequence_of_smaller row values
      (fun pattern value hlt => hpattern pattern hlt value)
      fun rest values hlt => hrest rest hlt values
  · exact fun row hpattern hrest value => h.destructureMembers_of_smaller row value
      (fun pattern value hlt => hpattern pattern hlt value)
      fun rest value hlt => hrest rest hlt value

end Machine.Compatible

end Lisp
