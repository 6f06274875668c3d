import Lisp.Proofs.Congruence.Forms

/-!
# Asking and insisting

A clause of `match` asks whether a pattern fits; `let`, parameters and `catch` insist
that it does.  Insisting is the more lenient of the two where elements are missing or
left over, and it complains where asking answers no.  In everything else they agree:
unless the answer to asking is no, insisting comes to the same answer and leaves the
same world, with all the names that were bound and all that the heads, the keys and the
equalities and sequences of a program did on the way (`Machine.insists_of_asks`).

Both modes run the same evaluations in the same order up to the first no, so what there
is to prove is a relation between evaluations, `Eval.Foretells`, that holds of one step
after another.  A no of one part is a no of the whole, which is what makes the relation
pass from the parts of a pattern to the pattern (`Machine.compatible_foretells`).
-/

namespace Lisp

/-- Unless the first evaluation comes to no, the second one does the same. -/
def Eval.Foretells (x y : Eval Bool) : Prop :=
  ∀ w, (x w).1 = .ok false ∨ y w = x w

namespace Eval.Foretells

variable {x y k l : Eval Bool} {w w' : World}

theorem refl (x : Eval Bool) : x.Foretells x :=
  fun _ => .inr rfl

/-- A plain no says nothing about the other evaluation. -/
theorem no (y : Eval Bool) : (pure false : Eval Bool).Foretells y :=
  fun _ => .inl rfl

/-- The same evaluation before both. -/
theorem seq {z : Eval α} {k l : α → Eval Bool} (h : ∀ a, (k a).Foretells (l a)) :
    (z >>= k).Foretells (z >>= l) := by
  intro w
  rw [bind_run, bind_run]
  rcases z w with ⟨answer, u⟩
  cases answer with
  | ok a => exact h a u
  | failed f => exact .inr rfl
  | outOfFuel => exact .inr rfl

/-- A no of the first part is a no of the whole. -/
theorem both (hxy : x.Foretells y) (hkl : k.Foretells l) :
    Eval.Foretells (do if ← x then k else return false) (do if ← y then l else return false) := by
  intro w
  rw [bind_run, bind_run]
  rcases hxy w with hno | hsame
  · rcases hx : x w with ⟨answer, u⟩
    rw [hx] at hno
    obtain rfl : answer = .ok false := hno
    exact .inl rfl
  · rw [hsame]
    rcases x w with ⟨answer, u⟩
    cases answer with
    | failed f => exact .inr rfl
    | outOfFuel => exact .inr rfl
    | ok fits =>
        cases fits with
        | true => exact hkl u
        | false => exact .inl rfl

/-- What is accepted. -/
theorem accepted (h : x.Foretells y) (hx : x w = (.ok true, w')) : y w = (.ok true, w') := by
  rcases h w with hno | hsame
  · rw [hx] at hno
    cases hno
  · exact hsame.trans hx

/-- What fails. -/
theorem failed (h : x.Foretells y) {f : Failure} (hx : x w = (.failed f, w')) :
    y w = (.failed f, w') := by
  rcases h w with hno | hsame
  · rw [hx] at hno
    cases hno
  · exact hsame.trans hx

end Eval.Foretells

namespace Machine

variable (m : Machine) (frame : FrameId)

/-! ### The parts of the binder -/

/-- A literal pattern. -/
theorem takeLiteral_foretells (literal value : Value) (wording : String → String → Failure) :
    (m.takeLiteral .test literal value wording).Foretells
      (m.takeLiteral .bind literal value wording) := by
  refine .seq fun same => ?_
  cases same with
  | true => exact .refl _
  | false => exact .no _

/-- A test excuses some failures of an iteration, and passes on all else that comes of
it. -/
theorem elements_test_or_eq (value : Value) (w : World) :
    (m.elements .test value w).1 = .ok none ∨
      m.elements .bind value w = m.elements .test value w := by
  unfold elements
  rcases m.iterate value w with ⟨answer, u⟩
  cases answer with
  | ok items => exact .inr rfl
  | outOfFuel => exact .inr rfl
  | failed f =>
      dsimp only
      split
      · exact .inl rfl
      · exact .inr rfl

/-- The elements of a value; that there are none to be had is a no. -/
theorem withElements_foretells (value : Value) {next next' : List Value → Eval Bool}
    (hnext : ∀ values, (next values).Foretells (next' values)) :
    (m.withElements .test value next).Foretells (m.withElements .bind value next') := by
  intro w
  unfold withElements
  rw [Eval.bind_run, Eval.bind_run]
  rcases m.elements_test_or_eq value w with hnone | hsame
  · rcases helements : m.elements .test value w with ⟨answer, u⟩
    rw [helements] at hnone
    obtain rfl : answer = .ok none := hnone
    exact .inl rfl
  · rw [hsame]
    rcases m.elements .test value w with ⟨answer, u⟩
    cases answer with
    | failed f => exact .inr rfl
    | outOfFuel => exact .inr rfl
    | ok values =>
        cases values with
        | none => exact .inl rfl
        | some values => exact hnext values u

/-- The type that a head denotes. -/
theorem withType_foretells (head value : Value) {next next' : Eval Bool}
    (hnext : next.Foretells next') :
    (m.withType .test frame head value next).Foretells
      (m.withType .bind frame head value next') := by
  refine .seq fun tag => ?_
  split
  · exact hnext
  · exact .no _

/-! ### Patterns -/

/-- To be foretold passes from the parts of a pattern to the pattern.  A test says no where
the other mode goes on: to a row that runs out of values, where those who insist take nil, to
values that are left over, and to patterns for members where there can be none. -/
theorem compatible_foretells : Compatible Eval.Foretells m m .test .bind frame where
  name _ _ := .refl _
  fail _ := .refl _
  finished values := by
    cases values with
    | nil => exact .refl _
    | cons v others => exact .no _
  missing _ := .no _
  both := .both
  literal _ := m.takeLiteral_foretells _ _ _
  elements value _ _ := m.withElements_foretells value
  type head value _ _ := m.withType_foretells frame head value
  membered hxy := by
    split
    · exact hxy
    · exact .no _
  member hnext := .seq fun _ => .seq hnext

/-- Asking foretells insisting. -/
theorem destructuring_foretells :
    (∀ pattern value, (m.destructure .test frame pattern value).Foretells
      (m.destructure .bind frame pattern value)) ∧
    (∀ patterns values, (m.destructureSequence .test frame patterns values).Foretells
      (m.destructureSequence .bind frame patterns values)) ∧
    ∀ parts value, (m.destructureMembers .test frame parts value).Foretells
      (m.destructureMembers .bind frame parts value) :=
  (m.compatible_foretells frame).destructuring

/-! ### Where patterns are bound -/

variable {m frame} {pattern v : Value} {w w' : World}

/-- A pattern that accepts a value is no rest pattern: those complain when they stand
by themselves. -/
theorem restPattern?_of_accepted {mode : Mode}
    (h : m.destructure mode frame pattern v w = (.ok true, w')) (rest : List Value) :
    pattern.restPattern? rest = none := by
  rw [destructure.eq_def] at h
  unfold Value.restPattern? Value.spreadOperand? Value.isSpliceMarker
  cases pattern with
  | sym s =>
      by_cases hs : s.isSplice = true
      · simp only [hs, if_true] at h
        cases h
      · simp [hs]
  | list items source =>
      split
      · next hoperand =>
          split at hoperand
          · next s operand _ heq =>
              split at hoperand
              · next hs =>
                  cases heq
                  simp only [hs, if_true] at h
                  cases h
              · cases hoperand
          · cases hoperand
      · rfl
  | _ => rfl

/-- A parameter takes its argument. -/
theorem destructureSequence_of_accepted
    (h : m.destructure .bind frame pattern v w = (.ok true, w')) (patterns values : List Value) :
    m.destructureSequence .bind frame (pattern :: patterns) (v :: values) w =
      m.destructureSequence .bind frame patterns values w' := by
  rw [m.destructureSequence_cons, restPattern?_of_accepted h]
  exact (Eval.bind_of_ok h).trans rfl

/-- A binding of a `let` takes the value of its form. -/
theorem bindPairs_of_accepted (h : m.destructure .bind frame pattern v w = (.ok true, w'))
    {form : Value} {u : World} (hform : m.value frame form u = (.ok v, w)) (rest : List Value) :
    m.bindPairs frame (pattern :: form :: rest) u = m.bindPairs frame rest w' := by
  rw [bindPairs, Eval.bind_of_ok hform, Eval.bind_of_ok h]

/-- A `catch` clause takes what happened. -/
theorem handle_of_accepted (h : m.destructure .bind frame pattern v w = (.ok true, w'))
    {outer : FrameId} {f : Failure} {u u' : World} (hcaught : Eval.reify f u = (.ok v, u'))
    (hframe : Eval.extend outer "catch" u' = (.ok frame, w)) (forms : List Value) :
    m.handle outer (pattern :: forms) f u = m.body frame forms w' := by
  rw [handle, Eval.bind_of_ok hcaught]
  exact (Eval.bind_of_ok hframe).trans (Eval.bind_of_ok h)

/-- What asking accepts, insisting accepts, with the same bindings and in the same
world, and what fails for the one fails for the other: so it is for patterns and for
whole rows of parameters.  So a value that a clause of `match` accepts is accepted as an
argument, in a `let` and in a `catch`. -/
theorem insists_of_asks (m : Machine) (frame : FrameId) :
    (∀ pattern v w w', m.destructure .test frame pattern v w = (.ok true, w') →
      m.destructure .bind frame pattern v w = (.ok true, w') ∧
      (∀ patterns values,
        m.destructureSequence .bind frame (pattern :: patterns) (v :: values) w =
          m.destructureSequence .bind frame patterns values w') ∧
      (∀ form rest u, m.value frame form u = (.ok v, w) →
        m.bindPairs frame (pattern :: form :: rest) u = m.bindPairs frame rest w') ∧
      ∀ outer forms f u u', Eval.reify f u = (.ok v, u') →
        Eval.extend outer "catch" u' = (.ok frame, w) →
          m.handle outer (pattern :: forms) f u = m.body frame forms w') ∧
    (∀ pattern v w f w', m.destructure .test frame pattern v w = (.failed f, w') →
      m.destructure .bind frame pattern v w = (.failed f, w')) ∧
    (∀ patterns values w w',
      m.destructureSequence .test frame patterns values w = (.ok true, w') →
        m.destructureSequence .bind frame patterns values w = (.ok true, w')) ∧
    ∀ patterns values w f w',
      m.destructureSequence .test frame patterns values w = (.failed f, w') →
        m.destructureSequence .bind frame patterns values w = (.failed f, w') := by
  obtain ⟨hpattern, hsequence, -⟩ := m.destructuring_foretells frame
  refine ⟨fun pattern v w w' hasked => ?_, fun pattern v w f w' => (hpattern pattern v).failed,
    fun patterns values w w' => (hsequence patterns values).accepted,
    fun patterns values w f w' => (hsequence patterns values).failed⟩
  have hbound := (hpattern pattern v).accepted hasked
  exact ⟨hbound, destructureSequence_of_accepted hbound,
    fun form rest u hform => bindPairs_of_accepted hbound hform rest,
    fun outer forms f u u' hcaught hframe => handle_of_accepted hbound hcaught hframe forms⟩

/-- The pattern `(List x (... xs))`, asked of a list of three elements and then bound in
a `let` to the value of that list, quoted. -/
theorem insists_of_asks_row :
    let pattern : Value := .ofList [.sym (.intern "List"), .sym (.intern "x"),
      .ofList [.sym (.intern "..."), .sym (.intern "xs")]]
    let v : Value := .ofList [.keyword "a", .nil, .nil]
    let w' : World := { heap := { frames := ⟨#[{ bindings := [(.intern "x", .keyword "a"),
      (.intern "xs", .ofList [.nil, .nil])] }]⟩ } }
    (run 1).destructure .test Heap.global pattern v {} = (.ok true, w') ∧
      (run 1).destructure .bind Heap.global pattern v {} = (.ok true, w') ∧
      (run 1).destructureSequence .bind Heap.global [pattern] [v] {} = (.ok true, w') ∧
      (run 1).bindPairs Heap.global [pattern, .ofList [.sym (.intern "quote"), v]] {} =
        (.ok (), w') := by
  intro pattern v w'
  have hasked : (run 1).destructure .test Heap.global pattern v {} = (.ok true, w') := rfl
  have hquoted : (run 1).value Heap.global (.ofList [.sym (.intern "quote"), v]) {} =
      (.ok v, {}) := rfl
  obtain ⟨hbound, hparameter, hlet, -⟩ :=
    (insists_of_asks (run 1) Heap.global).1 pattern v {} w' hasked
  exact ⟨hasked, hbound, hparameter [] [], hlet _ [] {} hquoted⟩

/-- The converse fails: what is missing is nil to those who insist. -/
example :
    ((run 1).destructureSequence .test Heap.global [.sym (.intern "x")] [] {}).1 = .ok false ∧
      ((run 1).destructureSequence .bind Heap.global [.sym (.intern "x")] [] {}).1 = .ok true :=
  ⟨rfl, rfl⟩

end Machine

end Lisp
