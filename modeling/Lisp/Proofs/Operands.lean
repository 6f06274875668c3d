import Lisp.Proofs.Balance
import Lisp.Proofs.Fuel
import Lisp.Proofs.TailCall.Marked

/-!
# Spreading is splicing

The operands of a call are written in two ways for the same thing: a spread is a list
headed by `...`, or a bare `...` with the form to spread behind it.  So a row of forms is
first taken apart into the operands that it stands for (`Operand.row`): forms with one
value and forms whose elements are spread.

The operands take turns from left to right, and the first one without a value ends the
evaluation (`TakesTurns`).  The rest is about rows: what operands in a row come to is put
together from what the parts of the row come to (`operandsInTurn_append`), and a spread of
a quoted list comes to what the quotes of its elements come to, one after the other
(`operand_spread_quoted`).  Therefore the whole call does not change when the one takes
the place of the other (`run_spread_splices`).

A quote is a form of its own and takes up one level of nesting.  Where the limit leaves no
room for it both calls fail alike, unless there is nothing to spread.
-/

namespace Lisp

/-- What the forms behind the head of a call stand for. -/
inductive Operand where
  /-- A form with one value. -/
  | single (form : Value)
  /-- A form whose elements are spread. -/
  | spread (form : Value)
  /-- A bare `...` with nothing behind it. -/
  | unfinished

namespace Operand

/-- The operands that a row of forms stands for. -/
def row : List Value → List Operand
  | [] => []
  | form :: rest =>
    match form.spreadOperand? with
    | some inner => .spread inner :: row rest
    | none =>
      if form.isSpliceMarker then
        match rest with
        | [] => [.unfinished]
        | inner :: rest => .spread inner :: row rest
      else .single form :: row rest

/-- A list headed by `...` is a spread. -/
theorem row_spread {form inner : Value} (h : form.spreadOperand? = some inner)
    (rest : List Value) : row (form :: rest) = .spread inner :: row rest := by
  rw [row.eq_def]
  simp only [h]

/-- A bare `...` and the form behind it are one. -/
theorem row_marker {form : Value} (hspread : form.spreadOperand? = none)
    (hmarker : form.isSpliceMarker = true) (inner : Value) (rest : List Value) :
    row (form :: inner :: rest) = .spread inner :: row rest := by
  rw [row]
  simp only [hspread, hmarker, if_true]

/-- Any other form has one value. -/
theorem row_single {form : Value} (hspread : form.spreadOperand? = none)
    (hmarker : form.isSpliceMarker = false) (rest : List Value) :
    row (form :: rest) = .single form :: row rest := by
  rw [row.eq_def]
  simp only [hspread, hmarker, Bool.false_eq_true, if_false]

/-- A row that does not end in a bare `...` stands for the same in front of other forms. -/
theorem row_append {forms : List Value} (h : ∀ last ∈ forms.getLast?, last.isSpliceMarker = false)
    (others : List Value) : row (forms ++ others) = row forms ++ row others := by
  have htail : ∀ {form : Value} {rest : List Value},
      (∀ last ∈ (form :: rest).getLast?, last.isSpliceMarker = false) →
        ∀ last ∈ rest.getLast?, last.isSpliceMarker = false := by
    intro form rest hlast last hmem
    refine hlast last ?_
    rw [Option.mem_def] at hmem ⊢
    rw [List.getLast?_cons, hmem, Option.getD_some]
  fun_induction row forms with
  | case1 => rfl
  | case2 form rest inner hspread ih =>
      rw [List.cons_append, row_spread hspread, ih (htail h), List.cons_append]
  | case3 form hspread hmarker =>
      have hfalse := h form rfl
      exact absurd hmarker (by simp [hfalse])
  | case4 form hspread hmarker inner rest ih =>
      rw [List.cons_append, List.cons_append, row_marker hspread hmarker, ih (htail (htail h)),
        List.cons_append]
  | case5 form rest hspread hmarker ih =>
      rw [List.cons_append, row_single hspread (by simpa using hmarker), ih (htail h),
        List.cons_append]

end Operand

namespace Machine

variable (m : Machine) (frame : FrameId)

/-- The values of one operand. -/
def operand : Operand → Eval (List Value)
  | .single form => do return [← m.value frame form]
  | .spread form => do m.iterate (← m.value frame form)
  | .unfinished => Eval.fail .spreadOfNothing

/-- The values of operands, one after the other. -/
def operandsInTurn : List Operand → Eval (List Value)
  | [] => return []
  | first :: rest => do
    let items ← m.operand frame first
    let others ← operandsInTurn rest
    return items ++ others

/-- The operands of a row take their turns. -/
theorem operands_eq (forms : List Value) :
    m.operands frame forms = m.operandsInTurn frame (Operand.row forms) := by
  fun_induction Operand.row forms with
  | case1 => rfl
  | case2 form rest inner hspread ih =>
      rw [Machine.operands.eq_def]
      simp only [hspread, ih]
      rw [operandsInTurn, operand, bind_assoc]
  | case3 form hspread hmarker =>
      rw [Machine.operands]
      simp only [hspread, hmarker, if_true]
      rfl
  | case4 form hspread hmarker inner rest ih =>
      rw [Machine.operands]
      simp only [hspread, hmarker, if_true, ih]
      rw [operandsInTurn, operand, bind_assoc]
  | case5 form rest hspread hmarker ih =>
      rw [Machine.operands.eq_def]
      simp only [hspread, hmarker, ih]
      rw [operandsInTurn, operand, bind_assoc]
      rfl

/-- Operands in a row come to what its first part comes to, and then the rest. -/
theorem operandsInTurn_append (first rest : List Operand) :
    m.operandsInTurn frame (first ++ rest) = do
      let items ← m.operandsInTurn frame first
      let others ← m.operandsInTurn frame rest
      return items ++ others := by
  induction first with
  | nil =>
      rw [List.nil_append, operandsInTurn, pure_bind]
      exact (bind_pure _).symm
  | cons operand first ih =>
      rw [List.cons_append, operandsInTurn, operandsInTurn, ih]
      simp only [bind_assoc, pure_bind, List.append_assoc]

/-- What operands in a row come to.  Each starts in the world that the one before it left,
and behind one that has no value none is evaluated. -/
inductive TakesTurns : List Operand → World → Answer (List Value) → World → Prop
  | done (w : World) : TakesTurns [] w (.ok []) w
  | next {first : Operand} {rest : List Operand} {items others : List Value} {w u w' : World}
      (hfirst : m.operand frame first w = (.ok items, u))
      (hrest : TakesTurns rest u (.ok others) w') :
      TakesTurns (first :: rest) w (.ok (items ++ others)) w'
  | later {first : Operand} {rest : List Operand} {items : List Value}
      {answer : Answer (List Value)} {w u w' : World}
      (hfirst : m.operand frame first w = (.ok items, u)) (hrest : TakesTurns rest u answer w')
      (hnone : ∀ others, answer ≠ .ok others) : TakesTurns (first :: rest) w answer w'
  | stops {first : Operand} {rest : List Operand} {answer : Answer (List Value)} {w w' : World}
      (hfirst : m.operand frame first w = (answer, w')) (hnone : ∀ items, answer ≠ .ok items) :
      TakesTurns (first :: rest) w answer w'

/-- The evaluation of operands is that of taking turns. -/
theorem takesTurns_iff {row : List Operand} {answer : Answer (List Value)} {w w' : World} :
    m.TakesTurns frame row w answer w' ↔ m.operandsInTurn frame row w = (answer, w') := by
  constructor
  · intro h
    induction h with
    | done w => rfl
    | next hfirst hrest ih => rw [operandsInTurn, Eval.bind_of_ok hfirst, Eval.bind_of_ok ih]; rfl
    | @later _ _ _ answer _ _ _ hfirst hrest hnone ih =>
        rw [operandsInTurn, Eval.bind_of_ok hfirst, Eval.bind_run, ih]
        cases answer with
        | ok others => exact absurd rfl (hnone others)
        | _ => rfl
    | @stops _ _ answer _ _ hfirst hnone =>
        rw [operandsInTurn, Eval.bind_run, hfirst]
        cases answer with
        | ok items => exact absurd rfl (hnone items)
        | _ => rfl
  · intro h
    induction row generalizing w answer w' with
    | nil =>
        cases h
        exact .done w
    | cons first rest ih =>
        rw [operandsInTurn, Eval.bind_run] at h
        rcases hfirst : m.operand frame first w with ⟨answer₁, u⟩
        rw [hfirst] at h
        cases answer₁ with
        | ok items =>
            dsimp only at h
            rw [Eval.bind_run] at h
            rcases hrest : m.operandsInTurn frame rest u with ⟨answer₂, u'⟩
            rw [hrest] at h
            cases answer₂ with
            | ok others =>
                cases h
                exact .next hfirst (ih hrest)
            | _ =>
                cases h
                exact .later hfirst (ih hrest) nofun
        | _ =>
            cases h
            exact .stops hfirst nofun

end Machine

/-! ### Quotes -/

/-- A row of forms, each with the span that a quote of it was read from. -/
abbrev QuotedRow := List (Option Span × Value)

namespace QuotedRow

/-- The forms of the row. -/
def values (row : QuotedRow) : List Value :=
  row.map Prod.snd

/-- A quote of each form of the row. -/
def quotes (row : QuotedRow) : List Value :=
  row.map fun (source, v) => SpecialForm.quote.write [v] source

end QuotedRow

section Quotes

variable (fuel : Nat) (frame : FrameId)

/-- The value of a quote is its operand, if there is room for one form more. -/
theorem run_value_quote (v : Value) (source : Option Span) (w : World) :
    (run (fuel + 1)).value frame (SpecialForm.quote.write [v] source) w =
      if w.options.maxDepth < w.depth + 1 then (.failed (.tooDeep w.options.maxDepth), w)
      else (.ok v, w) := by
  unfold Machine.value Machine.eval
  rw [run_eval_succ, Machine.evalStep_special]
  unfold Eval.noRecur Eval.onFailure Eval.nested
  by_cases hdeep : w.options.maxDepth < w.depth + 1
  · rw [if_pos hdeep, if_pos hdeep]
    rfl
  · rw [if_neg hdeep, if_neg hdeep]
    rfl

/-- The values of a spread of a quoted list are its elements, if there is room for the
quote. -/
theorem operand_spread_quoted (items : List Value) (inner source : Option Span) (w : World) :
    (run (fuel + 1)).operand frame (.spread (SpecialForm.quote.write [.list items inner] source))
        w =
      if w.options.maxDepth < w.depth + 1 then (.failed (.tooDeep w.options.maxDepth), w)
      else (.ok items, w) := by
  rw [Machine.operand, Eval.bind_run, run_value_quote]
  by_cases hdeep : w.options.maxDepth < w.depth + 1
  · rw [if_pos hdeep, if_pos hdeep]
  · rw [if_neg hdeep, if_neg hdeep]
    rfl

/-- A row of quotes stands for their values, one each. -/
theorem QuotedRow.row_quotes (row : QuotedRow) :
    Operand.row row.quotes = row.quotes.map .single := by
  induction row with
  | nil => rfl
  | cons first row ih =>
      have hsingle : Operand.row (quotes (first :: row)) = _ :=
        Operand.row_single rfl rfl (quotes row)
      rw [hsingle, ih]
      rfl

/-- A row of quotes does not end in a bare `...`. -/
theorem QuotedRow.isSpliceMarker_getLast (row : QuotedRow) :
    ∀ last ∈ row.quotes.getLast?, last.isSpliceMarker = false := by
  intro last hlast
  obtain ⟨quoted, -, rfl⟩ := List.mem_map.mp (List.mem_of_mem_getLast? hlast)
  rfl

/-- The values of quotes in a row are what they quote, if there is room for a quote. -/
theorem operandsInTurn_quotes (row : QuotedRow) (w : World)
    (hroom : ¬ w.options.maxDepth < w.depth + 1) :
    (run (fuel + 1)).operandsInTurn frame (Operand.row row.quotes) w = (.ok row.values, w) := by
  rw [row.row_quotes]
  induction row with
  | nil => rfl
  | cons first row ih =>
      have hfirst : (run (fuel + 1)).operand frame
          (.single (SpecialForm.quote.write [first.2] first.1)) w = (.ok [first.2], w) := by
        have hvalue := run_value_quote fuel frame first.2 first.1 w
        rw [if_neg hroom] at hvalue
        rw [Machine.operand, Eval.bind_of_ok hvalue]
        rfl
      exact (Eval.bind_of_ok hfirst).trans ((Eval.bind_of_ok ih).trans rfl)

/-- Without room, the first of them fails. -/
theorem operandsInTurn_quotes_tooDeep {row : QuotedRow} (hrow : row ≠ []) {w : World}
    (hdeep : w.options.maxDepth < w.depth + 1) :
    (run (fuel + 1)).operandsInTurn frame (Operand.row row.quotes) w =
      (.failed (.tooDeep w.options.maxDepth), w) := by
  cases row with
  | nil => exact absurd rfl hrow
  | cons first row =>
      have hvalue := run_value_quote fuel frame first.2 first.1 w
      rw [if_pos hdeep] at hvalue
      rw [QuotedRow.row_quotes]
      have hfirst : (run (fuel + 1)).operand frame
          (.single (SpecialForm.quote.write [first.2] first.1)) w =
            (.failed (.tooDeep w.options.maxDepth), w) := by
        rw [Machine.operand, Eval.bind_run, hvalue]
      show (run (fuel + 1)).operandsInTurn frame
        (.single (SpecialForm.quote.write [first.2] first.1) ::
          (QuotedRow.quotes row).map .single) w = _
      rw [Machine.operandsInTurn, Eval.bind_run, hfirst]

/-- A spread of a quoted list comes to what the quotes of its elements come to. -/
theorem operand_spread_eq_quotes (row : QuotedRow) (inner source : Option Span) {w : World}
    (hroom : row = [] → w.depth + 1 ≤ w.options.maxDepth) :
    (run (fuel + 1)).operand frame
        (.spread (SpecialForm.quote.write [.list row.values inner] source)) w =
      (run (fuel + 1)).operandsInTurn frame (Operand.row row.quotes) w := by
  rw [operand_spread_quoted]
  by_cases hdeep : w.options.maxDepth < w.depth + 1
  · have hrow : row ≠ [] := fun hnil => absurd (hroom hnil) (Nat.not_le.mpr hdeep)
    rw [if_pos hdeep, operandsInTurn_quotes_tooDeep fuel frame hrow hdeep]
  · rw [if_neg hdeep, operandsInTurn_quotes fuel frame row w hdeep]

end Quotes

/-! ### Splicing -/

/-- Evaluations that go on alike from where the first one ends. -/
theorem Eval.bind_congr_of_ok {α β : Type} {x : Eval α} {k l : α → Eval β} {w : World}
    (h : ∀ a u, x w = (.ok a, u) → k a u = l a u) : (x >>= k) w = (x >>= l) w := by
  rw [Eval.bind_run, Eval.bind_run]
  rcases hx : x w with ⟨answer, u⟩
  cases answer with
  | ok a => exact h a u hx
  | failed f => rfl
  | outOfFuel => rfl

section Splicing

variable {frame : FrameId} {before : List Value}
  (hbefore : ∀ last ∈ before.getLast?, last.isSpliceMarker = false)

include hbefore

/-- The two spellings of a spread are the same operand. -/
theorem operands_marker (m : Machine) (form : Value) (source : Option Span)
    (after : List Value) :
    m.operands frame (before ++ .sym SpecialForm.splice.symbol :: form :: after) =
      m.operands frame (before ++ SpecialForm.splice.write [form] source :: after) := by
  have hmarker : Operand.row (.sym SpecialForm.splice.symbol :: form :: after) =
      .spread form :: Operand.row after := Operand.row_marker rfl rfl form after
  have hspread : Operand.row (SpecialForm.splice.write [form] source :: after) =
      .spread form :: Operand.row after := Operand.row_spread rfl after
  rw [m.operands_eq, m.operands_eq, Operand.row_append hbefore, Operand.row_append hbefore,
    hmarker, hspread]

/-- Operands do not change when quotes take the place of a spread of a quoted list. -/
theorem operands_spliced (fuel : Nat) (row : QuotedRow) (inner quoted source : Option Span)
    (after : List Value) {w : World} (hroom : row = [] → w.depth + 1 ≤ w.options.maxDepth) :
    (run (fuel + 1)).operands frame (before ++ SpecialForm.splice.write
        [SpecialForm.quote.write [.list row.values inner] quoted] source :: after) w =
      (run (fuel + 1)).operands frame (before ++ row.quotes ++ after) w := by
  have hspread : Operand.row (SpecialForm.splice.write
      [SpecialForm.quote.write [.list row.values inner] quoted] source :: after) =
        .spread (SpecialForm.quote.write [.list row.values inner] quoted) :: Operand.row after :=
    Operand.row_spread rfl after
  rw [Machine.operands_eq, Machine.operands_eq, List.append_assoc, Operand.row_append hbefore,
    Operand.row_append hbefore, hspread, Operand.row_append row.isSpliceMarker_getLast,
    Machine.operandsInTurn_append, Machine.operandsInTurn_append]
  refine Eval.bind_congr_of_ok fun items u hitems => ?_
  -- the operands in front leave the depth and the limit as they are
  have hbalanced : w.Balanced u := by
    have hleaves : w.Balanced ((run (fuel + 1)).operands frame before w).2 :=
      (leaving.congruence.machines (fuel + 1)).operands (t := true) frame before w
    rwa [Machine.operands_eq, hitems] at hleaves
  have hsame := operand_spread_eq_quotes fuel frame row inner quoted (w := u)
    (by rwa [hbalanced.depth, hbalanced.options])
  have hrest : (run (fuel + 1)).operandsInTurn frame
      (.spread (SpecialForm.quote.write [.list row.values inner] quoted) :: Operand.row after) u =
        (run (fuel + 1)).operandsInTurn frame
          (Operand.row row.quotes ++ Operand.row after) u := by
    rw [Machine.operandsInTurn_append, Machine.operandsInTurn, Eval.bind_run, Eval.bind_run,
      hsame]
  rw [Eval.bind_run, Eval.bind_run, hrest]

end Splicing

/-- The world in which the head and the operands of a form are evaluated. -/
def World.inside (w : World) : World :=
  { w with depth := w.depth + 1 }

/-- The outcome of a call, and the world after it, are settled by what the operands come to
once the head has its value, unless that is a macro. -/
theorem run_call_congr {fuel : Nat} {frame : FrameId} {callee : Value}
    (hcallee : Value.headForm? [callee] = none) {w : World}
    (hplain : ∀ v u, (run fuel).value frame callee w.inside = (.ok v, u) →
      Machine.expander? v u = (.ok none, u))
    {forms others : List Value}
    (hsame : ∀ k u, w.inside.WithinLimit → w.inside.Balanced u →
      (run (k + 1)).operands frame forms u = (run (k + 1)).operands frame others u)
    (source : Option Span) :
    run fuel (.eval frame (.list (callee :: forms) source)) w =
      run fuel (.eval frame (.list (callee :: others) source)) w := by
  cases fuel with
  | zero => rfl
  | succ n =>
      rw [run_eval_succ, run_eval_succ, Machine.evalStep_call _ _ _ _ hcallee,
        Machine.evalStep_call _ _ _ _ hcallee]
      unfold Eval.nested
      by_cases hdeep : w.options.maxDepth < w.depth + 1
      · rw [if_pos hdeep, if_pos hdeep]
      have hinside : ((run n).value frame callee >>= (run n).callWith frame forms source) w.inside =
          ((run n).value frame callee >>= (run n).callWith frame others source) w.inside := by
        refine Eval.bind_congr_of_ok fun v u hv => ?_
        have hmore := ((run_extends n.le_succ).value (t := true) frame callee).of_ok hv
        have hbalanced : w.inside.Balanced u := by
          have hleaves : w.inside.Balanced ((run n).value frame callee w.inside).2 :=
            (leaving.congruence.machines n).value (t := true) frame callee w.inside
          rwa [hv] at hleaves
        cases n with
        | zero => cases hv
        | succ k =>
            unfold Machine.callWith
            rw [Eval.bind_of_ok (hplain v u hmore), Eval.bind_of_ok (hplain v u hmore)]
            dsimp only
            rw [Eval.bind_run, Eval.bind_run, hsame k u (Nat.not_lt.mp hdeep) hbalanced]
      rw [if_neg hdeep, if_neg hdeep]
      unfold Eval.inForm Eval.onFailure
      unfold World.inside at hinside
      rw [hinside]

/-- Spreading is splicing: a call does not change, in its outcome and in the world that it
leaves, when a spread of a quoted list of values makes way for a quote of each of them, nor
when a spread is spelled the other way, with a bare `...` in front.  The operands of a row
are evaluated from left to right, and none behind the first one without a value. -/
theorem run_spread_splices (fuel : Nat) (frame : FrameId) (callee : Value) (source : Option Span)
    (before after : List Value) (w : World) (hcallee : Value.headForm? [callee] = none)
    (hplain : ∀ v u, (run fuel).value frame callee w.inside = (.ok v, u) →
      Machine.expander? v u = (.ok none, u))
    (hbefore : ∀ last ∈ before.getLast?, last.isSpliceMarker = false) :
    (∀ (row : QuotedRow) (inner quoted place : Option Span),
      (row = [] → w.depth + 1 ≠ w.options.maxDepth) →
        run fuel (.eval frame (.list (callee :: (before ++ SpecialForm.splice.write
          [SpecialForm.quote.write [.list row.values inner] quoted] place :: after)) source)) w =
        run fuel (.eval frame (.list (callee :: (before ++ row.quotes ++ after)) source)) w) ∧
    (∀ (form : Value) (place : Option Span),
      run fuel (.eval frame (.list (callee ::
        (before ++ .sym SpecialForm.splice.symbol :: form :: after)) source)) w =
      run fuel (.eval frame (.list (callee ::
        (before ++ SpecialForm.splice.write [form] place :: after)) source)) w) ∧
    ∀ (forms : List Value) (u : World) (answer : Answer (List Value)) (u' : World),
      (run fuel).operands frame forms u = (answer, u') ↔
        (run fuel).TakesTurns frame (Operand.row forms) u answer u' := by
  refine ⟨?_, ?_, fun forms u answer u' => ?_⟩
  · intro row inner quoted place hroom
    refine run_call_congr hcallee hplain (fun k u hlimit hbalanced => ?_) source
    refine operands_spliced hbefore k row inner quoted place after fun hrow => ?_
    rw [hbalanced.depth, hbalanced.options]
    exact Nat.lt_of_le_of_ne hlimit (hroom hrow)
  · intro form place
    refine run_call_congr hcallee hplain (fun k u _ _ => ?_) source
    rw [operands_marker hbefore]
  · rw [Machine.operands_eq, Machine.takesTurns_iff]

/-- `(conj ... '(()) (... '(true nil)) 'false)` is `(conj ... '(()) 'true 'nil 'false)`. -/
theorem run_spread_splices_conj :
    let conj : Value := .builtin (.sequence .conj)
    let quote (v : Value) : Value := SpecialForm.quote.write [v] none
    let before : List Value :=
      [.sym SpecialForm.splice.symbol, quote (.list [.list [] none] none)]
    let spread : Value :=
      SpecialForm.splice.write [quote (.list [.bool true, .nil] none)] none
    let quotes : List Value := [quote (.bool true), quote .nil]
    let spliced : Value := .list (conj :: (before ++ quotes ++ [quote (.bool false)])) none
    Value.headForm? [conj] = none ∧
    (∀ v u, (run 3).value Heap.global conj (World.inside {}) = (.ok v, u) →
      Machine.expander? v u = (.ok none, u)) ∧
    (∀ last ∈ before.getLast?, last.isSpliceMarker = false) ∧
    (match (run 3 (.eval Heap.global spliced) {}).1 with
      | .ok v => v.same (.ofList [.bool true, .nil, .bool false])
      | _ => false) = true ∧
    run 3 (.eval Heap.global (.list (conj :: (before ++ spread :: [quote (.bool false)])) none))
      {} = run 3 (.eval Heap.global spliced) {} := by
  intro conj quote before spread quotes spliced
  have hplain : ∀ v u, (run 3).value Heap.global conj (World.inside {}) = (.ok v, u) →
      Machine.expander? v u = (.ok none, u) := by
    intro v u hv
    cases hv
    rfl
  have hbefore : ∀ last ∈ before.getLast?, last.isSpliceMarker = false := by
    intro last hlast
    cases hlast
    rfl
  have hsplices := run_spread_splices 3 Heap.global conj none before [quote (.bool false)] {} rfl
    hplain hbefore
  exact ⟨rfl, hplain, hbefore, by decide +kernel,
    hsplices.1 [(none, .bool true), (none, .nil)] none none none nofun⟩

end Lisp
