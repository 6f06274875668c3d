import Lisp.Proofs.Scope.Builtins

/-!
# Patterns, templates and special forms on a machine that keeps the tables

Two forms matter here: `def-type` makes a record type, whose number is the first
that nothing mentions yet, and `def-impl` registers an implementation for types
that its operands gave, which therefore exist (`Heap.Conforms.newRecordType`,
`Heap.Conforms.implement`).  All others hand on what they are given.
-/

namespace Lisp

open Eval (Keeps)

namespace Machine.KeepsTables

/-- A value that does not fit. -/
theorem misfit {n : Nat} (mode : Mode) {complaint : Eval Failure} (hcomplaint : Keeps n complaint) :
    Keeps n (Machine.misfit mode complaint) := by
  cases mode with
  | test => exact .pure (Nat.zero_le _)
  | bind => exact hcomplaint.bind fun f => .fail (Nat.le_max_right _ _)

variable {m : Machine} (h : m.KeepsTables)
include h

/-! ### Patterns -/

theorem takeLiteral (mode : Mode) (literal value : Value) {wording : String → String → Failure}
    (hwording : ∀ v l, reach (wording v l) = 0) :
    Keeps (reach (literal, value)) (m.takeLiteral mode literal value wording) := by
  refine .seq (h.equal literal value) fun same => ?_
  split
  · exact .pure (Nat.zero_le _)
  · refine misfit mode ?_
    refine .seq (.shown _) fun shownValue => .seq (.shown _) fun shownLiteral => .pure ?_
    exact Nat.le_trans (Nat.le_of_eq (hwording _ _)) (Nat.zero_le _)

theorem elements (mode : Mode) (value : Value) : Keeps (reach value) (m.elements mode value) := by
  rw [Machine.elements_eq_rescue]
  refine .rescue (.map (h.iterate value) fun items => Nat.le_max_right _ _) fun f _ => ?_
  exact .pure (Nat.zero_le _)

theorem withElements (mode : Mode) (value : Value) {n : Nat} {next : List Value → Eval Bool}
    (hvalue : reach value ≤ n) (hnext : ∀ values, Keeps (max n (reach values)) (next values)) :
    Keeps n (m.withElements mode value next) := by
  refine .bind ((h.elements mode value).mono hvalue) fun values => ?_
  cases values with
  | none => exact .pure (Nat.zero_le _)
  | some values => exact hnext values

theorem headType (frame : FrameId) (head : Value) :
    Keeps (reach head) (m.headType frame head) := by
  refine .bind (h.value frame head) fun v => ?_
  split
  · exact .pure (by simp only [reach_type]; omega)
  · exact .seq (.shown _) fun _ => .showing fun _ => rfl

theorem withType (mode : Mode) (frame : FrameId) (head value : Value) {n : Nat} {next : Eval Bool}
    (hhead : reach head ≤ n) (hnext : Keeps n next) :
    Keeps n (m.withType mode frame head value next) := by
  refine .bind ((h.headType frame head).mono hhead) fun tag => ?_
  split
  · exact hnext.mono (Nat.le_max_left _ _)
  · exact misfit mode (.seq (.typeName _) fun _ => .seq (.shown _) fun _ => .pure (Nat.zero_le _))

/-- A pattern, given the smaller rows of patterns. -/
theorem destructure_of_smaller (mode : Mode) (frame : FrameId) (pattern value : Value)
    (hsequence : ∀ patterns values, sizeOf patterns < sizeOf pattern →
      Keeps (reach (patterns, values)) (m.destructureSequence mode frame patterns values))
    (hmembers : ∀ parts value, sizeOf parts < sizeOf pattern →
      Keeps (reach (parts, value)) (m.destructureMembers mode frame parts value)) :
    Keeps (reach (pattern, value)) (m.destructure mode frame pattern value) := by
  rw [Machine.destructure.eq_def]
  split
  · split
    · exact .complain rfl
    · exact .seq (.define frame _ (Nat.le_max_right _ _)) fun _ => .pure (Nat.zero_le _)
  · next head parts source =>
      have hparts : sizeOf parts < sizeOf (Value.list (head :: parts) source) := by
        simp only [Value.list.sizeOf_spec, List.cons.sizeOf_spec]
        omega
      simp only [reach_prod, reach_list, reach_cons] at hsequence hmembers ⊢
      have helements : Keeps (max (max (reach head) (reach parts)) (reach value))
          (m.withElements mode value fun values => m.destructureSequence mode frame parts values) :=
        h.withElements mode value (by omega)
          fun values => (hsequence parts values hparts).mono (by omega)
      have htyped := h.withType mode frame head value (by omega) helements
      split
      · split
        · exact .complain rfl
        · split
          · exact helements
          · split
            · split
              · split
                · exact (hmembers parts value hparts).mono (by omega)
                · exact .pure (Nat.zero_le _)
              · exact .complain rfl
            · split
              · have hliteral := reach_headD_le parts .nil
                refine (h.takeLiteral mode _ value fun _ _ => rfl).mono ?_
                simp only [reach_prod, reach_value_nil] at hliteral ⊢
                omega
              · exact htyped
      · exact htyped
  · exact h.takeLiteral mode _ value fun _ _ => rfl

omit h in
theorem reach_spreadOperand?_le (form : Value) : reach form.spreadOperand? ≤ reach form := by
  unfold Value.spreadOperand?
  split
  · split
    · simp
    · exact Nat.zero_le _
  · exact Nat.zero_le _

omit h in
/-- A pattern for the rest has what its row has. -/
theorem reach_restPattern?_le {pattern inner : Value} {rest : List Value}
    (hrest : pattern.restPattern? rest = some (some inner)) :
    reach inner ≤ max (reach pattern) (reach rest) := by
  unfold Value.restPattern? at hrest
  split at hrest
  · next operand hoperand =>
      have hle := reach_spreadOperand?_le pattern
      rw [hoperand] at hle
      cases hrest
      exact Nat.le_trans hle (Nat.le_max_left _ _)
  · split at hrest
    · have hhead : rest.head? = some inner := by simpa using hrest
      exact Nat.le_trans (reach_le_of_mem (List.mem_of_mem_head? hhead)) (Nat.le_max_right _ _)
    · cases hrest

omit h in
/-- A row of patterns, given the smaller patterns. -/
theorem destructureSequence_of_smaller (mode : Mode) (frame : FrameId)
    (patterns values : List Value)
    (hpattern : ∀ pattern value, sizeOf pattern < sizeOf patterns →
      Keeps (reach (pattern, value)) (m.destructure mode frame pattern value))
    (hrest : ∀ rest values, sizeOf rest < sizeOf patterns →
      Keeps (reach (rest, values)) (m.destructureSequence mode frame rest values)) :
    Keeps (reach (patterns, values)) (m.destructureSequence mode frame patterns values) := by
  cases patterns with
  | nil =>
      rw [Machine.destructureSequence.eq_def]
      exact .pure (Nat.zero_le _)
  | cons pattern rest =>
      have hone : ∀ v others, Keeps (max (max (reach pattern) (reach rest))
            (max (reach v) (reach others)))
          (do if ← m.destructure mode frame pattern v
              then m.destructureSequence mode frame rest others else return false) := by
        intro v others
        simp only [List.cons.sizeOf_spec, reach_prod] at hpattern hrest
        refine .seq ((hpattern pattern v (by omega)).mono (by omega)) fun fits => ?_
        split
        · exact (hrest rest others (by omega)).mono (by omega)
        · exact .pure (Nat.zero_le _)
      have hfirst : Keeps (max (max (reach pattern) (reach rest)) (reach values))
          (m.takeFirst mode frame pattern rest values) := by
        cases values with
        | cons v others => exact hone v others
        | nil =>
            cases mode with
            | test => exact .pure (Nat.zero_le _)
            | bind => exact hone .nil []
      rw [m.destructureSequence_cons, reach_prod, reach_cons]
      split
      · exact hfirst
      · exact .complain rfl
      · next inner hinner =>
          refine (hpattern inner _ (Value.sizeOf_restPattern? hinner)).mono ?_
          have hle := reach_restPattern?_le hinner
          rw [reach_prod, reach_ofList]
          omega

/-- Patterns for members, given the smaller patterns. -/
theorem destructureMembers_of_smaller (mode : Mode) (frame : FrameId) (parts : List Value)
    (value : Value)
    (hpattern : ∀ pattern value, sizeOf pattern < sizeOf parts →
      Keeps (reach (pattern, value)) (m.destructure mode frame pattern value))
    (hrest : ∀ rest value, sizeOf rest < sizeOf parts →
      Keeps (reach (rest, value)) (m.destructureMembers mode frame rest value)) :
    Keeps (reach (parts, value)) (m.destructureMembers mode frame parts value) := by
  rw [Machine.destructureMembers.eq_def]
  split
  · next keyForm pattern rest =>
      simp only [List.cons.sizeOf_spec, reach_prod, reach_cons] at hpattern hrest ⊢
      refine .bind ((h.value frame keyForm).mono (by omega)) fun key => ?_
      refine .bind ((h.get value key).mono (by rw [reach_prod]; omega)) fun entry => ?_
      refine .seq ((hpattern pattern entry (by omega)).mono (by omega)) fun fits => ?_
      split
      · exact (hrest rest value (by omega)).mono (by omega)
      · exact .pure (Nat.zero_le _)
  · exact .pure (Nat.zero_le _)

theorem destructuring (mode : Mode) (frame : FrameId) :
    (∀ pattern value,
      Keeps (reach (pattern, value)) (m.destructure mode frame pattern value)) ∧
    (∀ patterns values,
      Keeps (reach (patterns, values)) (m.destructureSequence mode frame patterns values)) ∧
    ∀ parts value,
      Keeps (reach (parts, value)) (m.destructureMembers mode frame parts value) := by
  apply Value.pattern_induction
  · exact fun pattern hrows value => h.destructure_of_smaller mode frame pattern value
      (fun row values hrow => (hrows row hrow).1 values)
      fun row value hrow => (hrows row hrow).2 value
  · exact fun row hpattern hrest values => destructureSequence_of_smaller mode frame row values
      (fun pattern value hlt => hpattern pattern hlt value)
      fun rest values hlt => hrest rest hlt values
  · exact fun row hpattern hrest value => h.destructureMembers_of_smaller mode frame row value
      (fun pattern value hlt => hpattern pattern hlt value)
      fun rest value hlt => hrest rest hlt value

theorem destructure (mode : Mode) (frame : FrameId) (pattern value : Value) :
    Keeps (reach (pattern, value)) (m.destructure mode frame pattern value) :=
  (h.destructuring mode frame).1 pattern value

theorem destructureSequence (mode : Mode) (frame : FrameId) (patterns values : List Value) :
    Keeps (reach (patterns, values)) (m.destructureSequence mode frame patterns values) :=
  (h.destructuring mode frame).2.1 patterns values

/-! ### Bodies, operands, expansions and templates -/

theorem body (frame : FrameId) (forms : List Value) : Keeps (reach forms) (m.body frame forms) := by
  fun_induction m.body frame forms with
  | case1 => exact .pure (Nat.zero_le _)
  | case2 last => exact (h.eval frame last).mono (Nat.le_max_left _ _)
  | case3 form rest hrest ih =>
      rw [reach_cons]
      refine .bind ((h.value frame form).mono (Nat.le_max_left _ _)) fun _ => ih.mono ?_
      omega

theorem operands (frame : FrameId) (forms : List Value) :
    Keeps (reach forms) (m.operands frame forms) := by
  -- A spread contributes the elements of its value, before the operands after it.
  have hspread : ∀ {n : Nat} {inner : Value} {others : Eval (List Value)}, reach inner ≤ n →
      Keeps n others → Keeps n (do
        let items ← m.iterate (← m.value frame inner)
        let rest ← others
        return items ++ rest) := by
    intro n inner others hinner hothers
    refine .bind ((h.value frame inner).mono hinner) fun v => ?_
    refine .bind ((h.iterate v).mono (Nat.le_max_right _ _)) fun items => ?_
    refine .map (hothers.mono (by omega)) fun rest => ?_
    rw [reach_append]
    omega
  fun_induction m.operands frame forms with
  | case1 => exact .pure (Nat.zero_le _)
  | case2 form rest inner hoperand ih =>
      have hinner := reach_spreadOperand?_le form
      rw [hoperand] at hinner
      rw [reach_cons]
      exact hspread (Nat.le_trans hinner (Nat.le_max_left _ _)) (ih.mono (Nat.le_max_right _ _))
  | case3 form hoperand hmarker => exact .complain rfl
  | case4 form hoperand hmarker inner rest ih =>
      simp only [reach_cons]
      exact hspread (by omega) (ih.mono (by omega))
  | case5 form rest hoperand hmarker ih =>
      rw [reach_cons]
      refine .bind ((h.value frame form).mono (Nat.le_max_left _ _)) fun v => ?_
      refine .map (ih.mono (by omega)) fun others => ?_
      rw [reach_cons]
      omega

omit h in
theorem reach_remembered?_le (id : ClosureId) (operands : List Value) (known : List Expansion) :
    reach (Machine.remembered? id operands known) ≤ reach known := by
  unfold Machine.remembered?
  cases hfound : known.find? _ with
  | none => exact Nat.zero_le _
  | some e =>
      have he : reach e ≤ reach known := reach_le_of_mem (List.mem_of_find?_eq_some hfound)
      exact Nat.le_trans (Nat.le_max_right _ _) he

omit h in
theorem reach_remember_le (id : ClosureId) (operands : List Value) (result : Value)
    (known : List Expansion) :
    reach (Machine.remember id operands result known) ≤
      max (reach known) (max (reach operands) (reach result)) := by
  induction known with
  | nil =>
      show max (max (reach operands) (reach result)) 0 ≤ _
      omega
  | cons e rest ih =>
      rw [Machine.remember]
      split
      · show max (max (reach e.operands) (reach result)) (reach rest) ≤
          max (max (max (reach e.operands) (reach e.result)) (reach rest)) _
        omega
      · rw [reach_cons, reach_cons]
        omega

theorem expand (id : ClosureId) (operands : List Value) (source : Option Span) :
    Keeps (reach operands) (m.expand id operands source) := by
  have happly : Keeps (reach operands) (m (.apply source (.closure id) operands)) :=
    (h.apply source (.closure id) operands).mono (by simp)
  unfold Machine.expand
  refine .reading fun cached => ?_
  split
  · refine .bind (.ask fun w hw _ => ?_) fun known => ?_
    · exact Nat.le_trans (reach_remembered?_le id operands w.expansions) hw.expansions
    · cases known with
      | some result => exact .pure (Nat.le_max_right _ _)
      | none =>
          refine (happly.mono (Nat.le_max_left _ _)).bind fun result => ?_
          refine .seq (.change (fun _ => rfl) fun w hw hn => ?_) fun _ => ?_
          · have hremember := reach_remember_le id operands result w.expansions
            have hexpansions := hw.expansions
            exact Nat.le_trans hremember (by omega)
          · exact .pure (Nat.le_max_right _ _)
  · exact happly

theorem hole (frame : FrameId) (form : SpecialForm) (ops : List Value) :
    Keeps (reach ops) (m.hole frame form ops) := by
  unfold Machine.hole
  split
  · exact (h.value frame _).mono (Nat.le_max_left _ _)
  · exact .complain rfl

/-- The elements of a template, if each of them can be filled. -/
theorem fillItems_of_items (frame : FrameId) {items : List Value}
    (hitems : ∀ x ∈ items, Keeps (reach x) (m.fill frame x)) :
    Keeps (reach items) (m.fillItems frame items) := by
  induction items with
  | nil => exact .pure (Nat.zero_le _)
  | cons item rest ih =>
      have hrest := ih fun x hx => hitems x (List.mem_cons_of_mem item hx)
      have hone : Keeps (reach (item :: rest)) (do
          let filled ← m.fill frame item
          let others ← m.fillItems frame rest
          return filled :: others) := by
        rw [reach_cons]
        refine .bind ((hitems item List.mem_cons_self).mono (Nat.le_max_left _ _)) fun filled => ?_
        refine .map (hrest.mono (by omega)) fun others => ?_
        rw [reach_cons]
        omega
      unfold Machine.fillItems
      split
      · split
        · simp only [reach_cons, reach_list]
          refine .bind ((h.hole frame _ _).mono (by omega)) fun v => ?_
          refine .bind ((h.iterate v).mono (Nat.le_max_right _ _)) fun spliced => ?_
          refine .map (hrest.mono (by omega)) fun others => ?_
          rw [reach_append]
          omega
        · exact hone
      · exact hone

theorem fill (frame : FrameId) (template : Value) :
    Keeps (reach template) (m.fill frame template) := by
  induction template using Value.part_induction with
  | h template ih =>
      cases template with
      | list items source =>
          unfold Machine.fill
          split
          · rw [reach_list]
            exact (h.hole frame _ _).mono (reach_tail_le items)
          · exact .complain rfl
          · rw [reach_list]
            refine .map (h.fillItems_of_items frame fun x hx => ih x (.item hx)) fun filled => ?_
            rw [reach_list]
            exact Nat.le_max_right _ _
      | _ => exact .pure (Nat.le_refl _)

end Machine.KeepsTables

/-! ### Special forms -/

namespace Eval.Keeps

variable {n : Nat}

theorem reify (f : Failure) : Keeps (reach f) (Eval.reify f) := by
  unfold Eval.reify
  split
  · next value hcause =>
      have hvalue : reach f = reach value := by
        obtain ⟨cause, context⟩ := f
        cases hcause
        rfl
      exact .pure (Nat.le_of_eq hvalue.symm)
  · exact .reading fun message => .newError (Nat.zero_le _)

theorem expectOperands (form : SpecialForm) (arity : Arity) (ops : List Value) :
    Keeps n (Machine.expectOperands form arity ops) := by
  unfold Machine.expectOperands
  split
  · exact .pure (Nat.zero_le _)
  · exact .complain rfl

theorem evalClosure (frame : FrameId) (form : SpecialForm) (expands : Bool) (ops : List Value) :
    Keeps (reach ops) (Machine.evalClosure frame form expands ops) := by
  refine .seq (.expectOperands _ _ _) fun _ => ?_
  cases ops with
  | nil => exact .pure (Nat.zero_le _)
  | cons first body =>
      cases first with
      | list params source =>
          have hclosure : reach ({ params, body, frame, expands } : Closure) =
              reach (Value.list params source :: body) := by
            rw [reach_cons, reach_list]
            rfl
          refine .editHeapAs (fun h => Value.closure h.closures.size)
            (fun h => { h with closures := h.closures.push { params, body, frame, expands } })
            (fun h hh hn => ⟨hh.newClosure ?_, Nat.le_refl _⟩) fun _ _ => Nat.zero_le _
          rw [hclosure]
          exact hn
      | _ => exact .showing fun _ => rfl

theorem symbolsOf (form : SpecialForm) (items : List Value) :
    Keeps n (Machine.symbolsOf form items) := by
  fun_induction Machine.symbolsOf form items with
  | case1 => exact .pure (Nat.zero_le _)
  | case2 s rest ih => exact .map ih fun _ => by simp
  | case3 other rest hsym => exact .showing fun _ => rfl

theorem symbolList (form : SpecialForm) (v : Value) : Keeps n (Machine.symbolList form v) := by
  unfold Machine.symbolList
  split
  · exact .symbolsOf _ _
  · exact .showing fun _ => rfl

/-- A new record type: its own number is one that the world now has a cell for. -/
theorem evalRecordType (frame : FrameId) (ops : List Value) :
    Keeps n (Machine.evalRecordType frame ops) := by
  refine .seq (.expectOperands _ _ _) fun _ => .seq (.symbolList _ _) fun names => ?_
  cases names with
  | nil => exact .complain rfl
  | cons name fields =>
      intro w hw _
      have hsize : (w.heap.recordTypes.push { name, fields }).size = w.heap.types + 1 :=
        Array.size_push _
      have hnumber : w.heap.types + 1 ≤ (w.heap.recordTypes.push { name, fields }).size :=
        Nat.le_of_eq hsize.symm
      have hgrows := Nat.le_trans (Nat.le_succ w.heap.types) hnumber
      have hheap := hw.heap.newRecordType name fields
      exact ⟨⟨hheap.define frame name hnumber, Nat.le_trans hw.expansions hgrows⟩, hgrows, hnumber⟩

end Eval.Keeps

namespace Machine.KeepsTables

variable {m : Machine} (h : m.KeepsTables)
include h

theorem evalDefine (frame : FrameId) (ops : List Value) :
    Keeps (reach ops) (m.evalDefine frame ops) := by
  unfold Machine.evalDefine
  split
  · next name form =>
      refine .bind ((h.value frame form).mono (by simp)) fun v => ?_
      have hbind : Keeps (max (reach [.sym name, form]) (reach v))
          (Eval.define frame name v >>= fun _ => Pure.pure v) :=
        .seq (.define frame name (Nat.le_max_right _ _)) fun _ => .pure (Nat.le_max_right _ _)
      dsimp only
      split
      · exact .seq (.editCells (fun _ => rfl) fun _ hh _ => hh.nameClosure _ _) fun _ => hbind
      · exact hbind
  · exact .showing fun _ => rfl
  · exact .complain rfl

theorem evalBranch (frame : FrameId) (ops : List Value) :
    Keeps (reach ops) (m.evalBranch frame ops) := by
  refine .seq (.expectOperands _ _ _) fun _ => ?_
  cases ops with
  | nil => exact .pure (Nat.zero_le _)
  | cons test branches =>
      rw [reach_cons]
      refine .bind ((h.value frame test).mono (Nat.le_max_left _ _)) fun v => ?_
      refine .seq ((h.toBool v).mono (Nat.le_max_right _ _)) fun chosen => ?_
      have hbranch : ∀ i : Nat,
          reach branches[i]? ≤ max (max (reach test) (reach branches)) (reach v) := by
        intro i
        have hle := reach_getElem?_le branches i
        omega
      split
      · next form hform =>
          have hle : reach (some form) ≤ max (max (reach test) (reach branches)) (reach v) := by
            rw [← hform]
            split <;> exact hbranch _
          exact (h.eval frame form).mono hle
      · exact .pure (Nat.zero_le _)

theorem bindPairs (inner : FrameId) (bindings : List Value) :
    Keeps (reach bindings) (m.bindPairs inner bindings) := by
  fun_induction m.bindPairs inner bindings with
  | case1 pattern form rest ih =>
      simp only [reach_cons]
      refine .bind ((h.value inner form).mono (by omega)) fun v => ?_
      refine .seq ((h.destructure .bind inner pattern v).mono ?_) fun _ => ih.mono (by omega)
      rw [reach_prod]
      omega
  | case2 bindings hpair => exact .pure (Nat.zero_le _)

theorem evalBinding (frame : FrameId) (ops : List Value) :
    Keeps (reach ops) (m.evalBinding frame ops) := by
  refine .seq (.expectOperands _ _ _) fun _ => ?_
  split
  · simp only [reach_cons, reach_list]
    split
    · refine .seq (.extend _ _) fun inner => ?_
      refine .seq ((h.bindPairs inner _).mono (Nat.le_max_left _ _)) fun _ => ?_
      exact (h.body inner _).mono (Nat.le_max_right _ _)
    · exact .complain rfl
  · exact .showing fun _ => rfl
  · exact .pure (Nat.zero_le _)

theorem evalExpand (frame : FrameId) (ops : List Value) :
    Keeps (reach ops) (m.evalExpand frame ops) := by
  refine .seq (.expectOperands _ _ _) fun _ => ?_
  split
  · simp only [reach_cons, reach_list]
    refine .bind ((h.value frame _).mono (by omega)) fun callee => .reading fun found => ?_
    cases found with
    | some id => exact (h.expand id _ _).mono (by omega)
    | none => exact .showing fun _ => rfl
  · exact .showing fun _ => rfl
  · exact .pure (Nat.zero_le _)

omit h in
theorem reach_handlerOf?_le (ops : List Value) : reach (handlerOf? ops) ≤ reach ops := by
  have hforms := reach_dropLast_le ops
  have hlast := reach_getLast?_le ops
  unfold handlerOf?
  split
  · next s handler source hclause =>
      rw [hclause, reach_some, reach_list, reach_cons] at hlast
      split
      · rw [reach_some, reach_prod]
        omega
      · exact Nat.zero_le _
  · exact Nat.zero_le _

theorem handle (frame : FrameId) (handler : List Value) (f : Failure) :
    Keeps (max (reach handler) (reach f)) (m.handle frame handler f) := by
  refine .bind ((Keeps.reify f).mono (Nat.le_max_right _ _)) fun caught => ?_
  cases handler with
  | nil => exact .complain rfl
  | cons pattern forms =>
      rw [reach_cons]
      refine .seq (.extend _ _) fun inner => ?_
      refine .seq ((h.destructure .bind inner pattern caught).mono ?_) fun _ => ?_
      · rw [reach_prod]
        omega
      · exact (h.body inner forms).mono (by omega)

theorem evalAttempt (frame : FrameId) (ops : List Value) :
    Keeps (reach ops) (m.evalAttempt frame ops) := by
  cases hops : Machine.handlerOf? ops with
  | none =>
      unfold Machine.evalAttempt
      rw [hops]
      exact h.body frame ops
  | some clause =>
      obtain ⟨forms, handler⟩ := clause
      have hparts := reach_handlerOf?_le ops
      rw [hops, reach_some, reach_prod] at hparts
      rw [m.evalAttempt_eq_rescue frame hops]
      refine .rescue ((h.body frame forms).mono (by omega)) fun f _ => ?_
      exact (h.handle frame handler f).mono (by omega)

theorem evalThrow (frame : FrameId) (ops : List Value) :
    Keeps (reach ops) (m.evalThrow frame ops) := by
  refine .seq (.expectOperands _ _ _) fun _ => ?_
  have hform := reach_headD_le ops .nil
  rw [reach_value_nil] at hform
  refine .bind ((h.value frame _).mono (by omega)) fun v => ?_
  exact .raise (Nat.le_max_right _ _)

theorem evalRecur (frame : FrameId) (ops : List Value) :
    Keeps (reach ops) (m.evalRecur frame ops) := by
  refine .seq (.expectOperands _ _ _) fun _ => ?_
  split
  · simp only [reach_cons, reach_list]
    refine .bind ((h.value frame _).mono (by omega)) fun target => ?_
    refine .bind ((h.operands frame _).mono (by omega)) fun args => .fail ?_
    show max (reach target) (reach args) ≤ _
    omega
  · exact .showing fun _ => rfl
  · exact .pure (Nat.zero_le _)

theorem selectClause (frame : FrameId) (v : Value) (clauses : List Value) :
    Keeps (reach (v, clauses)) (m.selectClause frame v clauses) := by
  fun_induction m.selectClause frame v clauses with
  | case1 pattern result rest ih =>
      simp only [reach_prod, reach_cons] at ih ⊢
      refine .seq (.extend _ _) fun inner => ?_
      refine .seq ((h.destructure .test inner pattern v).mono ?_) fun fits => ?_
      · rw [reach_prod]
        omega
      · split
        · exact (h.eval inner result).mono (by omega)
        · exact ih.mono (by omega)
  | case2 clauses hpair => exact .showing fun _ => rfl

theorem evalSelection (frame : FrameId) (ops : List Value) :
    Keeps (reach ops) (m.evalSelection frame ops) := by
  refine .seq (.expectOperands _ _ _) fun _ => ?_
  cases ops with
  | nil => exact .pure (Nat.zero_le _)
  | cons subject clauses =>
      rw [reach_cons]
      refine .bind ((h.value frame subject).mono (Nat.le_max_left _ _)) fun v => ?_
      split
      · exact (h.selectClause frame v clauses).mono (by rw [reach_prod]; omega)
      · exact .complain rfl

theorem optional (frame : FrameId) (form : Option Value) :
    Keeps (reach form) (m.optional frame form) := by
  cases form with
  | none => exact .pure (Nat.zero_le _)
  | some form =>
      refine .bind (h.value frame form) fun v => ?_
      split
      · exact .pure (Nat.zero_le _)
      · exact .pure (Nat.le_max_right _ _)

theorem evalInterface (frame : FrameId) (ops : List Value) :
    Keeps (reach ops) (m.evalInterface frame ops) := by
  refine .seq (.expectOperands _ _ _) fun _ => .seq (.symbolList _ _) fun names => ?_
  cases names with
  | nil => exact .complain rfl
  | cons name params =>
      dsimp only
      split
      · exact .complain rfl
      · refine .bind ((h.optional frame _).mono (reach_getElem?_le ops 1)) fun fallback => ?_
        have hops := reach_getElem?_le ops 2
        refine .bind ((h.optional frame _).mono (by omega)) fun hook => .reading fun id => ?_
        refine .seq (.editCells (fun _ => rfl) fun heap hh hn => ?_) fun _ => ?_
        · exact hh.newInterface name params (by omega) (by omega)
        · exact .seq (.define frame name (Nat.zero_le _)) fun _ => .pure (Nat.zero_le _)

theorem typesOf (frame : FrameId) (forms : List Value) :
    Keeps (reach forms) (m.typesOf frame forms) := by
  induction forms with
  | nil => exact .pure (Nat.zero_le _)
  | cons form rest ih =>
      rw [reach_cons]
      refine .bind ((h.value frame form).mono (Nat.le_max_left _ _)) fun v => ?_
      split
      · refine .map (ih.mono (by omega)) fun tags => ?_
        rw [reach_cons, reach_type]
        omega
      · exact .showing fun _ => rfl

theorem memberChain (frame : FrameId) (target : Value) (receiver : Option Value)
    (keys : List Value) :
    Keeps (reach (target, receiver, keys)) (m.memberChain frame target receiver keys) := by
  induction keys generalizing target receiver with
  | nil => exact .pure (by simp only [reach_prod]; omega)
  | cons keyForm rest ih =>
      simp only [reach_prod, reach_cons] at ih ⊢
      have hnext : ∀ key, Keeps (max (max (reach target) (max (reach receiver)
            (max (reach keyForm) (reach rest)))) (reach key))
          (m.member target key >>= fun next => m.memberChain frame next (some target) rest) := by
        intro key
        refine .bind ((h.member target key).mono (by rw [reach_prod]; omega)) fun next => ?_
        exact (ih next (some target)).mono (by rw [reach_some]; omega)
      cases keyForm with
      | list items source => exact .bind ((h.value frame _).mono (by omega)) hnext
      | _ => exact .bind (.pure (by omega)) hnext

theorem evalMember (frame : FrameId) (ops : List Value) :
    Keeps (reach ops) (m.evalMember frame ops) := by
  refine .seq (.expectOperands _ _ _) fun _ => ?_
  cases ops with
  | nil => exact .pure (Nat.zero_le _)
  | cons first keys =>
      rw [reach_cons]
      refine .bind ((h.value frame first).mono (Nat.le_max_left _ _)) fun start => ?_
      refine .bind ((h.memberChain frame start none keys).mono ?_) fun last => ?_
      · simp only [reach_prod, reach_none]
        omega
      · obtain ⟨target, receiver⟩ := last
        dsimp only
        split <;> exact .pure (by simp only [reach_prod, reach_bound, reach_some]; omega)

theorem callHook (hook : Option Hook) (key : List TypeTag) (imp : Value) :
    Keeps (reach (hook, key, imp)) (m.callHook hook key imp) := by
  unfold Machine.callHook
  split
  · next p =>
      refine .bind ((h.call _ _).mono ?_) fun _ => .pure (Nat.zero_le _)
      have htypes := reach_map_le (l := key) (f := Value.type) fun _ _ => Nat.le_refl _
      have hhook : reach (Hook.procedure p) = reach p := rfl
      simp only [reach_prod, reach_cons, reach_ofList, reach_nil, reach_some]
      omega
  · exact .pure (Nat.zero_le _)

/-- An implementation is registered for types that exist. -/
theorem implement (id : InterfaceId) (key : List TypeTag) (imp : Value) :
    Keeps (reach (key, imp)) (m.implement id key imp) := by
  rw [Machine.implement_eq]
  refine .bind (.interface? id) fun found => ?_
  cases found with
  | none => exact .pure (Nat.zero_le _)
  | some interface =>
      have hhook : reach interface.hook ≤ reach interface := by
        show _ ≤ max (reach interface.impls) (max (reach interface.fallback) (reach interface.hook))
        omega
      simp only [reach_prod, reach_some]
      split
      · refine .seq (.editCells (fun heap => heap.types_implement id key imp) fun heap hh hn => ?_)
          fun _ => (h.callHook _ key imp).mono ?_
        · exact hh.implement id (by omega) (by omega)
        · simp only [reach_prod]
          omega
      · exact .reading fun _ => .complain rfl

theorem evalImplementation (frame : FrameId) (ops : List Value) :
    Keeps (reach ops) (m.evalImplementation frame ops) := by
  refine .seq (.expectOperands _ _ _) fun _ => ?_
  split
  · simp only [reach_cons, reach_nil]
    refine .bind ((h.value frame _).mono (by omega)) fun target => ?_
    split
    · split
      · rw [reach_list]
        refine .bind ((h.typesOf frame _).mono (by omega)) fun key => ?_
        refine .bind ((h.value frame _).mono (by omega)) fun imp => ?_
        refine .seq ((h.implement _ key imp).mono (by rw [reach_prod]; omega)) fun _ => ?_
        exact .pure (Nat.le_max_right _ _)
      · exact .showing fun _ => rfl
    · exact .showing fun _ => rfl
  · exact .pure (Nat.zero_le _)

theorem special (frame : FrameId) (form : SpecialForm) (ops : List Value) :
    Keeps (reach ops) (m.special frame form ops) := by
  have hfirst := reach_headD_le ops .nil
  rw [reach_value_nil] at hfirst
  cases form with
  | define => exact h.evalDefine frame ops
  | branch => exact h.evalBranch frame ops
  | sequence => exact h.body frame ops
  | binding => exact h.evalBinding frame ops
  | procedure => exact .evalClosure frame _ _ ops
  | expander => exact .evalClosure frame _ _ ops
  | expand => exact h.evalExpand frame ops
  | quote => exact .seq (.expectOperands _ _ _) fun _ => .pure (by omega)
  | quasiQuote =>
      exact .seq (.expectOperands _ _ _) fun _ => (h.fill frame _).mono (by omega)
  | unquote => exact .complain rfl
  | unquoteSplice => exact .complain rfl
  | splice => exact .complain rfl
  | attempt => exact h.evalAttempt frame ops
  | handler => exact .complain rfl
  | throwing => exact h.evalThrow frame ops
  | recurring => exact h.evalRecur frame ops
  | selection => exact h.evalSelection frame ops
  | recordType => exact .evalRecordType frame ops
  | interface => exact h.evalInterface frame ops
  | implementation => exact h.evalImplementation frame ops
  | member => exact h.evalMember frame ops

end Machine.KeepsTables

end Lisp
