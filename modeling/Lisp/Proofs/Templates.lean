import Lisp.Proofs.Congruence

/-!
# Templates and their holes

A form is a **template** if each of its unquoting lists has one operand, and it does not
itself ask for elements to be put into a list (`Value.Template`).  The operands of these
lists are its **holes**, from left to right; what stands inside a hole is code and has no
holes of its own.  With as many answers as there are holes, the template becomes one form
only: an answer replaces its hole, the elements asked for by a hole are put into the list
around it, and everything else stays (`Value.Filled`).

Both notions know nothing of evaluation, so they say what the evaluator does with a
template: it answers the holes, each of them once and in order, and does nothing else.
The first hole without an answer decides the outcome (`Machine.fill_template`).

What is compared are two runs, of the template and of its holes alone.  They end alike
(`Eval.Parallel`), and this passes from the parts of a template to the template.
-/

namespace Lisp

/-- A hole of a template, which asks for the value of a form or for the elements of that
value. -/
inductive Hole where
  | value (form : Value)
  | elements (form : Value)

namespace Value

mutual

/-- The form is a template with the holes, from left to right. -/
inductive Template : Value → List Hole → Prop
  | literal {v : Value} (hv : ∀ items source, v ≠ .list items source) : Template v []
  | value {s : Symbol} {form : Value} {source : Option Span}
      (hs : s = SpecialForm.unquote.symbol) : Template (.list [.sym s, form] source) [.value form]
  | list {items : List Value} {source : Option Span} {holes : List Hole}
      (hvalue : headForm? items ≠ some .unquote)
      (helements : headForm? items ≠ some .unquoteSplice)
      (hitems : TemplateItems items holes) : Template (.list items source) holes

/-- The forms are the elements of a template with the holes, from left to right. -/
inductive TemplateItems : List Value → List Hole → Prop
  | nil : TemplateItems [] []
  | elements {s : Symbol} {form : Value} {source : Option Span} {items : List Value}
      {holes : List Hole} (hs : s = SpecialForm.unquoteSplice.symbol)
      (hitems : TemplateItems items holes) :
      TemplateItems (.list [.sym s, form] source :: items) (.elements form :: holes)
  | cons {item : Value} {items : List Value} {holes holes' : List Hole}
      (hitem : Template item holes) (hitems : TemplateItems items holes') :
      TemplateItems (item :: items) (holes ++ holes')

end

mutual

/-- The template is the form, once the answers to its holes are in their places. -/
inductive Filled : (template : Value) → (answers : List (List Value)) → (form : Value) → Prop
  | literal {v : Value} (hv : ∀ items source, v ≠ .list items source) : Filled v [] v
  | value {s : Symbol} {form : Value} {source : Option Span}
      (hs : s = SpecialForm.unquote.symbol) (v : Value) :
      Filled (.list [.sym s, form] source) [[v]] v
  | list {items forms : List Value} {source : Option Span} {answers : List (List Value)}
      (hvalue : headForm? items ≠ some .unquote)
      (helements : headForm? items ≠ some .unquoteSplice)
      (hitems : FilledItems items answers forms) :
      Filled (.list items source) answers (.list forms source)

/-- The elements of a template are the forms, once the answers are in their places. -/
inductive FilledItems : (items : List Value) → List (List Value) → (forms : List Value) → Prop
  | nil : FilledItems [] [] []
  | elements {s : Symbol} {form : Value} {source : Option Span} {items forms : List Value}
      {answers : List (List Value)} (hs : s = SpecialForm.unquoteSplice.symbol)
      (elements : List Value) (hitems : FilledItems items answers forms) :
      FilledItems (.list [.sym s, form] source :: items) (elements :: answers) (elements ++ forms)
  | cons {item form : Value} {items forms : List Value} {answers answers' : List (List Value)}
      (hitem : Filled item answers form) (hitems : FilledItems items answers' forms) :
      FilledItems (item :: items) (answers ++ answers') (form :: forms)

end

/-- A template does not itself ask for elements. -/
theorem not_template_elements {s : Symbol} {operands : List Value} {source : Option Span}
    {holes : List Hole} (hs : s = SpecialForm.unquoteSplice.symbol) :
    ¬ Template (.list (.sym s :: operands) source) holes := by
  subst hs
  intro h
  cases h with
  | literal hv => exact absurd rfl (hv _ _)
  | value hs => exact absurd hs (by decide)
  | list _ helements _ => exact absurd (SpecialForm.ofSymbol?_symbol .unquoteSplice) helements

end Value

open Value (Template TemplateItems Filled FilledItems)

namespace Machine

variable (m : Machine) (frame : FrameId)

/-- What is put in the place of a hole. -/
def answer : Hole → Eval (List Value)
  | .value form => do return [← m.value frame form]
  | .elements form => do m.iterate (← m.value frame form)

/-- The answers to several holes, in order. -/
def answers : List Hole → Eval (List (List Value))
  | [] => return []
  | hole :: rest => do
    let first ← m.answer frame hole
    let others ← answers rest
    return first :: others

/-- The holes of two parts are answered one part after the other. -/
theorem answers_append (holes holes' : List Hole) :
    m.answers frame (holes ++ holes') = (do
      let first ← m.answers frame holes
      let others ← m.answers frame holes'
      return first ++ others) := by
  induction holes with
  | nil => simp [answers]
  | cons hole rest ih => simp [answers, ih]

end Machine

/-! ### Two runs that end alike -/

/-- The two runs end in one world, with related values or with the same failure. -/
inductive Eval.Parallel (R : α → β → Prop) : Answer α × World → Answer β × World → Prop
  | ok {a : α} {b : β} (hab : R a b) (w : World) : Parallel R (.ok a, w) (.ok b, w)
  | failed (f : Failure) (w : World) : Parallel R (.failed f, w) (.failed f, w)
  | outOfFuel (w : World) : Parallel R (.outOfFuel, w) (.outOfFuel, w)

namespace Eval.Parallel

variable {α β γ δ : Type} {R : α → β → Prop} {S : γ → δ → Prop} {x : Eval α} {y : Eval β}
  {w : World}

/-- One evaluation after another. -/
theorem bind {k : α → Eval γ} {l : β → Eval δ} (hxy : Parallel R (x w) (y w))
    (hkl : ∀ a b w', R a b → Parallel S (k a w') (l b w')) :
    Parallel S ((x >>= k) w) ((y >>= l) w) := by
  rw [bind_run, bind_run]
  generalize x w = left at hxy
  generalize y w = right at hxy
  cases hxy with
  | ok hab w' => exact hkl _ _ w' hab
  | failed f w' => exact .failed f w'
  | outOfFuel w' => exact .outOfFuel w'

/-- The same evaluation on both sides. -/
theorem same (x : Eval α) (w : World) : Parallel (· = ·) (x w) (x w) := by
  rcases x w with ⟨answer, w'⟩
  cases answer with
  | ok a => exact .ok rfl w'
  | failed f => exact .failed f w'
  | outOfFuel => exact .outOfFuel w'

end Eval.Parallel

/-! ### The runs of a template and of its holes -/

namespace Machine

variable (m : Machine) (frame : FrameId)

/-- The template comes to itself with the answers to the holes. -/
def Fills (template : Value) (holes : List Hole) : Prop :=
  ∀ w, Eval.Parallel (Filled template) (m.answers frame holes w) (m.fill frame template w)

/-- The elements of a template come to themselves with the answers to the holes. -/
def FillsItems (items : List Value) (holes : List Hole) : Prop :=
  ∀ w, Eval.Parallel (FilledItems items) (m.answers frame holes w) (m.fillItems frame items w)

variable {m frame} {s : Symbol} {form : Value} {source : Option Span} {items : List Value}
  {holes : List Hole}

theorem fills_literal {v : Value} (hv : ∀ items source, v ≠ .list items source) :
    m.Fills frame v [] := by
  intro w
  have hrun : m.fill frame v = pure v := by
    rw [fill.eq_def]
    split
    · exact absurd rfl (hv _ _)
    · rfl
  rw [hrun]
  exact .ok (.literal hv) w

theorem fills_value (hs : s = SpecialForm.unquote.symbol) :
    m.Fills frame (.list [.sym s, form] source) [.value form] := by
  intro w
  have hanswer : m.answers frame [.value form] = (do return [[← m.value frame form]]) := by
    simp [answers, answer]
  have hrun : m.fill frame (.list [.sym s, form] source) = m.value frame form := by
    subst hs
    rw [fill]
    rfl
  rw [hanswer, hrun, ← bind_pure (m.value frame form), bind_assoc]
  refine .bind (.same _ w) fun v _ w' hv => ?_
  subst hv
  exact .ok (.value hs v) w'

theorem fills_list (hvalue : Value.headForm? items ≠ some .unquote)
    (helements : Value.headForm? items ≠ some .unquoteSplice)
    (hitems : m.FillsItems frame items holes) :
    m.Fills frame (.list items source) holes := by
  intro w
  have hrun : m.fill frame (.list items source) = (do
      let forms ← m.fillItems frame items
      return .list forms source) := by
    rw [fill]
    split
    · exact absurd ‹_› hvalue
    · exact absurd ‹_› helements
    · rfl
  rw [hrun, ← bind_pure (m.answers frame holes)]
  exact .bind (hitems w) fun answers forms w' hfilled => .ok (.list hvalue helements hfilled) w'

theorem fillsItems_nil : m.FillsItems frame [] [] :=
  fun w => .ok .nil w

theorem fillsItems_elements (hs : s = SpecialForm.unquoteSplice.symbol)
    (hitems : m.FillsItems frame items holes) :
    m.FillsItems frame (.list [.sym s, form] source :: items) (.elements form :: holes) := by
  intro w
  have hrun : m.fillItems frame (.list [.sym s, form] source :: items) = (do
      let elements ← m.answer frame (.elements form)
      let forms ← m.fillItems frame items
      return elements ++ forms) := by
    subst hs
    rw [fillItems]
    simp only [if_true, answer, bind_assoc]
    rfl
  rw [hrun]
  refine .bind (.same _ w) fun elements _ w₁ heq => ?_
  subst heq
  exact .bind (hitems w₁) fun answers forms w₂ hfilled => .ok (.elements hs elements hfilled) w₂

theorem fillsItems_cons {item : Value} {holes' : List Hole} (htemplate : Template item holes)
    (hitem : m.Fills frame item holes) (hitems : m.FillsItems frame items holes') :
    m.FillsItems frame (item :: items) (holes ++ holes') := by
  intro w
  have hrun : m.fillItems frame (item :: items) = (do
      let form ← m.fill frame item
      let forms ← m.fillItems frame items
      return form :: forms) := by
    rw [fillItems.eq_def]
    dsimp only
    split
    · next s operands source =>
        split
        · next hs => exact absurd htemplate (Value.not_template_elements hs)
        · rfl
    · rfl
  rw [hrun, m.answers_append]
  refine .bind (hitem w) fun answers form w₁ hform => ?_
  exact .bind (hitems w₁) fun answers' forms w₂ hforms => .ok (.cons hform hforms) w₂

/-- A template comes to itself with the answers to its holes, by its own structure. -/
theorem fills_of_template {template : Value} (h : Template template holes) :
    m.Fills frame template holes := by
  refine @Template.rec (fun template holes _ => m.Fills frame template holes)
    (fun items holes _ => m.FillsItems frame items holes) ?literal ?value ?list ?nil ?elements
    ?cons template holes h
  case literal => exact fills_literal
  case value => exact fills_value
  case list => exact fun hvalue helements _ => fills_list hvalue helements
  case nil => exact fillsItems_nil
  case elements => exact fun hs _ => fillsItems_elements hs
  case cons => exact fun htemplate _ => fillsItems_cons htemplate

end Machine

/-! ### A template with its answers is one form -/

namespace Value

variable {s : Symbol} {form : Value} {source : Option Span} {items : List Value}
  {answers : List (List Value)}

theorem filled_literal {v : Value} (hv : ∀ items source, v ≠ .list items source) :
    Filled v answers form ↔ answers = [] ∧ form = v := by
  constructor
  · intro h
    cases h with
    | literal _ => exact ⟨rfl, rfl⟩
    | value _ _ => exact absurd rfl (hv _ _)
    | list _ _ _ => exact absurd rfl (hv _ _)
  · rintro ⟨rfl, rfl⟩
    exact .literal hv

theorem filled_value {operand : Value} (hs : s = SpecialForm.unquote.symbol) :
    Filled (.list [.sym s, operand] source) answers form ↔ answers = [[form]] := by
  constructor
  · intro h
    cases h with
    | literal hv => exact absurd rfl (hv _ _)
    | value _ _ => rfl
    | list hvalue _ _ =>
        subst hs
        exact absurd (SpecialForm.ofSymbol?_symbol .unquote) hvalue
  · rintro rfl
    exact .value hs form

theorem filled_list (hvalue : headForm? items ≠ some .unquote)
    (helements : headForm? items ≠ some .unquoteSplice) :
    Filled (.list items source) answers form ↔
      ∃ forms, FilledItems items answers forms ∧ form = .list forms source := by
  constructor
  · intro h
    cases h with
    | literal hv => exact absurd rfl (hv _ _)
    | value hs _ =>
        subst hs
        exact absurd (SpecialForm.ofSymbol?_symbol .unquote) hvalue
    | list _ _ hitems => exact ⟨_, hitems, rfl⟩
  · rintro ⟨forms, hitems, rfl⟩
    exact .list hvalue helements hitems

/-- Nothing that asks for elements is filled to a form. -/
theorem not_filled_elements {operands : List Value} (hs : s = SpecialForm.unquoteSplice.symbol) :
    ¬ Filled (.list (.sym s :: operands) source) answers form := by
  subst hs
  intro h
  cases h with
  | literal hv => exact absurd rfl (hv _ _)
  | value hs _ => exact absurd hs (by decide)
  | list _ helements _ => exact absurd (SpecialForm.ofSymbol?_symbol .unquoteSplice) helements

theorem filledItems_nil {forms : List Value} :
    FilledItems [] answers forms ↔ answers = [] ∧ forms = [] := by
  constructor
  · intro h
    cases h
    exact ⟨rfl, rfl⟩
  · rintro ⟨rfl, rfl⟩
    exact .nil

theorem filledItems_elements {operand : Value} {forms : List Value}
    (hs : s = SpecialForm.unquoteSplice.symbol) :
    FilledItems (.list [.sym s, operand] source :: items) answers forms ↔
      ∃ elements answers' forms', FilledItems items answers' forms' ∧
        answers = elements :: answers' ∧ forms = elements ++ forms' := by
  constructor
  · intro h
    cases h with
    | elements _ elements hitems => exact ⟨elements, _, _, hitems, rfl, rfl⟩
    | cons hitem _ => exact absurd hitem (not_filled_elements hs)
  · rintro ⟨elements, answers', forms', hitems, rfl, rfl⟩
    exact .elements hs elements hitems

theorem filledItems_cons {item : Value} {forms : List Value} {holes : List Hole}
    (hitem : Template item holes) :
    FilledItems (item :: items) answers forms ↔
      ∃ first others form forms', Filled item first form ∧ FilledItems items others forms' ∧
        answers = first ++ others ∧ forms = form :: forms' := by
  constructor
  · intro h
    cases h with
    | elements hs _ _ => exact absurd hitem (not_template_elements hs)
    | cons hfirst hitems => exact ⟨_, _, _, _, hfirst, hitems, rfl, rfl⟩
  · rintro ⟨first, others, form, forms', hfirst, hitems, rfl, rfl⟩
    exact .cons hfirst hitems

/-- There are as many answers as holes, and they decide the form. -/
def Determined (template : Value) (holes : List Hole) : Prop :=
  ∀ answers form, Filled template answers form → answers.length = holes.length ∧
    ∀ other, Filled template answers other → other = form

/-- There are as many answers as holes, and they decide the elements. -/
def DeterminedItems (items : List Value) (holes : List Hole) : Prop :=
  ∀ answers forms, FilledItems items answers forms → answers.length = holes.length ∧
    ∀ others, FilledItems items answers others → others = forms

theorem determinedItems_cons {item : Value} {holes holes' : List Hole}
    (htemplate : Template item holes) (hitem : Determined item holes)
    (hitems : DeterminedItems items holes') :
    DeterminedItems (item :: items) (holes ++ holes') := by
  intro answers forms hfilled
  obtain ⟨first, rest, form, forms, hfirst, hrest, rfl, rfl⟩ :=
    (filledItems_cons htemplate).mp hfilled
  obtain ⟨hlength, honly⟩ := hitem first form hfirst
  obtain ⟨hlength', honly'⟩ := hitems rest forms hrest
  refine ⟨by simp [hlength, hlength'], fun others hothers => ?_⟩
  obtain ⟨first', rest', form', forms', hfirst', hrest', hsplit, rfl⟩ :=
    (filledItems_cons htemplate).mp hothers
  -- The first element takes as many answers either way.
  have hcount : first.length = first'.length := hlength.trans (hitem first' form' hfirst').1.symm
  obtain ⟨rfl, rfl⟩ := List.append_inj hsplit hcount
  rw [honly form' hfirst', honly' forms' hrest']

/-- The answers to its holes make one form of a template, by its own structure. -/
theorem determined_of_template {template : Value} {holes : List Hole}
    (h : Template template holes) : Determined template holes := by
  refine @Template.rec (fun template holes _ => Determined template holes)
    (fun items holes _ => DeterminedItems items holes) ?literal ?value ?list ?nil ?elements
    ?cons template holes h
  case literal =>
    intro v hv answers form hfilled
    obtain ⟨rfl, rfl⟩ := (filled_literal hv).mp hfilled
    exact ⟨rfl, fun other hother => ((filled_literal hv).mp hother).2⟩
  case value =>
    intro s operand source hs answers form hfilled
    obtain rfl := (filled_value hs).mp hfilled
    refine ⟨rfl, fun other hother => ?_⟩
    cases (filled_value hs).mp hother
    rfl
  case list =>
    intro items source holes hvalue helements _ ih answers form hfilled
    obtain ⟨forms, hforms, rfl⟩ := (filled_list hvalue helements).mp hfilled
    refine ⟨(ih answers forms hforms).1, fun other hother => ?_⟩
    obtain ⟨others, hothers, rfl⟩ := (filled_list hvalue helements).mp hother
    rw [(ih answers forms hforms).2 others hothers]
  case nil =>
    intro answers forms hfilled
    obtain ⟨rfl, rfl⟩ := filledItems_nil.mp hfilled
    exact ⟨rfl, fun others hothers => (filledItems_nil.mp hothers).2⟩
  case elements =>
    intro s operand source items holes hs _ ih answers forms hfilled
    obtain ⟨elements, answers, forms, hforms, rfl, rfl⟩ := (filledItems_elements hs).mp hfilled
    refine ⟨congrArg (· + 1) (ih answers forms hforms).1, fun others hothers => ?_⟩
    obtain ⟨_, _, forms', hforms', heq, rfl⟩ := (filledItems_elements hs).mp hothers
    cases heq
    rw [(ih answers forms hforms).2 forms' hforms']
  case cons => exact fun htemplate _ => determinedItems_cons htemplate

end Value

/-! ### What the evaluator does with a template -/

/-- A template comes to itself with the answers to its holes, which are evaluated in the
frame, once each and in order; nothing else happens, and the answers decide the form.  If a
hole fails, the template fails with it, and no later hole has been looked at. -/
theorem Machine.fill_template (m : Machine) (frame : FrameId) {template : Value}
    {holes : List Hole} (htemplate : Template template holes) (w : World) :
    (∀ answers w', m.answers frame holes w = (.ok answers, w') →
      ∃ form, m.fill frame template w = (.ok form, w') ∧
        ∀ other, Filled template answers other ↔ other = form) ∧
    ∀ before hole after answers w₁ f w₂, holes = before ++ hole :: after →
      m.answers frame before w = (.ok answers, w₁) → m.answer frame hole w₁ = (.failed f, w₂) →
        m.fill frame template w = (.failed f, w₂) := by
  have hfills : m.Fills frame template holes := fills_of_template htemplate
  have hruns := hfills w
  constructor
  · intro answers w' hanswers
    rw [hanswers] at hruns
    generalize m.fill frame template w = result at hruns ⊢
    cases hruns with
    | @ok _ form hfilled =>
        have honly := (Value.determined_of_template htemplate answers form hfilled).2
        exact ⟨form, rfl, fun other => ⟨honly other, fun heq => heq ▸ hfilled⟩⟩
  · rintro before hole after answers w₁ f w₂ rfl hbefore hhole
    have hanswers : m.answers frame (before ++ hole :: after) w = (.failed f, w₂) := by
      rw [m.answers_append, Eval.bind_of_ok hbefore, Eval.bind_run, Machine.answers, Eval.bind_run,
        hhole]
    rw [hanswers] at hruns
    generalize m.fill frame template w = result at hruns ⊢
    cases hruns
    rfl

/-- The template `(f ,x (g ,,,xs))`, where `x` and `xs` are bound and where nothing is. -/
theorem Machine.fill_template_bound :
    let name := fun text => Value.sym (.intern text)
    let template : Value := .ofList [name "f", .ofList [name "unquote", name "x"],
      .ofList [name "g", .ofList [name "unquote-splice", name "xs"]]]
    let holes : List Hole := [.value (name "x"), .elements (name "xs")]
    let w : World := { heap := { frames := ⟨#[{ bindings := [(.intern "x", .keyword "a"),
      (.intern "xs", .ofList [.nil, .str "b"])] }]⟩ } }
    Template template holes ∧
      (run 1).fill Heap.global template w =
        (.ok (.ofList [name "f", .keyword "a", .ofList [name "g", .nil, .str "b"]]), w) ∧
      (run 1).fill Heap.global template {} = (.failed (.unboundSymbol "x"), {}) := by
  intro name template holes w
  have hplain : ∀ text, SpecialForm.ofName? text = none → ∀ items form,
      Value.headForm? (name text :: items) ≠ some form := by
    intro text htext items form hhead
    exact absurd (htext.symm.trans hhead) nofun
  have hname : ∀ text, Template (name text) [] := fun text => .literal nofun
  have htemplate : Template template holes :=
    .list (hplain "f" rfl _ _) (hplain "f" rfl _ _)
      (.cons (hname "f") (.cons (.value rfl)
        (.cons (.list (hplain "g" rfl _ _) (hplain "g" rfl _ _)
          (.cons (hname "g") (.elements rfl .nil))) .nil)))
  have hanswers : (run 1).answers Heap.global holes w =
      (.ok [[.keyword "a"], [.nil, .str "b"]], w) := by with_unfolding_all rfl
  obtain ⟨form, hrun, honly⟩ := ((run 1).fill_template Heap.global htemplate w).1 _ w hanswers
  have hkept : ∀ text, Filled (name text) [] (name text) := fun text => .literal nofun
  have hfilled : Filled template [[.keyword "a"], [.nil, .str "b"]]
      (.ofList [name "f", .keyword "a", .ofList [name "g", .nil, .str "b"]]) :=
    .list (hplain "f" rfl _ _) (hplain "f" rfl _ _)
      (.cons (hkept "f") (.cons (.value rfl (.keyword "a"))
        (.cons (.list (hplain "g" rfl _ _) (hplain "g" rfl _ _)
          (.cons (hkept "g") (.elements rfl [.nil, .str "b"] .nil))) .nil)))
  refine ⟨htemplate, ?_, ?_⟩
  · rw [hrun, (honly _).mp hfilled]
  · have hfailed : (run 1).answer Heap.global (.value (name "x")) {} =
        (.failed (.unboundSymbol "x"), {}) := by with_unfolding_all rfl
    exact ((run 1).fill_template Heap.global htemplate {}).2 [] _ _ [] {} _ {} rfl rfl hfailed

end Lisp
