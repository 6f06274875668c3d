import Lisp.Proofs.Control.Steps

/-!
# What the control macros expand to

The text of each macro is worked out from its operands.  The macro gets a frame with all
operands in a list; `or` then makes a frame and a fresh symbol for the value of its first
operand, and `cond` takes its operands apart in a frame of its own.  What comes out is the
plan of the call, written down (`ControlMacro.IsDefined.expansion`), and with expansions
remembered, the plan of a call that this one may stand for (`ControlMacro.Ready.expansion`).
Nothing but new frames, a new symbol and what is remembered is left behind.
-/

namespace Lisp

namespace World

variable {w : World} {frame : FrameId} {name other : String} {v x : Value}

/-- A new frame sees what the frame around it sees. -/
theorem Sees.opened (h : w.Sees frame name v) (label : String) :
    (w.opened frame label).Sees w.heap.frames.size name v :=
  (w.heap.frames.lookup_extend (Frames.lt_size_of_lookup h) label _).trans h

/-- A definition of another name hides nothing. -/
theorem Sees.bound (h : w.Sees frame name v) (hname : name ≠ other) (inner : FrameId) :
    (w.bound inner (.intern other) x).Sees frame name v :=
  (w.heap.frames.lookup_define_of_ne inner x
    (fun heq => hname (congrArg Symbol.name heq)) frame).trans h

/-- A name is seen in the frame that it has just been defined in. -/
theorem sees_bound (hframe : frame < w.heap.frames.size) (name : String) (v : Value) :
    (w.bound frame (.intern name) v).Sees frame name v :=
  w.heap.frames.lookup_define_self (.intern name) v hframe

theorem size_opened (w : World) (outer : FrameId) (label : String) :
    w.heap.frames.size < (w.opened outer label).heap.frames.size := by
  unfold opened
  rw [Frames.size_extend]
  exact Nat.lt_succ_self _

theorem size_bound (w : World) (frame : FrameId) (s : Symbol) (v : Value) :
    (w.bound frame s v).heap.frames.size = w.heap.frames.size :=
  w.heap.frames.size_define frame s v

namespace Offers

theorem sees (h : w.Offers frame) (hentry : (name, v) ∈ ControlMacro.vocabulary) :
    w.Sees frame name v :=
  h.names (name, v) hentry

/-- A new frame offers what the frame around it offers. -/
theorem opened (h : w.Offers frame) (label : String) :
    (w.opened frame label).Offers w.heap.frames.size :=
  { h with names := fun entry hentry => (h.names entry hentry).opened label }

/-- So does a frame with the definition of a name that the macros do not use. -/
theorem bound (h : w.Offers frame) (hname : ∀ entry ∈ ControlMacro.vocabulary, entry.1 ≠ name)
    (inner : FrameId) (v : Value) : (w.bound inner (.intern name) v).Offers frame :=
  { h with names := fun entry hentry => (h.names entry hentry).bound (hname entry hentry) inner }

variable {form : Value} {items : List Value} {source span : Option Span}

/-- Whether a list is empty. -/
theorem isEmpty_call (h : w.Offers frame) (hspread : form.spreadOperand? = none)
    (hmarker : form.isSpliceMarker = false)
    (hform : TakesTo (fun m => m.eval frame form) w (.list items span) w) :
    TakesTo (fun m => m.eval frame (.named "empty?" [form] source)) w (.bool items.isEmpty) w :=
  .core rfl (h.sees (by simp [ControlMacro.vocabulary])) h.isEmpty
    hspread hmarker hform fun _ => rfl

/-- The first element of a list. -/
theorem first_call (h : w.Offers frame) (hspread : form.spreadOperand? = none)
    (hmarker : form.isSpliceMarker = false)
    (hform : TakesTo (fun m => m.eval frame form) w (.list items span) w) :
    TakesTo (fun m => m.eval frame (.named "first" [form] source)) w (items.headD .nil) w :=
  .core rfl (h.sees (by simp [ControlMacro.vocabulary])) h.first
    hspread hmarker hform fun _ => by cases items <;> rfl

/-- The other elements of a list. -/
theorem rest_call (h : w.Offers frame) (hspread : form.spreadOperand? = none)
    (hmarker : form.isSpliceMarker = false)
    (hform : TakesTo (fun m => m.eval frame form) w (.list items span) w) :
    TakesTo (fun m => m.eval frame (.named "rest" [form] source)) w (.ofList items.tail) w :=
  .core rfl (h.sees (by simp [ControlMacro.vocabulary])) h.rest
    hspread hmarker hform fun _ => rfl

/-- Whether a value is a keyword. -/
theorem equal_call (h : w.Offers frame) (hname : w.Sees frame name v) (keyword : String)
    (hmarker : (Value.symbol name).isSpliceMarker = false) :
    TakesTo (fun m => m.eval frame (.named "=" [.symbol name, .keyword keyword] source)) w
      (.bool (v.same (.keyword keyword))) w := by
  have hequal : ∀ m : Machine, m.equal v (.keyword keyword) =
      pure (v.same (.keyword keyword)) := by
    intro m
    rw [Machine.equal.eq_def]
    cases v <;> rfl
  have hcore : TakesTo (fun m => m.callBuiltin (.core .equals) [v, .keyword keyword]) w
      (.bool (v.same (.keyword keyword))) w :=
    (TakesTo.pure _ w).congr fun m => by
      show (do return Value.bool (← m.equal v (.keyword keyword))) = _
      rw [hequal m]
      rfl
  have hdispatch : TakesTo (fun m => m.dispatchBool .equals [v, .keyword keyword]) w
      (v.same (.keyword keyword)) w :=
    (TakesTo.interface (h.equals v.tag) hcore).bind (TakesTo.pure _ w)
  have hneighbours : ∀ m : Machine, m.callBuiltin (.number .equal) [v, .keyword keyword] =
      m.dispatchBool .equals [v, .keyword keyword] >>= fun same => pure (.bool same) := by
    intro m
    show (do return Value.bool (← m.allEqual [v, .keyword keyword])) = _
    unfold Machine.allEqual Machine.allEqual
    rw [bind_assoc]
    congr
    funext same
    cases same <;> rfl
  have hnumber := (hdispatch.bind (TakesTo.pure (Value.bool (v.same (.keyword keyword))) w)).congr
    hneighbours
  have hequals : w.Sees frame "=" (.builtin (.number .equal)) :=
    h.sees (by simp [ControlMacro.vocabulary])
  have hbuiltin : ∀ id, Value.builtin (.number .equal) ≠ .closure id := by
    intro id hid
    cases hid
  exact .call rfl hequals hbuiltin
    (.operands_cons rfl hmarker (.name hname)
      (.operands_cons rfl rfl (.constant fun _ => rfl) .operands_nil))
    (.builtin hnumber)

/-- A fresh symbol. -/
theorem uniqueSymbol_call (h : w.Offers frame) (name : String) :
    TakesTo (fun m => m.eval frame (.named "unique-sym" [.str name] source)) w
      (.sym (.fresh w.heap.serials ("#" ++ name)))
      { w with heap := { w.heap with serials := w.heap.serials + 1 } } := by
  have hname : w.Sees frame "unique-sym" (.builtin (.reflection .uniqueSymbol)) :=
    h.sees (by simp [ControlMacro.vocabulary])
  exact .call rfl hname nofun (.operands_cons rfl rfl (.constant fun _ => rfl) .operands_nil)
    (.builtin (.of_run fun _ _ _ => rfl))

end Offers

end World

/-- The calls of two names are different forms. -/
theorem Value.named_ne {head head' : String} (h : head ≠ head') {operands : List Value}
    {source : Option Span} (operands' : List Value) (source' : Option Span) :
    named head operands source ≠ named head' operands' source' := by
  intro heq
  injection heq with hitems
  injection hitems with hhead
  injection hhead with hsymbol
  exact h (congrArg Symbol.name hsymbol)

namespace ControlMacro

variable {w : World} {frame : FrameId} {operands : List Value}

/-- New frames and new symbols are quiet changes. -/
theorem Quiet.of_tables {c : ControlMacro} {frames : Frames} {serials : Nat}
    (hframes : w.heap.frames.Within frames) (hserials : w.heap.serials ≤ serials) :
    c.Quiet w { w with heap := { w.heap with frames, serials } } where
  frames := hframes
  serials := hserials
  expansions := .refl
  rest := ⟨_, _, _, _, rfl⟩

theorem Quiet.trans {c : ControlMacro} {u v : World} (hwu : c.Quiet w u) (huv : c.Quiet u v) :
    c.Quiet w v where
  frames := hwu.frames.trans huv.frames
  serials := Nat.le_trans hwu.serials huv.serials
  expansions := hwu.expansions.trans huv.expansions
  rest := by
    obtain ⟨_, _, _, _, rfl⟩ := hwu.rest
    obtain ⟨_, _, _, _, rfl⟩ := huv.rest
    exact ⟨_, _, _, _, rfl⟩

/-- A change of depth alone is quiet. -/
theorem Quiet.atDepth {c : ControlMacro} (w : World) (depth : Nat) :
    c.Quiet w (w.atDepth depth) where
  frames := .refl _
  serials := Nat.le_refl _
  expansions := .refl
  rest := ⟨_, _, _, _, rfl⟩

/-- So is remembering an expansion. -/
theorem Quiet.remember {c : ControlMacro} {form : Value} (hform : c.Expands operands form)
    (w : World) (id : ClosureId) :
    c.Quiet w { w with expansions := Machine.remember id operands form w.expansions } where
  frames := .refl _
  serials := Nat.le_refl _
  expansions := .single ⟨id, operands, form, hform, rfl⟩
  rest := ⟨_, _, _, _, rfl⟩

/-- The text of `and` writes its plan down. -/
theorem conjunction_body (hoffers : w.Offers frame)
    (hforms : w.Sees frame "forms" (.ofList operands)) (spans : Nat → Option Span) :
    ∃ form, TakesTo (fun m => m.eval frame (body .conjunction spans)) w form w ∧
      Expands .conjunction operands form := by
  have hoperands : TakesTo (fun m => m.eval frame (.symbol "forms")) w (.list operands none) w :=
    .name hforms
  have hempty : TakesTo (fun m => m.eval frame (.named "empty?" [.symbol "forms"] (spans 1))) w
      (.bool operands.isEmpty) w := hoffers.isEmpty_call rfl rfl hoperands
  have hrest : ∀ source, TakesTo (fun m =>
      m.eval frame (.named "rest" [.symbol "forms"] source)) w (.list operands.tail none) w :=
    fun _ => hoffers.rest_call rfl rfl hoperands
  have hsingle : TakesTo (fun m => m.eval frame
      (.named "empty?" [.named "rest" [.symbol "forms"] (spans 2)] (spans 3))) w
        (.bool operands.tail.isEmpty) w := hoffers.isEmpty_call rfl rfl (hrest (spans 2))
  have hfirst : ∀ source, TakesTo (fun m =>
      m.eval frame (.named "first" [.symbol "forms"] source)) w (operands.headD .nil) w :=
    fun _ => hoffers.first_call rfl rfl hoperands
  rcases operands with - | ⟨f, - | ⟨g, rest⟩⟩
  · exact ⟨_, .branch hempty (.constant fun _ => rfl), .done rfl (.constant fun _ _ => rfl)⟩
  · exact ⟨_, .branch hempty (.branch hsingle (hfirst (spans 4))), .done rfl (.form f)⟩
  · refine ⟨_, .branch hempty (.branch hsingle (.quasiQuote ?_)),
      .test rfl (.again (g :: rest) (spans 9)) (.constant fun _ _ => rfl) (spans 10)⟩
    have hagain : TakesTo (fun m => m.fill frame (.named "and"
        [.named "unquote-splice" [.named "rest" [.symbol "forms"] (spans 7)] (spans 8)] (spans 9)))
          w (.named "and" (g :: rest) (spans 9)) w :=
      .fill_named (by decide) (by decide) (.fillItems_splice (hrest (spans 7)))
    exact .fill_named (by decide) (by decide)
      (.fillItems_cons (Value.named_ne (by decide)) (.fill_unquote (hfirst (spans 5)))
        (.fillItems_cons (Value.named_ne (by decide)) hagain
          (.fillItems_cons (fun _ _ => nofun) (.fill_literal fun _ => rfl) .fillItems_nil)))

/-- The template of `or`, filled in. -/
theorem disjunction_template {s : Symbol} {f : Value} {rest : List Value}
    (hoffers : w.Offers frame) (hvalue : w.Sees frame "value" (.sym s))
    (hforms : w.Sees frame "forms" (.ofList (f :: rest))) (spans : Nat → Option Span) :
    TakesTo (fun m => m.fill frame (.named "let"
      [.list
        [.named "unquote" [.symbol "value"] (spans 4),
          .named "unquote" [.named "first" [.symbol "forms"] (spans 5)] (spans 6)] (spans 7),
        .named "if"
          [.named "unquote" [.symbol "value"] (spans 8),
            .named "unquote" [.symbol "value"] (spans 9),
            .named "or"
              [.named "unquote-splice" [.named "rest" [.symbol "forms"] (spans 10)] (spans 11)]
              (spans 12)] (spans 13)] (spans 14)))
      w (.named "let"
        [.list [.sym s, f] (spans 7),
          .named "if" [.sym s, .sym s, .named "or" rest (spans 12)] (spans 13)] (spans 14)) w := by
  have hoperands : TakesTo (fun m => m.eval frame (.symbol "forms")) w (.list (f :: rest) none) w :=
    .name hforms
  have hfirst : TakesTo (fun m => m.eval frame (.named "first" [.symbol "forms"] (spans 5))) w
      f w := hoffers.first_call rfl rfl hoperands
  have hrest : TakesTo (fun m => m.eval frame (.named "rest" [.symbol "forms"] (spans 10))) w
      (.list rest none) w := hoffers.rest_call rfl rfl hoperands
  have hhole : ∀ source, TakesTo (fun m =>
      m.fill frame (.named "unquote" [.symbol "value"] source)) w (.sym s) w :=
    fun _ => .fill_unquote (.name hvalue)
  have hpair : TakesTo (fun m => m.fill frame (.list
      [.named "unquote" [.symbol "value"] (spans 4),
        .named "unquote" [.named "first" [.symbol "forms"] (spans 5)] (spans 6)] (spans 7)))
      w (.list [.sym s, f] (spans 7)) w :=
    .fill_list nofun nofun
      (.fillItems_cons (Value.named_ne (by decide)) (hhole (spans 4))
        (.fillItems_cons (Value.named_ne (by decide)) (.fill_unquote hfirst) .fillItems_nil))
  have hagain : TakesTo (fun m => m.fill frame (.named "or"
      [.named "unquote-splice" [.named "rest" [.symbol "forms"] (spans 10)] (spans 11)]
        (spans 12))) w (.named "or" rest (spans 12)) w :=
    .fill_named (by decide) (by decide) (.fillItems_splice hrest)
  exact .fill_named (by decide) (by decide)
    (.fillItems_cons (fun _ _ => nofun) hpair
      (.fillItems_cons (Value.named_ne (by decide))
        (.fill_named (by decide) (by decide)
          (.fillItems_cons (Value.named_ne (by decide)) (hhole (spans 8))
            (.fillItems_cons (Value.named_ne (by decide)) (hhole (spans 9))
              (.fillItems_cons (Value.named_ne (by decide)) hagain .fillItems_nil))))
        .fillItems_nil))

/-- The text of `or` writes its plan down, with a fresh symbol for the value. -/
theorem disjunction_body (hoffers : w.Offers frame) (hmade : w.HasMade operands)
    (hforms : w.Sees frame "forms" (.ofList operands)) (spans : Nat → Option Span) :
    ∃ form u, TakesTo (fun m => m.eval frame (body .disjunction spans)) w form u ∧
      Expands .disjunction operands form ∧ Quiet .disjunction w u := by
  have hempty : TakesTo (fun m => m.eval frame (.named "empty?" [.symbol "forms"] (spans 1))) w
      (.bool operands.isEmpty) w := hoffers.isEmpty_call rfl rfl (.name hforms)
  cases operands with
  | nil =>
      exact ⟨_, w, .branch hempty (.constant fun _ => rfl), .done rfl (.constant fun _ _ => rfl),
        .of_tables (.refl _) (Nat.le_refl _)⟩
  | cons f rest =>
      let inner := w.heap.frames.size
      let s := Symbol.fresh w.heap.serials "#or"
      let opened := w.opened frame "let"
      let counted : World := { opened with heap := { opened.heap with serials := w.heap.serials + 1 } }
      let u := counted.bound inner (.intern "value") (.sym s)
      have hoffersOpened : opened.Offers inner := hoffers.opened "let"
      have hsymbol : TakesTo (fun m => m.eval inner (.named "unique-sym" [.str "or"] (spans 2)))
          opened (.sym s) counted := hoffersOpened.uniqueSymbol_call "or"
      have hpattern : TakesTo (fun m => m.destructure .bind inner (.symbol "value") (.sym s))
          counted true u :=
        .of_run fun m _ _ => by
          unfold Value.symbol
          rw [m.destructure_name .bind inner (by decide)]
          rfl
      have hoffersInner : u.Offers inner := by
        have hcounted : counted.Offers inner := { hoffersOpened with }
        exact hcounted.bound (by decide) inner (.sym s)
      have hvalue : u.Sees inner "value" (.sym s) :=
        counted.sees_bound (w.size_opened frame "let") "value" (.sym s)
      have hformsInner : u.Sees inner "forms" (.ofList (f :: rest)) := by
        have hcounted : counted.Sees inner "forms" (.ofList (f :: rest)) := hforms.opened "let"
        exact hcounted.bound (by decide) inner
      have hhidden : Value.anyMentions s (f :: rest) = false := by
        by_contra hmentions
        exact absurd (hmade s _ (eq_true_of_ne_false hmentions) rfl) (Nat.lt_irrefl _)
      have hquiet : Quiet .disjunction w u :=
        .of_tables (((Frames.Within.refl _).extend frame "let").define (Nat.le_refl _) _ _)
          (Nat.le_succ _)
      have htemplate := disjunction_template hoffersInner hvalue hformsInner spans
      exact ⟨_, u, .branch hempty (.binding hsymbol hpattern (.quasiQuote htemplate)),
        .hold (s := s) rfl rfl hhidden (.held rfl) (.again rest (spans 12)) (spans 7) (spans 13)
          (spans 14), hquiet⟩

/-- The clauses of `cond` are taken apart in a new frame. -/
theorem conditional_clause (hoffers : w.Offers frame) (test : Value) (clauses : List Value)
    (spans : Nat → Option Span) :
    ∃ u, TakesTo (fun m => m.destructure .bind w.heap.frames.size (.named "List"
        [.symbol "test", .symbol "result", .named "..." [.symbol "more"] (spans 2)] (spans 3))
          (.ofList (test :: clauses))) (w.opened frame "let") true u ∧
      Quiet .conditional w u ∧ u.Offers w.heap.frames.size ∧
        u.Sees w.heap.frames.size "test" test ∧
          u.Sees w.heap.frames.size "result" (clauses.headD .nil) ∧
            u.Sees w.heap.frames.size "more" (.ofList clauses.tail) := by
  let inner := w.heap.frames.size
  let result := clauses.headD .nil
  let opened := w.opened frame "let"
  let tested := opened.bound inner (.intern "test") test
  let answered := tested.bound inner (.intern "result") result
  let u := answered.bound inner (.intern "more") (.ofList clauses.tail)
  have hinner : inner < opened.heap.frames.size := w.size_opened frame "let"
  have hpattern : TakesTo (fun m => m.destructure .bind inner (.named "List"
      [.symbol "test", .symbol "result", .named "..." [.symbol "more"] (spans 2)] (spans 3))
        (.ofList (test :: clauses))) opened true u := by
    refine .of_run fun m calls depth => ?_
    rw [m.destructure_bind_list]
    show m.destructureSequence .bind inner [.sym (.intern "test"), .sym (.intern "result"), _]
      _ _ = _
    rw [m.destructureSequence_bind_name inner (by decide),
      m.destructureSequence_bind_name inner (by decide),
      m.destructureSequence_bind_rest inner (by decide)]
    rfl
  have hquiet : Quiet .conditional w u :=
    .of_tables ((((((Frames.Within.refl _).extend frame "let").define (Nat.le_refl _) _ _).define
      (Nat.le_refl _) _ _)).define (Nat.le_refl _) _ _) (Nat.le_refl _)
  have hoffersInner : u.Offers inner :=
    (((hoffers.opened "let").bound (by decide) inner test).bound (by decide) inner
      result).bound (by decide) inner _
  have htest : u.Sees inner "test" test :=
    ((opened.sees_bound hinner "test" test).bound (by decide) inner).bound (by decide) inner
  have hresult : u.Sees inner "result" result := by
    have hbound : tested.heap.frames.size = opened.heap.frames.size := opened.size_bound _ _ _
    exact (tested.sees_bound (hbound ▸ hinner) "result" result).bound (by decide) inner
  have hmore : u.Sees inner "more" (.ofList clauses.tail) := by
    have hbound : answered.heap.frames.size = opened.heap.frames.size :=
      (tested.size_bound _ _ _).trans (opened.size_bound _ _ _)
    exact answered.sees_bound (hbound ▸ hinner) "more" _
  exact ⟨u, hpattern, hquiet, hoffersInner, htest, hresult, hmore⟩

/-- The text of `cond` writes its plan down. -/
theorem conditional_body (hoffers : w.Offers frame)
    (hclauses : w.Sees frame "clauses" (.ofList operands)) (spans : Nat → Option Span) :
    ∃ form u, TakesTo (fun m => m.eval frame (body .conditional spans)) w form u ∧
      Expands .conditional operands form ∧ Quiet .conditional w u := by
  have hempty : TakesTo (fun m => m.eval frame (.named "empty?" [.symbol "clauses"] (spans 1))) w
      (.bool operands.isEmpty) w := hoffers.isEmpty_call rfl rfl (.name hclauses)
  cases operands with
  | nil =>
      exact ⟨_, w, .branch hempty (.constant fun _ => rfl), .done rfl (.constant fun _ _ => rfl),
        .of_tables (.refl _) (Nat.le_refl _)⟩
  | cons test clauses =>
      obtain ⟨u, hpattern, hquiet, hoffersInner, htest, hresult, hmore⟩ :=
        conditional_clause hoffers test clauses spans
      let inner := w.heap.frames.size
      have hoperandsInner : TakesTo (fun m => m.eval inner (.symbol "clauses"))
          (w.opened frame "let") (.ofList (test :: clauses)) (w.opened frame "let") :=
        .name (hclauses.opened "let")
      have hequal : TakesTo (fun m => m.eval inner
          (.named "=" [.symbol "test", .keyword "else"] (spans 5))) u
            (.bool (test.same (.keyword "else"))) u := hoffersInner.equal_call htest "else" rfl
      have hplan := plan_conditional test clauses
      cases helse : test.same (.keyword "else") with
      | true =>
          rw [helse] at hequal hplan
          exact ⟨_, u, .branch hempty (.binding hoperandsInner hpattern
            (.branch hequal (.name hresult))), .done hplan (.form _), hquiet⟩
      | false =>
          rw [helse] at hequal hplan
          refine ⟨_, u, .branch hempty (.binding hoperandsInner hpattern
            (.branch hequal (.quasiQuote ?_))),
            .test hplan (.form _) (.again clauses.tail (spans 9)) (spans 10), hquiet⟩
          have hagain : TakesTo (fun m => m.fill inner (.named "cond"
              [.named "unquote-splice" [.symbol "more"] (spans 8)] (spans 9))) u
                (.named "cond" clauses.tail (spans 9)) u :=
            .fill_named (by decide) (by decide) (.fillItems_splice (.name hmore))
          exact .fill_named (by decide) (by decide)
            (.fillItems_cons (Value.named_ne (by decide)) (.fill_unquote (.name htest))
              (.fillItems_cons (Value.named_ne (by decide)) (.fill_unquote (.name hresult))
                (.fillItems_cons (Value.named_ne (by decide)) hagain .fillItems_nil)))

variable {c : ControlMacro}

/-- The macro expands operands to its plan for them, written down. -/
theorem IsDefined.expansion {closure : Closure} (h : c.IsDefined closure)
    (hoffers : w.Offers Heap.global) (hmade : w.HasMade operands) {id : ClosureId}
    (hid : w.heap.closures[id]? = some closure) (source : Option Span) :
    ∃ form u, TakesTo (fun m => m (.apply source (.closure id) operands)) w form u ∧
      c.Expands operands form ∧ c.Quiet w u := by
  obtain ⟨spans, name, rfl⟩ := h
  let opened := w.opened Heap.global "macro"
  let entered := opened.bound w.heap.frames.size (.intern c.parameter) (.ofList operands)
  have hparameter : Symbol.intern c.parameter ≠ SpecialForm.splice.symbol ∧
      ∀ entry ∈ vocabulary, entry.1 ≠ c.parameter := by
    cases c <;> exact ⟨by decide, by decide⟩
  have hoffersEntered : entered.Offers w.heap.frames.size :=
    (hoffers.opened "macro").bound hparameter.2 w.heap.frames.size (.ofList operands)
  have hoperands : entered.Sees w.heap.frames.size c.parameter (.ofList operands) :=
    opened.sees_bound (w.size_opened Heap.global "macro") c.parameter (.ofList operands)
  have hquiet : c.Quiet w entered :=
    .of_tables (((Frames.Within.refl _).extend Heap.global "macro").define (Nat.le_refl _) _ _)
      (Nat.le_refl _)
  have hbody : ∃ form u,
      TakesTo (fun m => m.eval w.heap.frames.size (c.body spans)) entered form u ∧
        c.Expands operands form ∧ c.Quiet entered u := by
    cases c with
    | conjunction =>
        obtain ⟨form, hform, hexpands⟩ := conjunction_body hoffersEntered hoperands spans
        exact ⟨form, entered, hform, hexpands, .of_tables (.refl _) (Nat.le_refl _)⟩
    | disjunction => exact disjunction_body hoffersEntered hmade hoperands spans
    | conditional => exact conditional_body hoffersEntered hoperands spans
  obtain ⟨form, u, hform, hexpands, hleft⟩ := hbody
  exact ⟨form, u, .closure hid hparameter.1 rfl rfl rfl hform, hexpands, hquiet.trans hleft⟩

/-- What is found in the memory is an expansion of a call that this one may stand for. -/
theorem Recalls.remembered {id : ClosureId} (h : c.Recalls id w) {form : Value}
    (hform : Machine.remembered? id operands w.expansions = some form) :
    ∃ known, Interchangeable known operands ∧ c.Expands known form := by
  unfold Machine.remembered? at hform
  obtain ⟨e, hfound, rfl⟩ := Option.map_eq_some_iff.mp hform
  have hkey := List.find?_some hfound
  simp only [Bool.and_eq_true, beq_iff_eq] at hkey
  obtain ⟨known, hknown, hexpands⟩ := h e (List.mem_of_find?_eq_some hfound) hkey.1
  exact ⟨known, .trans _ _ _ hknown (.rel _ _ hkey.2), hexpands⟩

/-- A call of the macro goes on with the expansion of a call that it may stand for. -/
theorem Ready.expansion (h : c.Ready frame w) (hmade : w.HasMade operands)
    (source : Option Span) :
    ∃ id known form u, w.Sees frame c.name (.closure id) ∧
      TakesTo (fun _ => Machine.expander? (.closure id)) w (some id) w ∧
        TakesTo (fun m => m.expand id operands source) w form u ∧
          w.Stands known operands ∧ c.Expands known form ∧ c.Quiet w u := by
  obtain ⟨hoffers, id, closure, hsees, hid, hdefined, hrecalls⟩ := h
  have hexpander : TakesTo (fun _ => Machine.expander? (.closure id)) w (some id) w := by
    have hexpands : closure.expands = true := by
      obtain ⟨spans, name, rfl⟩ := hdefined
      rfl
    refine .of_run fun m calls depth => ?_
    have hclosure : (w.under calls depth).heap.closures[id]? = some closure := hid
    unfold Machine.expander? Eval.ask
    simp only [hclosure, Option.map_some, Option.getD_some, hexpands, if_true]
  obtain ⟨form, u, happly, hexpands, hquiet⟩ := hdefined.expansion hoffers hmade hid source
  by_cases hcache : w.options.expansionCache = true
  · have hon : ¬ w.options.expansionCache = false := by simp [hcache]
    have hsearch : ∀ (m : Machine) calls depth,
        m.expand id operands source (w.under calls depth) =
          (m (.apply source (.closure id) operands)).memoized id operands (w.under calls depth) :=
      fun _ _ _ => rfl
    simp only [Eval.memoized_run, World.under, hcache, if_true] at hsearch
    cases hknown : Machine.remembered? id operands w.expansions with
    | some found =>
        simp only [hknown] at hsearch
        obtain ⟨known, halike, hfound⟩ := hrecalls.remembered hknown
        exact ⟨id, known, found, w, hsees, hexpander, .of_run hsearch,
          ⟨halike, fun hoff => absurd hoff hon⟩, hfound, .of_tables (.refl _) (Nat.le_refl _)⟩
    | none =>
        simp only [hknown] at hsearch
        let remembered : World :=
          { u with expansions := Machine.remember id operands form u.expansions }
        have hremember : TakesTo (fun m =>
            (m (.apply source (.closure id) operands)).remembering id operands) w form remembered :=
          happly.bind (.of_run fun _ _ _ => rfl)
        exact ⟨id, operands, form, remembered, hsees, hexpander,
          fun calls depth => (hremember calls depth).congr fun m => hsearch m calls depth,
          ⟨.refl _, fun _ => rfl⟩, hexpands, hquiet.trans (.remember hexpands u id)⟩
  · have hplain : ∀ (m : Machine) calls depth,
        m.expand id operands source (w.under calls depth) =
          m (.apply source (.closure id) operands) (w.under calls depth) := fun m calls depth =>
      (Eval.memoized_run _ id operands (w.under calls depth)).trans (if_neg hcache)
    exact ⟨id, operands, form, u, hsees, hexpander,
      fun calls depth => (happly calls depth).congr fun m => hplain m calls depth,
      ⟨.refl _, fun _ => rfl⟩, hexpands, hquiet⟩

end ControlMacro

end Lisp
