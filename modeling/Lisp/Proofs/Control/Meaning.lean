import Lisp.Prelude
import Lisp.Proofs.Expansions
import Lisp.Proofs.Outcomes
import Lisp.Reader

/-!
# What the control macros mean

The prelude writes `and`, `or` and `cond` as macros that expand to a test of their first
operand and to a call of themselves on the rest.  What such a call is meant to do can be
said without its expansions.  `ControlMacro.plan` says which operand is the condition of a
call and what its truth decides; a call is a sequence of **rounds**, each of which
evaluates one condition once (`ControlMacro.Round`), and what the rounds come to is what
the call means (`ControlMacro.Means`).

The expansions leave traces all the same, and the meaning allows for them.

* Between two rounds there are new frames and new symbols, and expansions may have been
  remembered.  Everything else is as it was (`ControlMacro.Quiet`).
* The value of a condition of `or` is held in a frame made for it, and later operands are
  evaluated inside that frame.  It binds a fresh symbol that no operand mentions, so all
  variables of an operand are still those of the frame of the call (`World.SeesAlike`).
* An expansion that is remembered may be that of operands that structural equality does
  not tell apart from those of the call (`World.Stands`).

All of this is for calls that find the macro, and the definitions of the prelude and of
the core that its text refers to, at each round (`ControlMacro.Ready`).
-/

namespace Lisp

/-! ### Plans -/

/-- The macros of the prelude that decide which of their operands are evaluated. -/
inductive ControlMacro where
  | conjunction
  | disjunction
  | conditional
  deriving DecidableEq

/-- How a call goes on: with a constant, with the value of the condition, with the value
of a form in its place, or with a call of the same macro. -/
inductive Turn where
  | constant (v : Value)
  | held
  | form (f : Value)
  | again (operands : List Value)

/-- How a call starts: without a condition, with one whose truth alone matters, or with one
whose value is held as well. -/
inductive Plan where
  | done (turn : Turn)
  | test (condition : Value) (yes no : Turn)
  | hold (condition : Value) (yes no : Turn)

namespace ControlMacro

/-- The name of a macro. -/
def name : ControlMacro → String
  | .conjunction => "and"
  | .disjunction => "or"
  | .conditional => "cond"

/-- The symbol that a macro is defined as. -/
def symbol (c : ControlMacro) : Symbol := .intern c.name

/-- The plan of a call: `and` and `or` test one operand after another and have the value of
the last one; `cond` tests the first one of two, unless that is the keyword `:else`. -/
def plan : ControlMacro → List Value → Plan
  | .conjunction, [] => .done (.constant (.bool true))
  | .conjunction, [last] => .done (.form last)
  | .conjunction, f :: rest => .test f (.again rest) (.constant (.bool false))
  | .disjunction, [] => .done (.constant (.bool false))
  | .disjunction, f :: rest => .hold f .held (.again rest)
  | .conditional, [] => .done (.constant .nil)
  | .conditional, test :: clauses =>
    if test.same (.keyword "else") then .done (.form (clauses.headD .nil))
    else .test test (.form (clauses.headD .nil)) (.again clauses.tail)

theorem plan_conditional (test : Value) (clauses : List Value) :
    plan .conditional (test :: clauses) =
      if test.same (.keyword "else") then .done (.form (clauses.headD .nil))
      else .test test (.form (clauses.headD .nil)) (.again clauses.tail) :=
  rfl

end ControlMacro

/-! ### Expansions -/

namespace Value

mutual

/-- A symbol occurs in a form. -/
def mentions (s : Symbol) : Value → Bool
  | .sym t => t == s
  | .list items _ => anyMentions s items
  | _ => false

/-- A symbol occurs in some form of a list. -/
def anyMentions (s : Symbol) : List Value → Bool
  | [] => false
  | v :: rest => mentions s v || anyMentions s rest

end

/-- The call of what an interned symbol names. -/
def named (head : String) (operands : List Value) (source : Option Span) : Value :=
  .list (symbol head :: operands) source

end Value

/-- A turn is written as a form, if the value of the condition is bound to the symbol. -/
inductive Turn.Written (c : ControlMacro) (hidden : Option Symbol) : Turn → Value → Prop
  | constant {v : Value} (hv : ∀ (m : Machine) frame, m.evalStep frame v = pure v) :
      Written c hidden (.constant v) v
  | held {s : Symbol} (hs : hidden = some s) : Written c hidden .held (.sym s)
  | form (f : Value) : Written c hidden (.form f) f
  | again (operands : List Value) (source : Option Span) :
      Written c hidden (.again operands) (.list (.sym c.symbol :: operands) source)

namespace ControlMacro

/-- The form is an expansion of a call: its plan, written down.  A value is held under a
symbol of its own. -/
inductive Expands (c : ControlMacro) (operands : List Value) : Value → Prop
  | done {turn : Turn} {form : Value} (hplan : c.plan operands = .done turn)
      (hform : turn.Written c none form) : Expands c operands form
  | test {f yes no : Value} {onYes onNo : Turn} (hplan : c.plan operands = .test f onYes onNo)
      (hyes : onYes.Written c none yes) (hno : onNo.Written c none no) (source : Option Span) :
      Expands c operands (.named "if" [f, yes, no] source)
  | hold {f yes no : Value} {onYes onNo : Turn} {s : Symbol}
      (hplan : c.plan operands = .hold f onYes onNo) (hs : s.isInterned = false)
      (hhidden : Value.anyMentions s operands = false) (hyes : onYes.Written c (some s) yes)
      (hno : onNo.Written c (some s) no) (pair branch source : Option Span) :
      Expands c operands
        (.named "let" [.list [.sym s, f] pair, .named "if" [.sym s, yes, no] branch] source)

/-- The name of the only parameter of a macro, which takes all operands. -/
def parameter : ControlMacro → String
  | .conditional => "clauses"
  | _ => "forms"

/-- The parameters of a macro, as they are read from the prelude. -/
def params (c : ControlMacro) (spans : Nat → Option Span) : List Value :=
  [.named "..." [.symbol c.parameter] (spans 0)]

/-- The body of a macro, as it is read from the prelude. -/
def body (c : ControlMacro) (spans : Nat → Option Span) : Value :=
  let operands := Value.symbol c.parameter
  match c with
  | .conjunction =>
    .named "if" [.named "empty?" [operands] (spans 1), .bool true,
      .named "if" [.named "empty?" [.named "rest" [operands] (spans 2)] (spans 3),
        .named "first" [operands] (spans 4),
        .named "quasi-quote"
          [.named "if"
            [.named "unquote" [.named "first" [operands] (spans 5)] (spans 6),
              .named "and"
                [.named "unquote-splice" [.named "rest" [operands] (spans 7)] (spans 8)] (spans 9),
              .bool false] (spans 10)] (spans 11)] (spans 12)] (spans 13)
  | .disjunction =>
    .named "if" [.named "empty?" [operands] (spans 1), .bool false,
      .named "let"
        [.list [.symbol "value", .named "unique-sym" [.str "or"] (spans 2)] (spans 3),
          .named "quasi-quote"
            [.named "let"
              [.list
                [.named "unquote" [.symbol "value"] (spans 4),
                  .named "unquote" [.named "first" [operands] (spans 5)] (spans 6)] (spans 7),
                .named "if"
                  [.named "unquote" [.symbol "value"] (spans 8),
                    .named "unquote" [.symbol "value"] (spans 9),
                    .named "or"
                      [.named "unquote-splice" [.named "rest" [operands] (spans 10)] (spans 11)]
                      (spans 12)] (spans 13)] (spans 14)] (spans 15)] (spans 16)] (spans 17)
  | .conditional =>
    .named "if" [.named "empty?" [operands] (spans 1), .nil,
      .named "let"
        [.list
          [.named "List"
            [.symbol "test", .symbol "result", .named "..." [.symbol "more"] (spans 2)] (spans 3),
            operands] (spans 4),
          .named "if"
            [.named "=" [.symbol "test", .keyword "else"] (spans 5), .symbol "result",
              .named "quasi-quote"
                [.named "if"
                  [.named "unquote" [.symbol "test"] (spans 6),
                    .named "unquote" [.symbol "result"] (spans 7),
                    .named "cond" [.named "unquote-splice" [.symbol "more"] (spans 8)] (spans 9)]
                  (spans 10)] (spans 11)] (spans 12)] (spans 13)] (spans 14)

/-- The definition of a macro in the prelude. -/
def definition (c : ControlMacro) : Value :=
  .named "def-macro" [.symbol c.name, .ofList (c.params fun _ => none), c.body fun _ => none] none

/-- The definition of a macro, as the prelude has it. -/
def text : ControlMacro → String
  | .conjunction => Prelude.conjunction
  | .disjunction => Prelude.disjunction
  | .conditional => Prelude.conditional

/-- The text is read as one form, the given one but for its spans. -/
def readsAs (text : String) (form : Value) : Bool :=
  match read text Prelude.label true with
  | .ok forms => Value.sameItems forms [form]
  | .error _ => false

/-- What a text is read as, said of its characters. -/
theorem readsAs_ofList {text : String} {cs : List Char} (htext : text = String.ofList cs)
    {form : Value}
    (hforms : (Reader.readForms true (cs.length + 1) [] ⟨Prelude.label, text, 0, cs⟩).toOption.any
      (Value.sameItems · [form]) = true) : readsAs text form = true := by
  have hread : read text Prelude.label true =
      Reader.readForms true (cs.length + 1) [] ⟨Prelude.label, text, 0, cs⟩ := by
    rw [htext]
    unfold read Cursor.start
    rw [String.toList_ofList]
  rw [← hread] at hforms
  unfold readsAs
  cases h : read text Prelude.label true with
  | ok forms =>
      rw [h] at hforms
      exact hforms
  | error f =>
      rw [h] at hforms
      cases hforms

/-- The prelude defines each of the macros. -/
theorem exists_definition (c : ControlMacro) :
    (∃ before after, Prelude.text = before ++ c.text ++ after) ∧
      readsAs c.text c.definition = true := by
  have hdefinition : readsAs c.text c.definition = true := by
    -- the characters are given to the kernel, which is slow at getting them out of a text
    cases c with
    | conjunction =>
        refine readsAs_ofList (by rw [text, Prelude.conjunction]) ?_
        decide +kernel
    | disjunction =>
        refine readsAs_ofList (by rw [text, Prelude.disjunction]) ?_
        decide +kernel
    | conditional =>
        refine readsAs_ofList (by rw [text, Prelude.conditional]) ?_
        decide +kernel
  refine ⟨?_, hdefinition⟩
  cases c with
  | conjunction =>
      exact ⟨Prelude.definitions, Prelude.disjunction ++ (Prelude.conditional ++
        Prelude.procedures), by simp only [Prelude.text, text, String.append_assoc]⟩
  | disjunction =>
      exact ⟨Prelude.definitions ++ Prelude.conjunction, Prelude.conditional ++
        Prelude.procedures, by simp only [Prelude.text, text, String.append_assoc]⟩
  | conditional =>
      exact ⟨Prelude.definitions ++ Prelude.conjunction ++ Prelude.disjunction,
        Prelude.procedures, rfl⟩

/-- The closure is the macro, as the prelude defines it. -/
def IsDefined (c : ControlMacro) (closure : Closure) : Prop :=
  ∃ spans name, closure =
    { params := c.params spans, body := [c.body spans], frame := Heap.global, expands := true,
      name }

/-- What is remembered for a macro are expansions of calls that structural equality does
not tell apart from those they are remembered for. -/
def Recalls (c : ControlMacro) (id : ClosureId) (w : World) : Prop :=
  ∀ e ∈ w.expansions, e.closure = id →
    ∃ known, Interchangeable known e.operands ∧ c.Expands known e.result

end ControlMacro

/-! ### Worlds in which a call finds what it needs -/

/-- A core interface has its core implementation for these tags. -/
def World.Implements (w : World) (i : CoreInterface) (key : List TypeTag) (op : CoreOp) : Prop :=
  ∃ interface, w.heap.interfaces[i.id]? = some interface ∧ interface.arity = key.length ∧
    interface.implementation? key = some (.builtin (.core op))

/-- The global names that the macros use. -/
def ControlMacro.vocabulary : List (String × Value) :=
  [("empty?", .interface CoreInterface.isEmpty.id), ("first", .interface CoreInterface.first.id),
    ("rest", .interface CoreInterface.rest.id), ("=", .builtin (.number .equal)),
    ("unique-sym", .builtin (.reflection .uniqueSymbol))]

/-- The frame sees the value under the interned symbol of the name. -/
def World.Sees (w : World) (frame : FrameId) (name : String) (v : Value) : Prop :=
  w.heap.frames.lookup frame (.intern name) = some v

/-- The frame sees what the macros use under its own names, with the core implementations
in place. -/
structure World.Offers (w : World) (frame : FrameId) : Prop where
  names : ∀ entry ∈ ControlMacro.vocabulary, w.Sees frame entry.1 entry.2
  isEmpty : w.Implements .isEmpty [.list] .listIsEmpty
  first : w.Implements .first [.list] .listFirst
  rest : w.Implements .rest [.list] .listRest
  equals : ∀ tag, w.Implements .equals [tag, .keyword] .equals

/-- A call in the frame finds the macro, and the macro what it uses. -/
structure ControlMacro.Ready (c : ControlMacro) (frame : FrameId) (w : World) : Prop where
  offers : w.Offers Heap.global
  found : ∃ id closure, w.Sees frame c.name (.closure id) ∧
    w.heap.closures[id]? = some closure ∧ c.IsDefined closure ∧ c.Recalls id w

/-! ### Quiet changes -/

/-- The second table has the frames of the first one, and maybe more. -/
structure Frames.Within (fs gs : Frames) : Prop where
  size_le : fs.size ≤ gs.size
  get? : ∀ id < fs.size, gs.get? id = fs.get? id

/-- Expansions of calls have been remembered, and nothing else. -/
def ControlMacro.Remembers (c : ControlMacro) : List Expansion → List Expansion → Prop :=
  Relation.ReflTransGen fun old new => ∃ id operands result,
    c.Expands operands result ∧ new = Machine.remember id operands result old

/-- The second world differs from the first one in what the expansion of a call leaves
behind, and in depth. -/
structure ControlMacro.Quiet (c : ControlMacro) (w u : World) : Prop where
  frames : w.heap.frames.Within u.heap.frames
  serials : w.heap.serials ≤ u.heap.serials
  expansions : c.Remembers w.expansions u.expansions
  rest : ∃ frames serials depth expansions,
    u = { w with heap := { w.heap with frames, serials }, depth, expansions }

namespace World

/-- Operands that a call may stand for: its own, or if expansions are remembered, operands
that structural equality does not tell apart from them. -/
def Stands (w : World) (known operands : List Value) : Prop :=
  Interchangeable known operands ∧ (w.options.expansionCache = false → known = operands)

/-- The fresh symbols that the forms mention have been made. -/
def HasMade (w : World) (forms : List Value) : Prop :=
  ∀ s n, Value.anyMentions s forms = true → s.serial = some n → n < w.heap.serials

/-- Two frames see the same values of all symbols that the forms mention. -/
def SeesAlike (w : World) (home frame : FrameId) (forms : List Value) : Prop :=
  ∀ s, Value.anyMentions s forms = true →
    w.heap.frames.lookup frame s = w.heap.frames.lookup home s

/-- The second world is the first one with the value bound to the symbol, if there is one,
and at some depth. -/
def Holds (w : World) (frame : FrameId) (hidden : Option Symbol) (v : Value) (u : World) : Prop :=
  ∃ depth, u = { w with
    heap := { w.heap with
      frames := hidden.elim w.heap.frames fun s => w.heap.frames.define frame s v }
    depth }

end World

/-! ### Rounds -/

namespace ControlMacro

/-- A call in `frame` comes to the evaluation of its condition in `inner`: in the frame of
the call, or in a new one if its value is to be held there under a symbol that no operand
mentions. -/
inductive Opens (c : ControlMacro) (frame : FrameId) (operands : List Value) (w : World) :
    (condition : Value) → (yes no : Turn) → (hidden : Option Symbol) → (inner : FrameId) →
      World → Prop
  | test {known : List Value} {condition : Value} {yes no : Turn} {u : World}
      (hknown : w.Stands known operands) (hplan : c.plan known = .test condition yes no)
      (hquiet : c.Quiet w u) : Opens c frame operands w condition yes no none frame u
  | hold {known : List Value} {condition : Value} {yes no : Turn} {s : Symbol} {inner : FrameId}
      {u : World} (hknown : w.Stands known operands)
      (hplan : c.plan known = .hold condition yes no) (hquiet : c.Quiet w u)
      (hnew : w.heap.frames.size ≤ inner)
      (hinner : u.heap.frames.get? inner = some { outer := some frame, label := "let" })
      (hs : s.isInterned = false) (hhidden : Value.anyMentions s operands = false) :
      Opens c frame operands w condition yes no (some s) inner u

/-- One round of a call in `frame` whose variables are those of `home`: the turn it takes,
the value of its condition, and the frame and the world in which it goes on.  The condition
is evaluated once, and its value made a truth value once.  If either breaks off, so does
the round. -/
inductive Round (c : ControlMacro) (home frame : FrameId) (operands : List Value) (w : World) :
    FrameId → Answer (Turn × Value) → World → Prop
  | done {known : List Value} {turn : Turn} {u : World} (hknown : w.Stands known operands)
      (hplan : c.plan known = .done turn) (hquiet : c.Quiet w u) :
      Round c home frame operands w frame (.ok (turn, .nil)) u
  | decided {condition v : Value} {yes no : Turn} {hidden : Option Symbol} {inner : FrameId}
      {truth : Bool} {u u₁ u₂ u₃ : World}
      (hopens : c.Opens frame operands w condition yes no hidden inner u)
      (hsees : u.SeesAlike home inner operands)
      (hvalue : ComesTo (fun m => m.value inner condition) u (.ok v) u₁)
      (hholds : u₁.Holds inner hidden v u₂)
      (htruth : ComesTo (fun m => m.toBool v) u₂ (.ok truth) u₃) :
      Round c home frame operands w inner (.ok (if truth then yes else no, v)) u₃
  | unvalued {condition : Value} {yes no : Turn} {hidden : Option Symbol} {inner : FrameId}
      {a : Answer Value} {b : Answer (Turn × Value)} {u u₁ : World}
      (hopens : c.Opens frame operands w condition yes no hidden inner u)
      (hsees : u.SeesAlike home inner operands)
      (hvalue : AmountsTo (fun m => m.value inner condition) u a u₁) (hbreaks : a.Breaks b) :
      Round c home frame operands w inner b u₁
  | undecided {condition v : Value} {yes no : Turn} {hidden : Option Symbol} {inner : FrameId}
      {a : Answer Bool} {b : Answer (Turn × Value)} {u u₁ u₂ u₃ : World}
      (hopens : c.Opens frame operands w condition yes no hidden inner u)
      (hsees : u.SeesAlike home inner operands)
      (hvalue : ComesTo (fun m => m.value inner condition) u (.ok v) u₁)
      (hholds : u₁.Holds inner hidden v u₂)
      (htruth : AmountsTo (fun m => m.toBool v) u₂ a u₃) (hbreaks : a.Breaks b) :
      Round c home frame operands w inner b u₃

/-- What the rest of a call amounts to, given its next turn and the value held for it: round
after round up to one that breaks off or goes on with no call.  A form in the place of the
call has the last word. -/
inductive Means (c : ControlMacro) (home : FrameId) :
    FrameId → Turn → Value → World → Answer Value → World → Prop
  | constant {frame : FrameId} (v held : Value) (w : World) (depth : Nat) :
      Means c home frame (.constant v) held w (.ok v) (w.atDepth depth)
  | held {frame : FrameId} (v : Value) (w : World) (depth : Nat) :
      Means c home frame .held v w (.ok v) (w.atDepth depth)
  | form {frame : FrameId} {f held : Value} {w u : World} {a b : Answer Value}
      (hsees : w.SeesAlike home frame [f]) (hform : AmountsTo (fun m => m.eval frame f) w a u)
      (harrives : a.Arrives b) (depth : Nat) :
      Means c home frame (.form f) held w b (u.atDepth depth)
  | again {frame inner : FrameId} {operands : List Value} {held v : Value} {turn : Turn}
      {w u w' : World} {a : Answer Value}
      (hround : c.Round home frame operands w inner (.ok (turn, v)) u)
      (hrest : Means c home inner turn v u a w') :
      Means c home frame (.again operands) held w a w'
  | broken {frame inner : FrameId} {operands : List Value} {held : Value} {w u : World}
      {a : Answer (Turn × Value)} {b : Answer Value}
      (hround : c.Round home frame operands w inner a u) (hbreaks : a.Breaks b) (depth : Nat) :
      Means c home frame (.again operands) held w b (u.atDepth depth)

/-- The calls that a call comes to, round after round. -/
inductive Reaches (c : ControlMacro) (home : FrameId) (operands : List Value) (w : World) :
    FrameId → List Value → World → Prop
  | start : Reaches c home operands w home operands w
  | next {frame inner : FrameId} {here rest : List Value} {v : Value} {u u' : World}
      (h : Reaches c home operands w frame here u)
      (hround : c.Round home frame here u inner (.ok (.again rest, v)) u') :
      Reaches c home operands w inner rest u'

/-- A call that nothing gets in the way of: at each round the macro and what it uses are
found, and no condition defines names in the frame that is made for its value.  The fresh
symbols that the operands mention have been made. -/
structure Undisturbed (c : ControlMacro) (home : FrameId) (operands : List Value)
    (w : World) : Prop where
  ready : ∀ frame here u, c.Reaches home operands w frame here u → c.Ready frame u
  apart : ∀ frame here u condition yes no s inner u₁ v u₂,
    c.Reaches home operands w frame here u →
      c.Opens frame here u condition yes no (some s) inner u₁ →
        ComesTo (fun m => m.value inner condition) u₁ (.ok v) u₂ →
          u₂.heap.frames.get? inner = u₁.heap.frames.get? inner
  made : w.HasMade operands

end ControlMacro

end Lisp
