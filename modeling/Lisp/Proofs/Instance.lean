import Lisp.Interpreter
import Lisp.Proofs.Congruence.Forms
import Lisp.Proofs.Uninvolved

/-!
# Patterns as a relation

A **simple** pattern is built from names, literals, quoted forms and rows with or
without a rest (`Value.Simple`); it comes with the names that it binds, in order.  What
it means for a value to be an **instance** of it is a relation that knows nothing of
frames and of the machine (`Value.Instance`): a name takes anything, a literal and a
quoted form take what is structurally equal, and a row takes the elements of a value.

For values that no program has implemented anything for (`Value.Plain`), the binder
decides this relation: asked in a fresh frame whether a value fits a simple pattern with
distinct names, it always answers, and says yes to the instances only.  The fresh frame
then holds the bindings of the instance, and nothing else has changed
(`Machine.destructure_iff_instance`).

* Comparing and iterating a plain value calls nothing (`Machine.equal_plain`,
  `Machine.elements_plain`).
* A run that has bound some names is described by the bindings that it adds to the frame
  (`World.binding`); since the names are distinct, no binding replaces another one.
-/

namespace Lisp

open Value (same)

/-- Names and what they are bound to, in order. -/
abbrev Bindings := List (Symbol × Value)

/-! ### Patterns and instances -/

namespace Value

/-- The values that a pattern takes literally. -/
def IsLiteral : Value → Prop
  | .nil | .bool _ | .num _ | .str _ | .keyword _ | .list [] _ => True
  | _ => False

mutual

/-- The pattern is simple and binds the names. -/
inductive Simple : Value → List Symbol → Prop
  | name {s : Symbol} (hs : s ≠ SpecialForm.splice.symbol) : Simple (.sym s) [s]
  | literal {pattern : Value} (hliteral : pattern.IsLiteral) : Simple pattern []
  | quoted {s : Symbol} {form : Value} {source : Option Span}
      (hs : s = SpecialForm.quote.symbol) (hform : form.Proper) :
      Simple (.list [.sym s, form] source) []
  | row {s : Symbol} {patterns : List Value} {source : Option Span} {names : List Symbol}
      (hs : s = .intern "List") (hrow : SimpleRow patterns names) :
      Simple (.list (.sym s :: patterns) source) names

/-- The row of patterns is simple and binds the names. -/
inductive SimpleRow : List Value → List Symbol → Prop
  | nil : SimpleRow [] []
  | cons {pattern : Value} {patterns : List Value} {names names' : List Symbol}
      (hpattern : Simple pattern names) (hrow : SimpleRow patterns names') :
      SimpleRow (pattern :: patterns) (names ++ names')
  | spread {s : Symbol} {rest : Value} {source : Option Span} {names : List Symbol}
      (hs : s = SpecialForm.splice.symbol) (hrest : Simple rest names) :
      SimpleRow [.list [.sym s, rest] source] names
  | marked {s : Symbol} {rest : Value} {names : List Symbol}
      (hs : s = SpecialForm.splice.symbol) (hrest : Simple rest names) :
      SimpleRow [.sym s, rest] names

end

mutual

/-- The value is an instance of the pattern, with the bindings. -/
inductive Instance : (pattern value : Value) → Bindings → Prop
  | name {s : Symbol} (hs : s ≠ SpecialForm.splice.symbol) (v : Value) :
      Instance (.sym s) v [(s, v)]
  | literal {pattern v : Value} (hliteral : pattern.IsLiteral) (hsame : same pattern v) :
      Instance pattern v []
  | quoted {s : Symbol} {form v : Value} {source : Option Span}
      (hs : s = SpecialForm.quote.symbol) (hsame : same form v) :
      Instance (.list [.sym s, form] source) v []
  | row {s : Symbol} {patterns items : List Value} {v : Value} {source : Option Span}
      {bs : Bindings} (hs : s = .intern "List") (hitems : v.elements? = some items)
      (hrow : InstanceRow patterns items bs) : Instance (.list (.sym s :: patterns) source) v bs

/-- The values are instances of the row of patterns, each of its own, and the list of the
remaining ones of the pattern for the rest. -/
inductive InstanceRow : (patterns values : List Value) → Bindings → Prop
  | nil : InstanceRow [] [] []
  | cons {pattern v : Value} {patterns values : List Value} {bs cs : Bindings}
      (hfirst : Instance pattern v bs) (hrow : InstanceRow patterns values cs) :
      InstanceRow (pattern :: patterns) (v :: values) (bs ++ cs)
  | spread {s : Symbol} {rest : Value} {source : Option Span} {values : List Value}
      {bs : Bindings} (hs : s = SpecialForm.splice.symbol)
      (hrest : Instance rest (.ofList values) bs) :
      InstanceRow [.list [.sym s, rest] source] values bs
  | marked {s : Symbol} {rest : Value} {values : List Value} {bs : Bindings}
      (hs : s = SpecialForm.splice.symbol) (hrest : Instance rest (.ofList values) bs) :
      InstanceRow [.sym s, rest] values bs

end

end Value

/-! ### Plain values -/

/-- Values without elements. -/
def Value.IsScalar : Value → Prop
  | .bool _ | .num _ | .sym _ | .keyword _ => True
  | _ => False

/-- An interpreter starts out with nothing implemented for the types without elements. -/
theorem Heap.untouched_core {tag : TypeTag} (htag : tag ∈ [.bool, .num, .sym, .keyword]) :
    Heap.core.Untouched tag := by
  have hnone : [TypeTag.bool, .num, .sym, .keyword].all fun tag =>
      (Heap.core.interfaces[CoreInterface.isEmpty.id]?.bind (·.implementation? [tag])).isNone := by
    decide +kernel
  refine ⟨fun ty hty => ?_, Option.isNone_iff_eq_none.mp (List.all_eq_true.mp hnone tag htag)⟩
  subst hty
  simp at htag

namespace Value

/-- The value is made of data of builtin types and of records, and no program has
implemented anything for the types in it. -/
inductive Plain (h : Heap) : Value → Prop
  | nil : Plain h .nil
  | str (text : String) : Plain h (.str text)
  | scalar {v : Value} (hv : v.IsScalar) (htype : h.Untouched v.tag) : Plain h v
  | list {items : List Value} {source : Option Span} (hitems : ∀ x ∈ items, Plain h x) :
      Plain h (.list items source)
  | map {entries : List (Value × Value)} (hkeys : ∀ e ∈ entries, Plain h e.1)
      (hvalues : ∀ e ∈ entries, Plain h e.2) (hapart : Apart same entries) : Plain h (.map entries)
  | record {ty : RecordTypeId} {fields : List Value} (htype : h.Untouched (.record ty))
      (hfields : ∀ x ∈ fields, Plain h x) : Plain h (.record ty fields)

/-- A literal is proper. -/
theorem IsLiteral.proper {v : Value} (hv : v.IsLiteral) : v.Proper := by
  refine .whole (fun entries heq => ?_) fun x hx => ?_
  · subst heq
    exact hv
  · cases hx with
    | @item _ items _ hmem =>
        cases items with
        | nil => cases hmem
        | cons _ _ => exact hv.elim
    | _ => exact hv.elim

/-- A value without elements is proper. -/
theorem IsScalar.proper {v : Value} (hv : v.IsScalar) : v.Proper := by
  refine .whole (fun entries heq => ?_) fun x hx => ?_
  · subst heq
    exact hv
  · cases hx <;> exact hv.elim

namespace Plain

variable {h : Heap} {v : Value}

/-- The maps of a plain value have their keys apart. -/
theorem proper (hv : v.Plain h) : v.Proper := by
  induction hv with
  | nil => exact .whole (fun _ heq => nomatch heq) fun x hx => nomatch hx
  | str text => exact .whole (fun _ heq => nomatch heq) fun x hx => nomatch hx
  | scalar hv _ => exact hv.proper
  | list _ ih =>
      refine .whole (fun _ heq => nomatch heq) fun x hx => ?_
      cases hx with
      | item hmem => exact ih x hmem
  | map _ _ hapart ihKeys ihValues =>
      exact proper_map_of_apart (fun e he => ⟨ihKeys e he, ihValues e he⟩) hapart
  | record _ _ ih =>
      refine .whole (fun _ heq => nomatch heq) fun x hx => ?_
      cases hx with
      | field hmem => exact ih x hmem

/-- No program is involved in a plain value. -/
theorem uninvolved (hv : v.Plain h) : v.Uninvolved h := by
  induction hv with
  | nil => exact .nil
  | str text => exact .str text
  | @scalar v hv htype => exact .lone (by cases v <;> first | rfl | exact hv.elim) htype
  | list _ ih => exact .list ih
  | map _ _ _ ihKeys ihValues => exact .map ihKeys ihValues
  | record htype _ ih => exact .record htype ih

/-- A plain value holds no record with a declared equality. -/
theorem not_declares (hv : v.Plain h) : h.declaresEquality v = false :=
  hv.uninvolved.not_declares

/-- Elements of plain values are plain. -/
theorem elements {items : List Value} (hv : v.Plain h) (hitems : v.elements? = some items) :
    ∀ x ∈ items, x.Plain h := by
  cases hv with
  | nil =>
      cases hitems
      exact fun x hx => nomatch hx
  | str text =>
      cases hitems
      intro x hx
      obtain ⟨c, -, rfl⟩ := List.mem_map.mp hx
      exact .str _
  | scalar hv _ => cases v <;> first | exact hv.elim | cases hitems
  | list hall =>
      cases hitems
      exact hall
  | map hkeys hvalues _ =>
      cases hitems
      intro x hx
      obtain ⟨e, he, rfl⟩ := List.mem_map.mp hx
      refine .list fun y hy => ?_
      rcases List.mem_pair.mp hy with rfl | rfl
      · exact hkeys e he
      · exact hvalues e he
  | record _ hfields =>
      cases hitems
      exact hfields

/-- Frames have no say in it. -/
theorem of_frames {fs : Frames} (hv : v.Plain h) : v.Plain { h with frames := fs } := by
  induction hv with
  | nil => exact .nil
  | str text => exact .str text
  | scalar hv htype => exact .scalar hv ⟨htype.equality, htype.isEmpty⟩
  | list _ ih => exact .list ih
  | map _ _ hapart ihKeys ihValues => exact .map ihKeys ihValues hapart
  | record htype _ ih => exact .record ⟨htype.equality, htype.isEmpty⟩ ih

end Plain

end Value

namespace Machine

variable (m : Machine) {w : World} {v : Value}

/-- A plain value is compared by its structure. -/
theorem equal_plain {literal : Value} (hliteral : literal.Proper) (hv : v.Plain w.heap) :
    m.equal literal v w = (.ok (same literal v), w) :=
  m.equal_of_undeclared hliteral hv.proper (.inr hv.not_declares)

/-- A question for the elements of a plain value calls nothing. -/
theorem elements_plain (hv : v.Plain w.heap) : m.elements .test v w = (.ok v.elements?, w) :=
  m.elements_uninvolved hv.uninvolved

end Machine

/-! ### Bindings -/

/-- The world with more bindings in a frame. -/
def World.binding (w : World) (frame : FrameId) (bs : Bindings) : World :=
  { w with heap := { w.heap with frames :=
      ⟨w.heap.frames.table.modify frame fun f => { f with bindings := f.bindings ++ bs }⟩ } }

/-- The frame binds none of the names. -/
def World.Unbound (w : World) (frame : FrameId) (names : List Symbol) : Prop :=
  ∀ f, w.heap.frames.table[frame]? = some f → ∀ s ∈ names, s ∉ f.names

/-- A binding of a new name comes last. -/
theorem Frame.bindIn_eq_append {s : Symbol} (v : Value) {bs : Bindings}
    (hs : s ∉ bs.map Prod.fst) : Frame.bindIn s v bs = bs ++ [(s, v)] := by
  induction bs with
  | nil => rfl
  | cons b bs ih =>
      obtain ⟨hne, hrest⟩ := not_or.mp (mt List.mem_cons.mpr hs)
      rw [Frame.bindIn, if_neg (by simpa using hne), ih hrest]
      rfl

namespace World

variable {w : World} {frame : FrameId} {names : List Symbol}

/-- The frame, if there is one, with more bindings. -/
theorem table_binding (w : World) (frame : FrameId) (bs : Bindings) (id : FrameId) :
    (w.binding frame bs).heap.frames.table[id]? =
      if frame = id then
        (w.heap.frames.table[id]?).map fun f => { f with bindings := f.bindings ++ bs }
      else w.heap.frames.table[id]? :=
  Array.getElem?_modify

/-- Worlds that differ in their frames only are equal if these are. -/
theorem eq_of_table {w : World} {fs gs : Frames} (h : ∀ id : Nat, fs.table[id]? = gs.table[id]?) :
    { w with heap := { w.heap with frames := fs } } =
      { w with heap := { w.heap with frames := gs } } := by
  obtain ⟨table⟩ := fs
  obtain ⟨table'⟩ := gs
  obtain rfl : table = table' := Array.ext_getElem? h
  rfl

/-- No bindings change nothing. -/
theorem binding_nil (w : World) (frame : FrameId) : w.binding frame [] = w := by
  have hsame : ∀ id : Nat,
      (w.binding frame []).heap.frames.table[id]? = w.heap.frames.table[id]? := by
    intro id
    refine (w.table_binding frame [] id).trans ?_
    cases w.heap.frames.table[id]? <;> simp
  exact eq_of_table hsame

/-- Bindings add up. -/
theorem binding_binding (w : World) (frame : FrameId) (bs cs : Bindings) :
    (w.binding frame bs).binding frame cs = w.binding frame (bs ++ cs) := by
  refine eq_of_table (w := w) fun id => ?_
  refine ((w.binding frame bs).table_binding frame cs id).trans ?_
  refine Eq.trans ?_ (w.table_binding frame (bs ++ cs) id).symm
  rw [w.table_binding]
  cases w.heap.frames.table[id]? <;> split <;> simp

/-- A definition of a new name adds a binding. -/
theorem define_unbound {s : Symbol} (v : Value) (h : w.Unbound frame [s]) :
    Eval.define frame s v w = (.ok (), w.binding frame [(s, v)]) := by
  refine congrArg (Prod.mk _) (eq_of_table (w := w) fun id => ?_)
  refine Eq.trans ?_ (w.table_binding frame [(s, v)] id).symm
  refine Array.getElem?_modify.trans ?_
  split
  · next hframe =>
      subst hframe
      cases hfound : w.heap.frames.table[frame]? with
      | none => rfl
      | some f =>
          have hs := h f hfound s (List.mem_singleton_self s)
          simp [Frame.define, Frame.bindIn_eq_append v hs]
  · rfl

/-- The names of a row that are not those of its first pattern stay unbound. -/
theorem Unbound.binding {bs : Bindings} (h : w.Unbound frame names)
    (hdisjoint : ∀ s ∈ names, s ∉ bs.map Prod.fst) : (w.binding frame bs).Unbound frame names := by
  intro f hf s hs hbound
  rw [w.table_binding, if_pos rfl] at hf
  obtain ⟨g, hg, rfl⟩ := Option.map_eq_some_iff.mp hf
  have hboth : s ∈ (g.bindings ++ bs).map Prod.fst := hbound
  rw [List.map_append] at hboth
  rcases List.mem_append.mp hboth with hold | hnew
  · exact h g hg s hs hold
  · exact hdisjoint s hs hnew

end World

/-! ### Instances, constructor by constructor -/

namespace Value

variable {s : Symbol} {v : Value} {values : List Value} {source : Option Span} {bs : Bindings}

theorem instance_name (hs : s ≠ SpecialForm.splice.symbol) :
    Instance (.sym s) v bs ↔ bs = [(s, v)] := by
  constructor
  · intro h
    cases h with
    | name _ _ => rfl
    | literal hliteral _ => exact hliteral.elim
  · rintro rfl
    exact .name hs v

theorem instance_literal {pattern : Value} (hliteral : pattern.IsLiteral) :
    Instance pattern v bs ↔ same pattern v ∧ bs = [] := by
  constructor
  · intro h
    cases h with
    | name _ _ => exact hliteral.elim
    | literal _ hsame => exact ⟨hsame, rfl⟩
    | quoted _ _ => exact hliteral.elim
    | row _ _ _ => exact hliteral.elim
  · rintro ⟨hsame, rfl⟩
    exact .literal hliteral hsame

theorem instance_quoted {form : Value} (hs : s = SpecialForm.quote.symbol) :
    Instance (.list [.sym s, form] source) v bs ↔ same form v ∧ bs = [] := by
  constructor
  · intro h
    cases h with
    | literal hliteral _ => exact hliteral.elim
    | quoted _ hsame => exact ⟨hsame, rfl⟩
    | row hlist _ _ =>
        rw [hs] at hlist
        exact absurd hlist (by decide)
  · rintro ⟨hsame, rfl⟩
    exact .quoted hs hsame

theorem instance_row {patterns : List Value} (hs : s = .intern "List") :
    Instance (.list (.sym s :: patterns) source) v bs ↔
      ∃ items, v.elements? = some items ∧ InstanceRow patterns items bs := by
  constructor
  · intro h
    cases h with
    | literal hliteral _ => exact hliteral.elim
    | quoted hquote _ =>
        rw [hs] at hquote
        exact absurd hquote (by decide)
    | row _ hitems hrow => exact ⟨_, hitems, hrow⟩
  · rintro ⟨items, hitems, hrow⟩
    exact .row hs hitems hrow

theorem instanceRow_nil : InstanceRow [] values bs ↔ values = [] ∧ bs = [] := by
  constructor
  · intro h
    cases h
    exact ⟨rfl, rfl⟩
  · rintro ⟨rfl, rfl⟩
    exact .nil

/-- Nothing is an instance of a rest pattern that stands by itself. -/
theorem not_instance_spread {rest : Value} (hs : s = SpecialForm.splice.symbol) :
    ¬ Instance (.list [.sym s, rest] source) v bs := by
  intro h
  cases h with
  | literal hliteral _ => exact hliteral.elim
  | quoted hquote _ =>
      rw [hs] at hquote
      exact absurd hquote (by decide)
  | row hlist _ _ =>
      rw [hs] at hlist
      exact absurd hlist (by decide)

/-- Nothing is an instance of a marker that stands by itself. -/
theorem not_instance_marker (hs : s = SpecialForm.splice.symbol) : ¬ Instance (.sym s) v bs := by
  intro h
  cases h with
  | name hname _ => exact hname hs
  | literal hliteral _ => exact hliteral.elim

theorem instanceRow_spread {rest : Value} (hs : s = SpecialForm.splice.symbol) :
    InstanceRow [.list [.sym s, rest] source] values bs ↔ Instance rest (.ofList values) bs := by
  constructor
  · intro h
    cases h with
    | cons hfirst _ => exact absurd hfirst (not_instance_spread hs)
    | spread _ hrest => exact hrest
  · exact .spread hs

theorem instanceRow_marked {rest : Value} (hs : s = SpecialForm.splice.symbol) :
    InstanceRow [.sym s, rest] values bs ↔ Instance rest (.ofList values) bs := by
  constructor
  · intro h
    cases h with
    | cons hfirst _ => exact absurd hfirst (not_instance_marker hs)
    | marked _ hrest => exact hrest
  · exact .marked hs

/-- A simple pattern is no rest pattern. -/
theorem Simple.restPattern?_eq_none {pattern : Value} {names : List Symbol}
    (h : Simple pattern names) (patterns : List Value) : pattern.restPattern? patterns = none := by
  cases h with
  | name hs => exact restPattern?_sym hs patterns
  | literal hliteral =>
      cases pattern with
      | list items source =>
          cases items with
          | nil => rfl
          | cons _ _ => exact hliteral.elim
      | _ => first | rfl | exact hliteral.elim
  | quoted hs _ => exact restPattern?_list (by rw [hs, Ne, sym.injEq]; decide) patterns
  | row hs _ => exact restPattern?_list (by rw [hs, Ne, sym.injEq]; decide) patterns

theorem instanceRow_cons {pattern : Value} {patterns : List Value} {names : List Symbol}
    (hp : Simple pattern names) :
    InstanceRow (pattern :: patterns) values bs ↔
      ∃ v others cs ds, values = v :: others ∧ Instance pattern v cs ∧
        InstanceRow patterns others ds ∧ bs = cs ++ ds := by
  constructor
  · intro h
    cases h with
    | cons hfirst hrow => exact ⟨_, _, _, _, rfl, hfirst, hrow, rfl⟩
    | spread hs _ =>
        subst hs
        cases hp.restPattern?_eq_none []
    | marked hs _ =>
        subst hs
        cases hp.restPattern?_eq_none []
  · rintro ⟨v, others, cs, ds, rfl, hfirst, hrow, rfl⟩
    exact .cons hfirst hrow

end Value

open Value (Simple SimpleRow Instance InstanceRow)

/-! ### Runs of the binder -/

/-- The run has settled which bindings are in the relation: it says yes, and has added
the only ones to the frame, or there are none and it says no. -/
inductive Settled (R : Bindings → Prop) (names : List Symbol) (frame : FrameId) (w : World) :
    Answer Bool × World → Prop
  | yes {bs : Bindings} (hbs : R bs) (honly : ∀ cs, R cs → cs = bs)
      (hnames : bs.map Prod.fst = names) : Settled R names frame w (.ok true, w.binding frame bs)
  | no (bs : Bindings) (hnone : ∀ cs, ¬ R cs) :
      Settled R names frame w (.ok false, w.binding frame bs)

namespace Settled

variable {R S : Bindings → Prop} {names : List Symbol} {frame : FrameId} {w : World}

/-- Settled for a relation is settled for the same one in other words. -/
theorem congr {result : Answer Bool × World} (h : Settled R names frame w result)
    (hRS : ∀ bs, S bs ↔ R bs) : Settled S names frame w result := by
  obtain rfl : S = R := funext fun bs => propext (hRS bs)
  exact h

/-- A no that binds nothing. -/
theorem no_unchanged (hnone : ∀ cs, ¬ R cs) : Settled R names frame w (.ok false, w) := by
  have hsettled : Settled R names frame w (.ok false, w.binding frame []) := no [] hnone
  rwa [w.binding_nil] at hsettled

/-- What binds nothing settles whether the relation holds of no bindings. -/
theorem of_unchanged {answer : Bool} (hR : ∀ bs, R bs ↔ answer ∧ bs = []) :
    Settled R [] frame w (.ok answer, w) := by
  cases answer with
  | true =>
      have hsettled : Settled R [] frame w (.ok true, w.binding frame []) :=
        yes ((hR []).mpr ⟨rfl, rfl⟩) (fun cs hcs => ((hR cs).mp hcs).2) rfl
      rwa [w.binding_nil] at hsettled
  | false => exact no_unchanged fun cs hcs => nomatch ((hR cs).mp hcs).1

/-- One question after another, the second only after a yes. -/
theorem both {T : Bindings → Prop} {names' : List Symbol} {x k : Eval Bool}
    (hx : Settled R names frame w (x w))
    (hk : ∀ bs, bs.map Prod.fst = names →
      Settled S names' frame (w.binding frame bs) (k (w.binding frame bs)))
    (hT : ∀ ds, T ds ↔ ∃ bs cs, R bs ∧ S cs ∧ ds = bs ++ cs) :
    Settled T (names ++ names') frame w ((x >>= fun fits => if fits then k else pure false) w) := by
  rw [Eval.bind_run]
  generalize x w = result at hx
  cases hx with
  | no bs hnone =>
      refine .no bs fun ds hds => ?_
      obtain ⟨bs', -, hbs', -⟩ := (hT ds).mp hds
      exact hnone bs' hbs'
  | @yes bs hbs honly hnames =>
      have hrest := hk bs hnames
      dsimp only
      rw [if_pos rfl]
      generalize k (w.binding frame bs) = result at hrest
      cases hrest with
      | no cs hnone =>
          rw [w.binding_binding]
          refine .no (bs ++ cs) fun ds hds => ?_
          obtain ⟨-, cs', -, hcs', -⟩ := (hT ds).mp hds
          exact hnone cs' hcs'
      | @yes cs hcs honly' hnames' =>
          rw [w.binding_binding]
          refine .yes ((hT _).mpr ⟨bs, cs, hbs, hcs, rfl⟩) (fun ds hds => ?_) ?_
          · obtain ⟨bs', cs', hbs', hcs', rfl⟩ := (hT ds).mp hds
            rw [honly bs' hbs', honly' cs' hcs']
          · rw [List.map_append, hnames, hnames']

end Settled

namespace Machine

variable (m : Machine) (frame : FrameId)

/-- The binder settles which plain values are instances of the pattern. -/
def Settles (pattern : Value) (names : List Symbol) : Prop :=
  ∀ (w : World) (v : Value), v.Plain w.heap → names.Nodup → w.Unbound frame names →
    Settled (Instance pattern v) names frame w (m.destructure .test frame pattern v w)

/-- The binder settles which plain values are instances of the row of patterns. -/
def SettlesRow (patterns : List Value) (names : List Symbol) : Prop :=
  ∀ (w : World) (values : List Value), (∀ v ∈ values, v.Plain w.heap) → names.Nodup →
    w.Unbound frame names →
      Settled (InstanceRow patterns values) names frame w
        (m.destructureSequence .test frame patterns values w)

variable {m frame} {s : Symbol} {source : Option Span} {names : List Symbol}

/-- A test for a literal answers structural equality. -/
theorem takeLiteral_plain {literal v : Value} {w : World} (hliteral : literal.Proper)
    (hv : v.Plain w.heap) (wording : String → String → Failure) :
    m.takeLiteral .test literal v wording w = (.ok (same literal v), w) := by
  unfold takeLiteral
  rw [Eval.bind_of_ok (m.equal_plain hliteral hv)]
  cases same literal v <;> rfl

theorem settles_name (hs : s ≠ SpecialForm.splice.symbol) : m.Settles frame (.sym s) [s] := by
  intro w v _ _ hunbound
  have hrun : m.destructure .test frame (.sym s) v w = (.ok true, w.binding frame [(s, v)]) := by
    rw [m.destructure_name .test frame hs]
    exact Eval.bind_of_ok (World.define_unbound v hunbound)
  rw [hrun]
  exact .yes ((Value.instance_name hs).mpr rfl) (fun cs hcs => (Value.instance_name hs).mp hcs) rfl

theorem settles_literal {pattern : Value} (hliteral : pattern.IsLiteral) :
    m.Settles frame pattern [] := by
  intro w v hv _ _
  have hrun : m.destructure .test frame pattern v w =
      m.takeLiteral .test pattern v .valueMismatch w := by
    rw [destructure.eq_def]
    cases pattern with
    | list items source =>
        cases items with
        | nil => rfl
        | cons _ _ => exact hliteral.elim
    | sym s => exact hliteral.elim
    | _ => rfl
  rw [hrun, takeLiteral_plain hliteral.proper hv]
  exact .of_unchanged fun bs => Value.instance_literal hliteral

theorem settles_quoted {form : Value} (hs : s = SpecialForm.quote.symbol) (hform : form.Proper) :
    m.Settles frame (.list [.sym s, form] source) [] := by
  intro w v hv _ _
  have hrun : m.destructure .test frame (.list [.sym s, form] source) v w =
      m.takeLiteral .test form v .quotedMismatch w := by
    subst hs
    rw [destructure]
    rfl
  rw [hrun, takeLiteral_plain hform hv]
  exact .of_unchanged fun bs => Value.instance_quoted hs

theorem settles_row {patterns : List Value} (hs : s = .intern "List")
    (hrow : m.SettlesRow frame patterns names) :
    m.Settles frame (.list (.sym s :: patterns) source) names := by
  intro w v hv hnames hunbound
  have hrun : m.destructure .test frame (.list (.sym s :: patterns) source) v w =
      m.withElements .test v (m.destructureSequence .test frame patterns) w := by
    subst hs
    rw [destructure]
    rfl
  rw [hrun, withElements, Eval.bind_of_ok (m.elements_plain hv)]
  cases hitems : v.elements? with
  | none =>
      refine .no_unchanged fun bs hinstance => ?_
      obtain ⟨items, hsome, -⟩ := (Value.instance_row hs).mp hinstance
      rw [hitems] at hsome
      cases hsome
  | some items =>
      refine (hrow w items (hv.elements hitems) hnames hunbound).congr fun bs => ?_
      rw [Value.instance_row hs]
      constructor
      · rintro ⟨others, hsome, hinstance⟩
        obtain rfl : items = others := Option.some.inj (hitems.symm.trans hsome)
        exact hinstance
      · exact fun hinstance => ⟨items, hitems, hinstance⟩

theorem settlesRow_nil : m.SettlesRow frame [] [] := by
  intro w values _ _ _
  have hrun : m.destructureSequence .test frame [] values w = (.ok values.isEmpty, w) := by
    rw [destructureSequence]
    rfl
  rw [hrun]
  refine .of_unchanged fun bs => ?_
  rw [Value.instanceRow_nil, List.isEmpty_iff]

theorem settlesRow_cons {pattern : Value} {patterns : List Value} {names' : List Symbol}
    (hp : Simple pattern names) (hfirst : m.Settles frame pattern names)
    (hrow : m.SettlesRow frame patterns names') :
    m.SettlesRow frame (pattern :: patterns) (names ++ names') := by
  intro w values hvalues hnames hunbound
  obtain ⟨hnodup, hnodup', hdisjoint⟩ := List.nodup_append.mp hnames
  have hrun : m.destructureSequence .test frame (pattern :: patterns) values =
      m.takeFirst .test frame pattern patterns values := by
    rw [m.destructureSequence_cons, hp.restPattern?_eq_none]
  rw [hrun]
  cases values with
  | nil =>
      refine .no_unchanged fun bs hinstance => ?_
      obtain ⟨v, others, _, _, heq, -⟩ := (Value.instanceRow_cons hp).mp hinstance
      cases heq
  | cons v others =>
      obtain ⟨hv, hothers⟩ := List.forall_mem_cons.mp hvalues
      have hfree : w.Unbound frame names := fun f hf s hs =>
        hunbound f hf s (List.mem_append_left _ hs)
      refine (hfirst w v hv hnodup hfree).both (S := InstanceRow patterns others)
        (fun bs hbs => ?_) fun ds => ?_
      · have hfree' : w.Unbound frame names' := fun f hf s hs =>
          hunbound f hf s (List.mem_append_right _ hs)
        refine hrow _ others (fun x hx => (hothers x hx).of_frames) hnodup' ?_
        refine hfree'.binding fun s hs hmem => ?_
        rw [hbs] at hmem
        exact hdisjoint s hmem s hs rfl
      · rw [Value.instanceRow_cons hp]
        constructor
        · rintro ⟨_, _, cs, es, heq, hfirst, hrow, rfl⟩
          cases heq
          exact ⟨cs, es, hfirst, hrow, rfl⟩
        · rintro ⟨cs, es, hfirst, hrow, rfl⟩
          exact ⟨v, others, cs, es, rfl, hfirst, hrow, rfl⟩

theorem settlesRow_spread {rest : Value} (hs : s = SpecialForm.splice.symbol)
    (hrest : m.Settles frame rest names) :
    m.SettlesRow frame [.list [.sym s, rest] source] names := by
  intro w values hvalues hnames hunbound
  have hrun : m.destructureSequence .test frame [.list [.sym s, rest] source] values =
      m.destructure .test frame rest (.ofList values) := by
    subst hs
    rw [m.destructureSequence_cons]
    rfl
  rw [hrun]
  exact (hrest w _ (.list hvalues) hnames hunbound).congr fun bs => Value.instanceRow_spread hs

theorem settlesRow_marked {rest : Value} (hs : s = SpecialForm.splice.symbol)
    (hrest : m.Settles frame rest names) : m.SettlesRow frame [.sym s, rest] names := by
  intro w values hvalues hnames hunbound
  have hrun : m.destructureSequence .test frame [.sym s, rest] values =
      m.destructure .test frame rest (.ofList values) := by
    subst hs
    rw [m.destructureSequence_cons]
    rfl
  rw [hrun]
  exact (hrest w _ (.list hvalues) hnames hunbound).congr fun bs => Value.instanceRow_marked hs

/-- The binder settles every simple pattern, by the pattern's own structure. -/
theorem settles_simple {pattern : Value} (hp : Simple pattern names) :
    m.Settles frame pattern names := by
  refine @Simple.rec (fun pattern names _ => m.Settles frame pattern names)
    (fun patterns names _ => m.SettlesRow frame patterns names) ?name ?literal ?quoted ?row
    ?nil ?cons ?spread ?marked pattern names hp
  case name => exact settles_name
  case literal => exact settles_literal
  case quoted => exact settles_quoted
  case row => exact fun hs _ => settles_row hs
  case nil => exact settlesRow_nil
  case cons => exact fun hp _ => settlesRow_cons hp
  case spread => exact fun hs _ => settlesRow_spread hs
  case marked => exact fun hs _ => settlesRow_marked hs

end Machine

/-! ### Fresh frames -/

/-- The world with one more frame. -/
def World.framed (w : World) (f : Frame) : World :=
  { w with heap := { w.heap with frames := ⟨w.heap.frames.table.push f⟩ } }

/-- Bindings of the newest frame. -/
theorem World.framed_binding (w : World) (f : Frame) (bs : Bindings) :
    (w.framed f).binding w.heap.frames.size bs =
      w.framed { f with bindings := f.bindings ++ bs } := by
  refine World.eq_of_table (w := w) fun id => ?_
  refine ((w.framed f).table_binding w.heap.frames.size bs id).trans ?_
  simp only [World.framed, Frames.size, Array.getElem?_push]
  by_cases hid : id = w.heap.frames.table.size
  · simp [hid]
  · simp [hid, Ne.symm hid]

/-- A fresh frame binds nothing. -/
theorem World.unbound_framed (w : World) (outer : Option FrameId) (label : String)
    (names : List Symbol) :
    (w.framed { outer, label }).Unbound w.heap.frames.size names := by
  intro f hf s _ hmem
  have hnew : (w.heap.frames.table.push { outer, label })[w.heap.frames.table.size]? = some f := hf
  rw [Array.getElem?_push_size] at hnew
  cases hnew
  cases hmem

/-- Asked in a fresh frame whether a plain value fits a simple pattern with distinct
names, the binder answers, and says yes exactly if the value is an instance of the
pattern.  Then the fresh frame holds the bindings of the instance, one for each name, and
whatever the answer, nothing else has changed. -/
theorem Machine.destructure_iff_instance (m : Machine) (w : World) (outer : FrameId)
    (label : String) {pattern v : Value} {names : List Symbol} (hpattern : Simple pattern names)
    (hnames : names.Nodup) (hv : v.Plain w.heap) :
    ∃ answer bindings,
      (Eval.extend outer label >>= fun frame => m.destructure .test frame pattern v) w =
        (.ok answer, w.framed { bindings, outer := some outer, label }) ∧
      (answer = true ↔ ∃ bs, Instance pattern v bs) ∧
      ∀ bs, Instance pattern v bs → bindings = bs ∧ bs.map Prod.fst = names := by
  have hsettled := m.settles_simple hpattern (w.framed { outer := some outer, label }) v
    hv.of_frames hnames (w.unbound_framed (some outer) label names)
  have hrun : (Eval.extend outer label >>= fun frame => m.destructure .test frame pattern v) w =
      m.destructure .test w.heap.frames.size pattern v
        (w.framed { outer := some outer, label }) := rfl
  rw [hrun]
  generalize m.destructure .test w.heap.frames.size pattern v
    (w.framed { outer := some outer, label }) = result at hsettled
  cases hsettled with
  | @yes bs hbs honly hbound =>
      refine ⟨true, bs, ?_, ⟨fun _ => ⟨bs, hbs⟩, fun _ => rfl⟩, fun cs hcs => ?_⟩
      · rw [w.framed_binding]
        rfl
      · obtain rfl := honly cs hcs
        exact ⟨rfl, hbound⟩
  | no bs hnone =>
      refine ⟨false, bs, ?_, ⟨(nomatch ·), fun ⟨cs, hcs⟩ => absurd hcs (hnone cs)⟩,
        fun cs hcs => absurd hcs (hnone cs)⟩
      rw [w.framed_binding]
      rfl

/-- The pattern `(List (List (List k e)) (List c ... cs))` with a map of one entry and a
text of two characters. -/
theorem Machine.destructure_iff_instance_row :
    let name := fun text => Value.sym (.intern text)
    let pattern : Value := .ofList [name "List",
      .ofList [name "List", .ofList [name "List", name "k", name "e"]],
      .ofList [name "List", name "c", name "...", name "cs"]]
    let v : Value := .ofList [.map [(.keyword "a", .nil)], .str "xy"]
    let names : List Symbol := [.intern "k", .intern "e", .intern "c", .intern "cs"]
    let bindings : Bindings := [(.intern "k", .keyword "a"), (.intern "e", .nil),
      (.intern "c", .str "x"), (.intern "cs", .ofList [.str "y"])]
    Simple pattern names ∧ names.Nodup ∧ v.Plain (World.core {}).heap ∧
      Instance pattern v bindings ∧
      (Eval.extend Heap.global "match" >>= fun frame =>
        (run 1).destructure .test frame pattern v) (.core {}) =
        (.ok true, (World.core {}).framed { bindings, outer := some Heap.global, label := "match" })
    := by
  intro name pattern v names bindings
  have hname : ∀ text, text ≠ "..." → Simple (name text) [.intern text] := fun text htext =>
    .name fun heq => htext (congrArg Symbol.name heq)
  have hpattern : Simple pattern names :=
    .row rfl (.cons (.row rfl (.cons (.row rfl (.cons (hname "k" (by decide))
      (.cons (hname "e" (by decide)) .nil))) .nil))
        (.cons (.row rfl (.cons (hname "c" (by decide)) (.marked rfl (hname "cs" (by decide)))))
          .nil))
  have hnames : names.Nodup := by decide
  have hkey : Value.Plain (World.core {}).heap (.keyword "a") :=
    .scalar trivial (Heap.untouched_core (by decide))
  have hmap : Value.Plain (World.core {}).heap (.map [(.keyword "a", .nil)]) :=
    .map (by simpa using hkey) (by simpa using .nil) (List.pairwise_singleton _ _)
  have hv : v.Plain (World.core {}).heap := .list (by simpa using ⟨hmap, .str "xy"⟩)
  have hbound : ∀ text u, text ≠ "..." → Instance (name text) u [(.intern text, u)] :=
    fun text u htext => .name (fun heq => htext (congrArg Symbol.name heq)) u
  have hinstance : Instance pattern v bindings :=
    .row rfl rfl (.cons (.row rfl rfl (.cons (.row rfl rfl (.cons (hbound "k" _ (by decide))
      (.cons (hbound "e" _ (by decide)) .nil))) .nil))
        (.cons (.row rfl rfl (.cons (hbound "c" _ (by decide))
          (.marked rfl (hbound "cs" _ (by decide))))) .nil))
  obtain ⟨answer, found, hrun, hanswer, hbindings⟩ :=
    (run 1).destructure_iff_instance (.core {}) Heap.global "match" hpattern hnames hv
  obtain ⟨rfl, -⟩ := hbindings bindings hinstance
  rw [hanswer.mpr ⟨_, hinstance⟩] at hrun
  exact ⟨hpattern, hnames, hv, hinstance, hrun⟩

end Lisp
