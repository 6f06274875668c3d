import Lisp.Proofs.Congruence.Run
import Lisp.Proofs.Uninvolved

/-!
# Tests of well-formed patterns

A well-formed pattern is made of names, of constants, of quoted forms, of rows with or
without a rest, of typed rows and of patterns for the members under constant keys
(`Value.WellFormed`).  Tested against a value that no program is involved in, it comes to
an answer, whatever the kinds of the patterns and of the values that meet in it: a
mismatch is a no, and `match` goes on with its next clause.

There is one exception (`run_test_answers`).  A pattern for members reads the fields of a
record by name or by place, and complains of a key that is neither, such as nil or a truth
value, where it says no to a value without members.

* Heads are evaluated and names are bound on the way, so that the world changes under the
  test.  The worlds that it goes through are called **calm**; what is needed of them is
  that they are closed under both (`Vocabulary.Closes`).
* A test of a row goes on from the world that its first pattern leaves (`Settles.both`).
-/

namespace Lisp

/-! ### Well-formed patterns -/

/-- What patterns are made with: the names that they bind, the heads of typed rows, and
the keys of members. -/
structure Vocabulary where
  name : Symbol → Prop
  head : Value → Prop
  key : Value → Prop

namespace Value

/-- The form is its own value. -/
def IsConstant : Value → Prop
  | .sym _ | .list (_ :: _) _ => False
  | _ => True

/-- The key selects a field of a record, by its name or by its place. -/
def selectsField : Value → Bool
  | .sym _ | .keyword _ | .str _ | .num _ => true
  | _ => false

mutual

/-- The pattern is well formed, and made with the vocabulary. -/
inductive WellFormed (voc : Vocabulary) : Value → Prop
  | name {s : Symbol} (hs : s ≠ SpecialForm.splice.symbol) (hname : voc.name s) :
      WellFormed voc (.sym s)
  | constant {pattern : Value} (hconstant : pattern.IsConstant) : WellFormed voc pattern
  | quoted {s : Symbol} {forms : List Value} {source : Option Span}
      (hs : s = SpecialForm.quote.symbol) : WellFormed voc (.list (.sym s :: forms) source)
  | row {s : Symbol} {patterns : List Value} {source : Option Span} (hs : s = .intern "List")
      (hrow : WellFormedRow voc patterns) : WellFormed voc (.list (.sym s :: patterns) source)
  | typed {head : Value} {patterns : List Value} {source : Option Span} (hhead : voc.head head)
      (hother : ∀ s ∈ .intern "List" :: Machine.patternHeads, head ≠ .sym s)
      (hrow : WellFormedRow voc patterns) : WellFormed voc (.list (head :: patterns) source)
  | members {s : Symbol} {parts : List Value} {source : Option Span} (hs : s = .intern "Map")
      (hparts : WellFormedMembers voc parts) : WellFormed voc (.list (.sym s :: parts) source)

/-- The row consists of well-formed patterns, with a rest at its end or none. -/
inductive WellFormedRow (voc : Vocabulary) : List Value → Prop
  | nil : WellFormedRow voc []
  | cons {pattern : Value} {patterns : List Value} (hpattern : WellFormed voc pattern)
      (hrow : WellFormedRow voc patterns) : WellFormedRow voc (pattern :: patterns)
  | spread {s : Symbol} {rest : Value} {source : Option Span}
      (hs : s = SpecialForm.splice.symbol) (hrest : WellFormed voc rest) :
      WellFormedRow voc [.list [.sym s, rest] source]
  | marked {s : Symbol} {rest : Value} (hs : s = SpecialForm.splice.symbol)
      (hrest : WellFormed voc rest) : WellFormedRow voc [.sym s, rest]

/-- Constant keys and well-formed patterns take turns. -/
inductive WellFormedMembers (voc : Vocabulary) : List Value → Prop
  | nil : WellFormedMembers voc []
  | cons {key pattern : Value} {parts : List Value} (hkey : voc.key key)
      (hconstant : key.IsConstant) (hpattern : WellFormed voc pattern)
      (hparts : WellFormedMembers voc parts) : WellFormedMembers voc (key :: pattern :: parts)

end

/-- Keys and patterns come in pairs. -/
theorem WellFormedMembers.even {voc : Vocabulary} :
    ∀ {parts : List Value}, WellFormedMembers voc parts → parts.length % 2 = 0
  | [], _ => rfl
  | [_], h => nomatch h
  | _ :: _ :: parts, h => by
      cases h with
      | cons _ _ _ hparts =>
          have heven := hparts.even
          simp only [List.length_cons]
          omega

/-- A well-formed pattern is no rest of a row. -/
theorem WellFormed.restPattern?_eq_none {voc : Vocabulary} {pattern : Value}
    (h : WellFormed voc pattern) (patterns : List Value) :
    pattern.restPattern? patterns = none := by
  cases h with
  | name hs _ => exact restPattern?_sym hs patterns
  | constant hconstant =>
      cases pattern with
      | sym s => exact hconstant.elim
      | list items source =>
          cases items with
          | nil => rfl
          | cons _ _ => exact hconstant.elim
      | _ => rfl
  | quoted hs => exact restPattern?_list (by rw [hs, Ne, sym.injEq]; decide) patterns
  | row hs _ => exact restPattern?_list (by rw [hs, Ne, sym.injEq]; decide) patterns
  | typed _ hhead _ =>
      exact restPattern?_list (hhead _ (by simp [Machine.patternHeads])) patterns
  | members hs _ => exact restPattern?_list (by rw [hs, Ne, sym.injEq]; decide) patterns

end Value

/-! ### Calm worlds -/

/-- The worlds are closed under what a test does that is made with the vocabulary: names
are bound in the frame, and heads are evaluated there, which gives types. -/
structure Vocabulary.Closes (voc : Vocabulary) (m : Machine) (frame : FrameId)
    (calm : World → Prop) : Prop where
  define : ∀ w, calm w → ∀ s, voc.name s → ∀ v, calm (Eval.define frame s v w).2
  head : ∀ w, calm w → ∀ form, voc.head form →
    ∃ tag w', calm w' ∧ m.value frame form w = (.ok (.type tag), w')

/-- The value is uninvolved in every calm world. -/
def Value.Idle (calm : World → Prop) (v : Value) : Prop :=
  ∀ w, calm w → v.Uninvolved w.heap

/-- What a test comes to: an answer, or the complaint that a record has no member under a
key of the vocabulary. -/
inductive Vocabulary.Outcome (voc : Vocabulary) (calm : World → Prop) :
    Answer Bool × World → Prop
  | answer (fits : Bool) {w : World} (hw : calm w) : Outcome voc calm (.ok fits, w)
  | noMember (ty : RecordTypeId) {key : Value} {w : World} (hkey : voc.key key)
      (hselects : key.selectsField = false) (hw : calm w) :
      Outcome voc calm
        (.failed (.noMember (key.print w.heap) (w.heap.typeName (.record ty))), w)

/-- The test comes to such an outcome from every calm world. -/
def Eval.Settles (voc : Vocabulary) (calm : World → Prop) (x : Eval Bool) : Prop :=
  ∀ w, calm w → voc.Outcome calm (x w)

namespace Eval.Settles

variable {voc : Vocabulary} {calm : World → Prop} {x k : Eval Bool}

/-- A test that is decided already. -/
theorem pure (fits : Bool) : Settles voc calm (Pure.pure fits) :=
  fun _ hw => .answer fits hw

/-- A test that starts with what calls nothing. -/
theorem seq {y : Eval α} {l : α → Eval Bool}
    (h : ∀ w, calm w → ∃ a w', calm w' ∧ y w = (.ok a, w') ∧ Settles voc calm (l a)) :
    Settles voc calm (y >>= l) := by
  intro w hw
  obtain ⟨a, w', hw', hrun, hl⟩ := h w hw
  rw [Eval.bind_of_ok hrun]
  exact hl w' hw'

/-- One test after another, the second only if the first says yes. -/
theorem both (hx : Settles voc calm x) (hk : Settles voc calm k) :
    Settles voc calm (do if ← x then k else return false) := by
  intro w hw
  rw [bind_run]
  have houtcome := hx w hw
  generalize x w = outcome at houtcome
  cases houtcome with
  | answer fits hw' =>
      cases fits with
      | true => exact hk _ hw'
      | false => exact .answer false hw'
  | noMember ty hkey hselects hw' => exact .noMember ty hkey hselects hw'

end Eval.Settles

namespace Machine

variable {m : Machine} {w : World}

/-! ### Members -/

/-- A field of a record is selected by name or by place. -/
theorem get_record {ty : RecordTypeId} {fields : List Value} {key : Value}
    (hselects : key.selectsField = true) :
    ∃ v, m.get (.record ty fields) key w = (.ok v, w) ∧ (v = .nil ∨ v ∈ fields) := by
  have hfound : ∀ i : Option Nat, (i.bind fun i => fields[i]?).getD .nil = .nil ∨
      (i.bind fun i => fields[i]?).getD .nil ∈ fields := by
    intro i
    cases hfield : i.bind fun i => fields[i]? with
    | none => exact .inl rfl
    | some v =>
        obtain ⟨i, -, hv⟩ := Option.bind_eq_some_iff.mp hfield
        exact .inr (List.mem_of_getElem? hv)
  unfold get
  cases key with
  | sym s => exact ⟨_, rfl, hfound _⟩
  | keyword name => exact ⟨_, rfl, hfound _⟩
  | str name => exact ⟨_, rfl, hfound _⟩
  | num n => exact ⟨_, rfl, hfound _⟩
  | _ => cases hselects

/-- Any other key is complained of. -/
theorem get_record_noMember {ty : RecordTypeId} {fields : List Value} {key : Value}
    (hselects : key.selectsField = false) :
    m.get (.record ty fields) key w =
      (.failed (.noMember (key.print w.heap) (w.heap.typeName (.record ty))), w) := by
  unfold get
  cases key with
  | sym s => cases hselects
  | keyword name => cases hselects
  | str name => cases hselects
  | num n => cases hselects
  | _ => rfl

/-- The value of a key in a map is one of its values, or nil. -/
theorem get_map {entries : Entries} (key : Value)
    (hentries : (Value.map entries).Uninvolved w.heap) :
    ∃ v, m.get (.map entries) key w = (.ok v, w) ∧ (v = .nil ∨ ∃ e ∈ entries, e.2 = v) := by
  obtain ⟨found, hfound⟩ :=
    m.exists_storedKey?_uninvolved key fun e he => (hentries.of_map e he).1
  have hget : m.get (.map entries) key w =
      (.ok ((found.bind fun stored => (Value.entry? stored entries).map Prod.snd).getD .nil),
        w) := by
    unfold get mapGet?
    dsimp only
    rw [bind_assoc, Eval.bind_of_ok hfound]
    cases found <;> rfl
  refine ⟨_, hget, ?_⟩
  cases hvalue : found.bind fun stored => (Value.entry? stored entries).map Prod.snd with
  | none => exact .inl rfl
  | some v =>
      obtain ⟨stored, -, hv⟩ := Option.bind_eq_some_iff.mp hvalue
      obtain ⟨e, he, rfl⟩ := Option.map_eq_some_iff.mp hv
      exact .inr ⟨e, List.mem_of_find?_eq_some he, rfl⟩

/-! ### The parts of the binder -/

section

variable {voc : Vocabulary} {frame : FrameId} {calm : World → Prop}

/-- A comparison with an idle value is decided, and then so is the test for a literal. -/
theorem takeLiteral_settles (literal : Value) {v : Value} (hv : v.Idle calm)
    (wording : String → String → Failure) :
    (m.takeLiteral .test literal v wording).Settles voc calm := by
  refine .seq fun w hw => ?_
  obtain ⟨same, hequal⟩ := m.exists_equal_uninvolved literal (hv w hw)
  refine ⟨same, w, hw, hequal, ?_⟩
  cases same with
  | true => exact .pure true
  | false => exact .pure false

/-- The elements of an idle value are idle. -/
theorem withElements_settles {v : Value} (hv : v.Idle calm) {next : List Value → Eval Bool}
    (hnext : ∀ values : List Value, (∀ x ∈ values, x.Idle calm) →
      (next values).Settles voc calm) : (m.withElements .test v next).Settles voc calm := by
  refine .seq fun w hw => ⟨v.elements?, w, hw, m.elements_uninvolved (hv w hw), ?_⟩
  cases hitems : v.elements? with
  | none => exact .pure false
  | some values =>
      exact hnext values fun x hx u hu => (hv u hu).elements hitems x hx

variable (hcloses : voc.Closes m frame calm)
  (hconstants : ∀ form w, form.IsConstant → m.value frame form w = (.ok form, w))

include hcloses in
/-- A head denotes a type, which the value has or has not. -/
theorem withType_settles {head : Value} (hhead : voc.head head) (v : Value) {next : Eval Bool}
    (hnext : next.Settles voc calm) : (m.withType .test frame head v next).Settles voc calm := by
  refine .seq fun w hw => ?_
  obtain ⟨tag, w', hw', hvalue⟩ := hcloses.head w hw head hhead
  refine ⟨tag, w', hw', m.headType_of_value hvalue, ?_⟩
  split
  · exact hnext
  · exact .pure false

/-! ### Patterns -/

/-- A test of the pattern against an idle value is settled. -/
def Passes (m : Machine) (frame : FrameId) (voc : Vocabulary) (calm : World → Prop)
    (pattern : Value) : Prop :=
  ∀ v : Value, v.Idle calm → (m.destructure .test frame pattern v).Settles voc calm

/-- A test of the row against idle values is settled. -/
def PassesRow (m : Machine) (frame : FrameId) (voc : Vocabulary) (calm : World → Prop)
    (patterns : List Value) : Prop :=
  ∀ values : List Value, (∀ v ∈ values, v.Idle calm) →
    (m.destructureSequence .test frame patterns values).Settles voc calm

/-- A test of the keys and patterns against an idle value that has members is settled. -/
def PassesMembers (m : Machine) (frame : FrameId) (voc : Vocabulary) (calm : World → Prop)
    (parts : List Value) : Prop :=
  ∀ v : Value, v.Idle calm → hasMembers .test v = true →
    (m.destructureMembers .test frame parts v).Settles voc calm

include hcloses in
theorem passes_name {s : Symbol} (hs : s ≠ SpecialForm.splice.symbol) (hname : voc.name s) :
    Passes m frame voc calm (.sym s) := by
  intro v _ w hw
  rw [m.destructure_name .test frame hs]
  exact .answer true (hcloses.define w hw s hname v)

theorem passes_constant {pattern : Value} (hconstant : pattern.IsConstant) :
    Passes m frame voc calm pattern := by
  intro v hv
  have hliteral : m.destructure .test frame pattern v =
      m.takeLiteral .test pattern v .valueMismatch := by
    cases pattern with
    | sym s => exact hconstant.elim
    | list items source =>
        cases items with
        | nil => rfl
        | cons _ _ => exact hconstant.elim
    | _ => rfl
  rw [hliteral]
  exact takeLiteral_settles pattern hv _

theorem passes_quoted {s : Symbol} {forms : List Value} {source : Option Span}
    (hs : s = SpecialForm.quote.symbol) :
    Passes m frame voc calm (.list (.sym s :: forms) source) := by
  intro v hv
  subst hs
  rw [destructure]
  exact takeLiteral_settles _ hv _

theorem passes_row {s : Symbol} {patterns : List Value} {source : Option Span}
    (hs : s = .intern "List") (hrow : PassesRow m frame voc calm patterns) :
    Passes m frame voc calm (.list (.sym s :: patterns) source) := by
  intro v hv
  subst hs
  rw [destructure]
  exact withElements_settles hv hrow

include hcloses in
theorem passes_typed {head : Value} {patterns : List Value} {source : Option Span}
    (hhead : voc.head head) (hother : ∀ s ∈ .intern "List" :: patternHeads, head ≠ .sym s)
    (hrow : PassesRow m frame voc calm patterns) :
    Passes m frame voc calm (.list (head :: patterns) source) := by
  intro v hv
  rw [m.destructure_headed .test frame hother]
  exact withType_settles hcloses hhead v (withElements_settles hv hrow)

theorem passes_members {s : Symbol} {parts : List Value} {source : Option Span}
    (hs : s = .intern "Map") (heven : parts.length % 2 = 0)
    (hparts : PassesMembers m frame voc calm parts) :
    Passes m frame voc calm (.list (.sym s :: parts) source) := by
  intro v hv
  subst hs
  have hmembers : m.destructure .test frame (.list (.sym (.intern "Map") :: parts) source) v =
      if hasMembers .test v then m.destructureMembers .test frame parts v else return false := by
    rw [destructure, if_pos heven]
    rfl
  rw [hmembers]
  by_cases hhas : hasMembers .test v = true
  · rw [if_pos hhas]
    exact hparts v hv hhas
  · rw [if_neg hhas]
    exact .pure false

theorem passesRow_nil : PassesRow m frame voc calm [] := by
  intro values _
  rw [destructureSequence.eq_def]
  exact .pure _

/-- A pattern takes the first of the values; that there is none is a no. -/
theorem takeFirst_settles {pattern : Value} {patterns values : List Value}
    (hpattern : Passes m frame voc calm pattern) (hrow : PassesRow m frame voc calm patterns)
    (hvalues : ∀ v ∈ values, v.Idle calm) :
    (m.takeFirst .test frame pattern patterns values).Settles voc calm := by
  cases values with
  | nil => exact .pure false
  | cons v others =>
      obtain ⟨hv, hothers⟩ := List.forall_mem_cons.mp hvalues
      exact .both (hpattern v hv) (hrow others hothers)

theorem passesRow_cons {pattern : Value} {patterns : List Value}
    (hwell : Value.WellFormed voc pattern) (hpattern : Passes m frame voc calm pattern)
    (hrow : PassesRow m frame voc calm patterns) :
    PassesRow m frame voc calm (pattern :: patterns) := by
  intro values hvalues
  rw [m.destructureSequence_cons, hwell.restPattern?_eq_none patterns]
  exact takeFirst_settles hpattern hrow hvalues

/-- A rest takes the list of the values that remain. -/
theorem passesRow_of_rest {pattern rest : Value} {patterns : List Value}
    (hrest : pattern.restPattern? patterns = some (some rest))
    (hpasses : Passes m frame voc calm rest) :
    PassesRow m frame voc calm (pattern :: patterns) := by
  intro values hvalues
  rw [m.destructureSequence_cons, hrest]
  exact hpasses _ fun w hw => .list fun x hx => hvalues x hx w hw

theorem passesMembers_nil : PassesMembers m frame voc calm [] := by
  intro v _ _
  rw [destructureMembers.eq_def]
  exact .pure true

include hconstants in
/-- A member of an idle value is idle; a record may have none under the key. -/
theorem passesMembers_cons {key pattern : Value} {parts : List Value} (hkey : voc.key key)
    (hconstant : key.IsConstant) (hpattern : Passes m frame voc calm pattern)
    (hparts : PassesMembers m frame voc calm parts) :
    PassesMembers m frame voc calm (key :: pattern :: parts) := by
  intro v hv hhas
  rw [destructureMembers.eq_def]
  dsimp only
  refine .seq fun w hw => ⟨key, w, hw, hconstants key w hconstant, ?_⟩
  have hgoes : ∀ entry : Value, entry.Idle calm → Eval.Settles voc calm (do
      if ← m.destructure .test frame pattern entry then
        m.destructureMembers .test frame parts v
      else return false) := fun entry hentry => .both (hpattern entry hentry) (hparts v hv hhas)
  have hnil : Value.Idle calm .nil := fun _ _ => .nil
  cases v with
  | map entries =>
      refine .seq fun w hw => ?_
      obtain ⟨entry, hget, hentry⟩ := get_map key (hv w hw)
      refine ⟨entry, w, hw, hget, hgoes entry ?_⟩
      rcases hentry with rfl | ⟨e, he, rfl⟩
      · exact hnil
      · exact fun u hu => ((hv u hu).of_map e he).2
  | record ty fields =>
      cases hselects : key.selectsField with
      | true =>
          refine .seq fun w hw => ?_
          obtain ⟨entry, hget, hentry⟩ := get_record hselects
          refine ⟨entry, w, hw, hget, hgoes entry ?_⟩
          rcases hentry with rfl | hfield
          · exact hnil
          · exact fun u hu => (hv u hu).of_record entry hfield
      | false =>
          intro w hw
          rw [Eval.bind_run, get_record_noMember hselects]
          exact .noMember ty hkey hselects hw
  | _ => cases hhas

include hcloses hconstants in
/-- Tests of well-formed patterns are settled, by the structure of the pattern. -/
theorem passes_of_wellFormed {pattern : Value} (h : Value.WellFormed voc pattern) :
    Passes m frame voc calm pattern := by
  refine @Value.WellFormed.rec voc (fun pattern _ => Passes m frame voc calm pattern)
    (fun patterns _ => PassesRow m frame voc calm patterns)
    (fun parts _ => PassesMembers m frame voc calm parts) ?name ?constant ?quoted ?row ?typed
    ?members ?rowNil ?rowCons ?spread ?marked ?membersNil ?membersCons pattern h
  case name => exact passes_name hcloses
  case constant => exact passes_constant
  case quoted => exact passes_quoted
  case row => exact fun hs _ => passes_row hs
  case typed => exact fun hhead hother _ => passes_typed hcloses hhead hother
  case members => exact fun hs hparts => passes_members hs hparts.even
  case rowNil => exact passesRow_nil
  case rowCons => exact fun hpattern _ => passesRow_cons hpattern
  case spread =>
    intro s rest source hs _ hpasses
    refine passesRow_of_rest ?_ hpasses
    simp [Value.restPattern?, Value.spreadOperand?, Symbol.isSplice, hs]
  case marked =>
    intro s rest hs _ hpasses
    refine passesRow_of_rest ?_ hpasses
    simp [Value.restPattern?, Value.spreadOperand?, Value.isSpliceMarker, Symbol.isSplice, hs]
  case membersNil => exact passesMembers_nil
  case membersCons =>
    exact fun hkey hconstant _ _ => passesMembers_cons hconstants hkey hconstant

end

end Machine

/-- A constant is its own value. -/
theorem run_value_constant (fuel : Nat) (frame : FrameId) (form : Value) (w : World)
    (hconstant : form.IsConstant) : (run (fuel + 1)).value frame form w = (.ok form, w) := by
  unfold Machine.value Eval.noRecur Eval.onFailure Machine.eval
  rw [run_eval_succ]
  cases form with
  | sym s => exact hconstant.elim
  | list items source =>
      cases items with
      | nil => rfl
      | cons _ _ => exact hconstant.elim
  | _ => rfl

/-- Heads that are names of types denote them throughout a test that binds other names. -/
theorem Vocabulary.closes_of_names {voc : Vocabulary} {fuel : Nat} {frame : FrameId} {w : World}
    (v : Value) (hheads : ∀ form, voc.head form → ∃ s tag, form = .sym s ∧ ¬ voc.name s ∧
      w.heap.frames.lookup frame s = some (.type tag)) :
    voc.Closes (run (fuel + 1)) frame fun u => v.Uninvolved u.heap ∧
      ∀ s, ¬ voc.name s → u.heap.frames.lookup frame s = w.heap.frames.lookup frame s where
  define u hu s hs x := by
    refine ⟨hu.1.of_frames, fun t ht => ?_⟩
    have hne : t ≠ s := fun heq => ht (heq ▸ hs)
    exact (u.heap.frames.lookup_define_of_ne frame x hne frame).trans (hu.2 t ht)
  head u hu form hform := by
    obtain ⟨s, tag, rfl, hs, htype⟩ := hheads form hform
    refine ⟨tag, u, hu, ?_⟩
    rw [run_value_sym, hu.2 s hs, htype]
    rfl

/-- **A mismatch does not abort a test.**  Tested against a value that no program is
involved in, a well-formed pattern whose heads denote types comes to an answer.  It fails
only where it looks in a record for a member under a key that is neither a name nor a
number. -/
theorem run_test_answers {fuel : Nat} {frame : FrameId} {voc : Vocabulary} {calm : World → Prop}
    (hcloses : voc.Closes (run (fuel + 1)) frame calm) {pattern v : Value}
    (hpattern : Value.WellFormed voc pattern) (hv : ∀ w, calm w → v.Uninvolved w.heap)
    {w : World} (hw : calm w) :
    (∃ fits w', (run (fuel + 1)).destructure .test frame pattern v w = (.ok fits, w') ∧ calm w') ∨
      ∃ ty key w', voc.key key ∧ key.selectsField = false ∧ calm w' ∧
        (run (fuel + 1)).destructure .test frame pattern v w =
          (.failed (.noMember (key.print w'.heap) (w'.heap.typeName (.record ty))), w') := by
  have houtcome := Machine.passes_of_wellFormed hcloses (run_value_constant fuel frame) hpattern
    v hv w hw
  generalize (run (fuel + 1)).destructure .test frame pattern v w = outcome at houtcome ⊢
  cases houtcome with
  | answer fits hw' => exact .inl ⟨fits, _, rfl, hw'⟩
  | noMember ty hkey hselects hw' => exact .inr ⟨ty, _, _, hkey, hselects, hw', rfl⟩

namespace Mixed

/-- A world with a type of one field and nothing else. -/
def world : World where
  heap :=
    { frames := ⟨#[{ bindings := [(.intern "P", .type (.record 0))] }]⟩
      recordTypes := #[{ name := .intern "P", fields := [.intern "x"] }] }

/-- The names `a`, `b` and `c`, the head `P` and the keys `"x"` and `:y`. -/
def vocabulary : Vocabulary where
  name s := s ∈ [.intern "a", .intern "b", .intern "c"]
  head form := form = .symbol "P"
  key form := form = .str "x" ∨ form = .keyword "y"

/-- The pattern `(List (P a) (Map "x" b :y "text") ...c)`. -/
def pattern : Value :=
  .ofList [.symbol "List", .ofList [.symbol "P", .symbol "a"],
    .ofList [.symbol "Map", .str "x", .symbol "b", .keyword "y", .str "text"],
    .ofList [.symbol "...", .symbol "c"]]

theorem wellFormed_pattern : Value.WellFormed vocabulary pattern := by
  have hname : ∀ s ∈ [Symbol.intern "a", .intern "b", .intern "c"],
      Value.WellFormed vocabulary (.sym s) := fun s hs => by
    refine .name (fun heq => ?_) hs
    subst heq
    revert hs
    decide
  have hother : ∀ s ∈ .intern "List" :: Machine.patternHeads, Value.symbol "P" ≠ .sym s :=
    Value.sym_ne_of_notMem (by decide)
  exact .row rfl (.cons (.typed rfl hother (.cons (hname _ (by decide)) .nil))
    (.cons (.members rfl (.cons (.inl rfl) trivial (hname _ (by decide))
      (.cons (.inr rfl) trivial (.constant trivial) .nil)))
      (.spread rfl (hname _ (by decide)))))

end Mixed

/-- The theorem at a pattern of all kinds and the list `((P nil) (P "text") ())`: both keys
select, so it comes to an answer. -/
theorem run_test_answers_mixed :
    let v : Value := .ofList [.record 0 [.nil], .record 0 [.str "text"], .ofList []]
    ∃ fits w', (run 1).destructure .test Heap.global Mixed.pattern v Mixed.world =
      (.ok fits, w') := by
  intro v
  have hrecord : Mixed.world.heap.Untouched (.record 0) :=
    ⟨fun ty hty => by cases hty; rfl, rfl⟩
  have hv : v.Uninvolved Mixed.world.heap := by
    refine .list (List.forall_mem_cons.mpr ⟨?_, List.forall_mem_cons.mpr ⟨?_, ?_⟩⟩)
    · exact .record hrecord (List.forall_mem_singleton.mpr .nil)
    · exact .record hrecord (List.forall_mem_singleton.mpr (.str _))
    · exact List.forall_mem_singleton.mpr (.list (fun _ hx => nomatch hx))
  have hheads : ∀ form, Mixed.vocabulary.head form → ∃ s tag, form = .sym s ∧
      ¬ Mixed.vocabulary.name s ∧
        Mixed.world.heap.frames.lookup Heap.global s = some (.type tag) := by
    rintro form rfl
    have hname : ¬ Mixed.vocabulary.name (.intern "P") := by
      unfold Mixed.vocabulary
      decide
    exact ⟨.intern "P", .record 0, rfl, hname, by with_unfolding_all rfl⟩
  have hanswers := @run_test_answers 0 _ _ _ (Vocabulary.closes_of_names v hheads) _ v
    Mixed.wellFormed_pattern (fun u hu => hu.1) _ ⟨hv, fun _ _ => rfl⟩
  rcases hanswers with ⟨fits, w', hrun, -⟩ | ⟨ty, key, w', hkey, hselects, -⟩
  · exact ⟨fits, w', hrun⟩
  · rcases hkey with rfl | rfl <;> cases hselects

end Lisp
