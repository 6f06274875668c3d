import Lisp.Proofs.Reader.Complaints
import Lisp.Proofs.Scope.Values

/-!
# Texts and builtins on a machine that keeps the tables

No text denotes a record type: a form that is read is made of symbols, constants
and lists of them (`reach_of_read`), and a complaint about a text carries no value.
So a program that reads or evaluates text comes by no type that it was not given,
and neither does any builtin.
-/

namespace Lisp

open Eval (Keeps)

/-! ### Texts -/

namespace Reader

/-- A reader of forms that mention no record types. -/
def ReadsPlain (readForm : Cursor → Result Value) : Prop :=
  ∀ {c v after}, readForm c = .ok (v, after) → reach v = 0

theorem reach_of_atom {token : List Char} {at_ : Span} {v : Value}
    (h : atom token at_ = .ok v) : reach v = 0 := by
  unfold atom at h
  repeat' split at h
  all_goals cases h
  all_goals rfl

theorem reach_of_atoms {segments : List (List Char)} {at_ : Span} {parts : List Value}
    (h : List.Forall₂ (fun segment v => atom segment at_ = .ok v) segments parts) :
    reach parts = 0 := by
  induction h with
  | nil => rfl
  | cons hatom _ ih =>
      rw [reach_cons, reach_of_atom hatom, ih]
      rfl

theorem readToken_readsPlain (dots : Bool) : ReadsPlain (readToken dots) := by
  intro c v after h
  obtain ⟨span, -, hclass⟩ := readToken_eq_ok h
  rcases classify_eq_ok hclass with ⟨-, hatom⟩ | ⟨segments, parts, -, hparts, rfl⟩
  · exact reach_of_atom hatom
  · rw [reach_list, reach_cons, reach_of_atoms hparts]
    rfl

theorem Row.reach_eq {nested : Cursor → Result Value} (hnested : ReadsPlain nested)
    {c stop : Cursor} {forms : List Value} (h : Row nested c forms stop) : reach forms = 0 := by
  induction h with
  | stop => rfl
  | form hform _ ih =>
      rw [reach_cons, hnested hform, ih]
      rfl

theorem readNested_readsPlain {nested : Cursor → Result Value} (hnested : ReadsPlain nested)
    (dots : Bool) : ReadsPlain (readNested nested dots) := by
  intro c v after h
  cases readNested_production h with
  | @list close head forms stop tail hopening hrow _ =>
      have hhead : reach head = 0 := by
        rcases head_of_opening hopening with rfl | rfl | rfl
        all_goals rfl
      rw [reach_list, reach_append, reach_reverse, hhead, hrow.reach_eq hnested]
      rfl
  | wrapped _ hinner => simp [hnested hinner]
  | spread _ hinner => simp [hnested hinner]
  | bare => rfl
  | text => rfl
  | token _ htoken => exact readToken_readsPlain dots htoken

theorem readForm_readsPlain (dots : Bool) (levels : Nat) : ReadsPlain (readForm dots levels) := by
  induction levels with
  | zero =>
      intro c v after h
      cases h
  | succ levels ih => exact readNested_readsPlain ih dots

end Reader

/-- The forms of a text mention no record types. -/
theorem reach_of_read {text file : String} {dots : Bool} {forms : List Value}
    (h : read text file dots = .ok forms) : reach forms = 0 := by
  obtain ⟨forms, stop, hrow, rfl⟩ := Reader.row_of_readForms h
  exact hrow.reach_eq (Reader.readForm_readsPlain dots Reader.maxNesting)

theorem Failure.IsAboutText.reach_eq {f : Failure} (h : f.IsAboutText) : reach f = 0 := by
  obtain ⟨kind, message, span, _, rfl⟩ := h
  rfl

namespace Eval.Keeps

variable {n : Nat}

theorem readText (text file : String) : Keeps n (Eval.readText text file) := by
  have hanswer : ∀ w : World, reach (Eval.readText text file w).1 = 0 := by
    intro w
    unfold Eval.readText
    cases hread : read text file w.options.dotAccess with
    | ok forms => exact reach_of_read hread
    | error f => exact (read_complains hread).reach_eq
  refine .of_unchanged (fun w => ?_) fun w _ _ => ?_
  · unfold Eval.readText
    cases read text file w.options.dotAccess <;> rfl
  · rw [hanswer w]
    exact Nat.zero_le _

theorem runCommand (line : String) : Keeps n (Eval.runCommand line) := by
  refine .reading fun run => ?_
  refine .seq (.change (fun _ => rfl) fun w hw _ => hw.expansions) fun _ => ?_
  split
  · exact .complain rfl
  · exact .pure (Nat.zero_le _)
  · exact .complain rfl

/-! ### Builtins that need no machine -/

theorem wrongCount (name : String) (arity : Arity) (count : Nat) :
    Keeps n (Eval.fail (α := Value) (.argumentCount name arity count)) :=
  .complain rfl

theorem typeArguments (vs : List Value) : Keeps (reach vs) (Machine.typeArguments vs) := by
  induction vs with
  | nil => exact .pure (Nat.zero_le _)
  | cons v rest ih =>
      unfold Machine.typeArguments
      split
      · next heq => cases heq
      · next tag others heq =>
          cases heq
          simp only [reach_cons, reach_type]
          refine .map (ih.mono (Nat.le_max_right _ _)) fun tags => ?_
          simp only [reach_cons]
          omega
      · exact .showing fun _ => rfl

theorem callType (op : TypeOp) (args : List Value) :
    Keeps (reach args) (Machine.callType op args) := by
  unfold Machine.callType
  split
  · next v => exact .pure (Nat.le_trans (reach_tag_le v) (Nat.le_max_left _ _))
  · exact .map (.typeName _) fun _ => Nat.zero_le _
  · exact .showing fun _ => rfl
  · split
    · exact .pure (by simp only [reach_cons]; omega)
    · exact .seq (.typeName _) fun _ => .showing fun _ => rfl
  · exact .showing fun _ => rfl
  · refine .bind ((typeArguments _).mono (by simp)) fun key => ?_
    exact .bind (.interface? _) fun _ => .pure (Nat.zero_le _)
  · exact .showing fun _ => rfl
  · exact .bind (.interface? _) fun _ => .pure (Nat.zero_le _)
  · exact .showing fun _ => rfl
  · refine .bind (.interface? _) fun interface => .pure ?_
    rw [reach_ofList]
    refine reach_le_iff.mpr fun item hitem => ?_
    cases interface with
    | none => cases hitem
    | some i =>
        obtain ⟨s, -, rfl⟩ := List.mem_map.mp hitem
        exact Nat.zero_le _
  · exact .showing fun _ => rfl
  · exact .wrongCount _ _ _

theorem errorKind (v : Option Value) : Keeps n (Machine.errorKind v) := by
  cases v with
  | none => exact .pure (Nat.zero_le _)
  | some v => exact .map (.toKeyword v) fun _ => Nat.zero_le _

theorem accessorOf (way : Access) (subject : Value) :
    Keeps (reach subject) (Machine.accessorOf way subject) :=
  .map .serial fun _ => Nat.le_max_left _ _

theorem toIndex (name : String) (v : Value) : Keeps n (Machine.toIndex name v) := by
  unfold Machine.toIndex
  split
  · split
    · exact .pure (Nat.zero_le _)
    · exact .showing fun _ => rfl
  · exact .showing fun _ => rfl

theorem toEntries? (name : String) (v : Value) :
    Keeps (reach v) (Machine.toEntries? name v) := by
  unfold Machine.toEntries?
  split
  · exact .pure (by simp)
  · exact .pure (Nat.zero_le _)
  · exact .showing fun _ => rfl

theorem assocList (items pairs : List Value) :
    Keeps (reach (items, pairs)) (Machine.assocList items pairs) := by
  fun_induction Machine.assocList items pairs with
  | case1 items index v rest ihSet ihAppend =>
      simp only [reach_prod, reach_cons, reach_append, reach_nil] at ihSet ihAppend ⊢
      refine .seq (.toIndex _ _) fun i => ?_
      split
      · have hset := reach_set_le items i v
        exact (ihSet i).mono (by omega)
      · split
        · exact ihAppend.mono (by omega)
        · exact .complain rfl
  | case2 items pairs hpair => exact .pure (Nat.le_max_left _ _)

end Eval.Keeps

theorem reach_chunks_le (size turns : Nat) (items : List Value) :
    reach (Machine.chunks size turns items) ≤ reach items := by
  fun_induction Machine.chunks size turns items with
  | case1 => exact Nat.zero_le _
  | case2 => exact Nat.zero_le _
  | case3 turns items hitems ih =>
      have htake := reach_take_le items size
      have hdrop := reach_drop_le items size
      rw [reach_cons]
      omega

namespace Machine.KeepsTables

variable {m : Machine} (h : m.KeepsTables)
include h

/-! ### Errors and core implementations -/

theorem callError (op : ErrorOp) (args : List Value) :
    Keeps (reach args) (m.callError op args) := by
  unfold Machine.callError
  split
  · refine .seq (h.errorMessage _) fun message => ?_
    exact .seq (.errorKind _) fun kind => .newError (reach_argument_le args 1)
  · exact .pure (Nat.zero_le _)
  · exact .pure (Nat.zero_le _)
  · exact .pure (by simp)
  · refine .ask fun w _ _ => ?_
    rw [reach_ofList]
    refine reach_le_iff.mpr fun item hitem => ?_
    obtain ⟨text, -, rfl⟩ := List.mem_map.mp hitem
    exact Nat.zero_le _
  · next kind =>
      refine .pure ?_
      cases kind <;> exact Nat.zero_le _
  · exact .showing fun _ => rfl
  · exact .wrongCount _ _ _

theorem callCore (op : CoreOp) (args : List Value) :
    Keeps (reach args) (m.callCore op args) := by
  unfold Machine.callCore
  split
  case h_1 => exact .map (.shown _) fun _ => Nat.zero_le _
  case h_2 => exact .map ((h.hashOf _).mono (Nat.le_max_left _ _)) fun _ => Nat.zero_le _
  case h_3 => exact .map ((h.equal _ _).mono (by simp)) fun _ => Nat.zero_le _
  case h_15 =>
    split
    · exact .pure (Nat.zero_le _)
    · exact .complain rfl
  case h_17 => exact (Keeps.accessorOf _ _).mono (Nat.le_max_left _ _)
  case h_18 => exact (Keeps.accessorOf _ _).mono (Nat.le_max_left _ _)
  case h_19 => exact (Keeps.accessorOf _ _).mono (Nat.le_max_left _ _)
  case h_20 => exact .pure (by simp only [reach_cons, reach_list]; omega)
  case h_22 =>
    refine .pure ?_
    have htail := reach_tail_le (α := Value)
    simp only [reach_ofList, reach_cons, reach_list]
    exact Nat.le_trans (htail _) (Nat.le_max_left _ _)
  case h_32 => exact .wrongCount _ _ _
  all_goals exact .pure (Nat.zero_le _)

theorem callAccessor (way : Access) (subject : Value) (args : List Value) :
    Keeps (reach (subject, args)) (m.callAccessor way subject args) := by
  unfold Machine.callAccessor
  split
  · cases way <;> exact (h.get _ _).mono (by simp only [reach_prod, reach_cons]; omega)
  · exact .wrongCount _ _ _

/-! ### Arithmetic, comparison and equality -/

theorem fold (unit : Float) (lone : Float → Float) (op : Float → Float → Float)
    (args : List Value) : Keeps (reach args) (m.fold unit lone op args) := by
  refine .seq (h.toNums args) fun numbers => ?_
  split <;> exact .pure (Nat.zero_le _)

theorem compareValues (a b : Value) : Keeps (reach (a, b)) (m.compareValues a b) := by
  unfold Machine.compareValues
  split
  · exact .pure (Nat.zero_le _)
  · refine .seq ((h.toNum _).mono (Nat.le_max_left _ _)) fun x => ?_
    exact .seq ((h.toNum _).mono (Nat.le_max_right _ _)) fun y => .pure (by simp)

theorem chain (accept : Ordering → Bool) (vs : List Value) :
    Keeps (reach vs) (m.chain accept vs) := by
  fun_induction m.chain accept vs with
  | case1 a b rest ih =>
      simp only [reach_cons] at ih ⊢
      refine .seq ((h.compareValues a b).mono ?_) fun order => ?_
      · simp only [reach_prod]
        omega
      · cases order with
        | none => exact .pure (Nat.zero_le _)
        | some o =>
            dsimp only
            split
            · exact ih.mono (by omega)
            · exact .pure (Nat.zero_le _)
  | case2 vs hpair => exact .pure (Nat.zero_le _)

theorem allEqual (vs : List Value) : Keeps (reach vs) (m.allEqual vs) := by
  fun_induction m.allEqual vs with
  | case1 a b rest ih =>
      simp only [reach_cons] at ih ⊢
      refine .seq ((h.dispatchBool .equals [a, b]).mono ?_) fun same => ?_
      · simp only [reach_cons, reach_nil]
        omega
      · split
        · exact ih.mono (by omega)
        · exact .pure (Nat.zero_le _)
  | case2 vs hpair => exact .pure (Nat.zero_le _)

theorem callNumber (op : NumberOp) (args : List Value) :
    Keeps (reach args) (m.callNumber op args) := by
  unfold Machine.callNumber
  split
  · exact .map ((h.toStrs _).mono (by simp)) fun _ => Nat.zero_le _
  · exact h.fold _ _ _ _
  · exact h.fold _ _ _ _
  · exact h.fold _ _ _ _
  · exact h.fold _ _ _ _
  · refine .seq ((h.toNum _).mono (Nat.le_max_left _ _)) fun x => ?_
    exact .map ((h.toNum _).mono (by simp only [reach_cons]; omega)) fun _ => Nat.zero_le _
  · refine .seq ((h.toNum _).mono (Nat.le_max_left _ _)) fun x => ?_
    exact .map ((h.toNum _).mono (by simp only [reach_cons]; omega)) fun _ => Nat.zero_le _
  · exact .map ((h.toNum _).mono (Nat.le_max_left _ _)) fun _ => Nat.zero_le _
  · exact .map (h.chain _ _) fun _ => Nat.zero_le _
  · exact .map (h.chain _ _) fun _ => Nat.zero_le _
  · exact .map (h.chain _ _) fun _ => Nat.zero_le _
  · exact .map (h.chain _ _) fun _ => Nat.zero_le _
  · exact .map (h.allEqual _) fun _ => Nat.zero_le _
  · exact .map (h.allEqual _) fun _ => Nat.zero_le _
  · exact .map ((h.toBool _).mono (Nat.le_max_left _ _)) fun _ => Nat.zero_le _
  · exact .pure (Nat.zero_le _)
  · exact .pure (Nat.zero_le _)
  · exact .complain rfl
  · exact .wrongCount _ _ _

/-! ### Sequences and maps -/

theorem countOf (v : Value) : Keeps (reach v) (m.countOf v) := by
  unfold Machine.countOf
  split
  · exact .pure (Nat.zero_le _)
  · exact .pure (Nat.zero_le _)
  · exact .pure (Nat.zero_le _)
  · exact .pure (Nat.zero_le _)
  · exact .map (h.iterate _) fun _ => Nat.zero_le _

omit h in
/-- A list of what is at hand. -/
theorem listOf {n : Nat} {items : List Value} (hitems : reach items ≤ n) :
    Keeps n (Pure.pure (Value.ofList items) : Eval Value) := by
  refine .pure ?_
  rw [reach_ofList]
  exact hitems

omit h in
/-- A map of the entries that an evaluation gives. -/
theorem mapOf {n : Nat} {x : Eval Entries} (hx : Keeps n x) :
    Keeps n (x >>= fun entries => Pure.pure (Value.map entries)) := by
  refine hx.map fun entries => ?_
  rw [reach_map]
  exact Nat.le_max_right _ _

theorem assoc (target : Value) (pairs : List Value) :
    Keeps (reach (target, pairs)) (m.assoc target pairs) := by
  unfold Machine.assoc
  split
  · split
    · exact mapOf (h.mapInsertAll [] pairs)
    · exact mapOf ((h.mapInsertAll _ _).mono (by simp))
    · refine .bind ((Keeps.assocList _ _).mono (by simp)) fun more => ?_
      exact listOf (Nat.le_max_right _ _)
    · exact .showing fun _ => rfl
  · exact .complain rfl

theorem mapEach (p : Value) (items : List Value) :
    Keeps (reach (p, items)) (m.mapEach p items) := by
  induction items with
  | nil => exact .pure (Nat.zero_le _)
  | cons item rest ih =>
      simp only [reach_prod, reach_cons] at ih ⊢
      refine .bind ((h.call p [item]).mono ?_) fun v => .map (ih.mono ?_) fun others => ?_
      · simp only [reach_prod, reach_cons, reach_nil]
        omega
      · omega
      · simp only [reach_cons]
        omega

theorem filterEach (p : Value) (items : List Value) :
    Keeps (reach (p, items)) (m.filterEach p items) := by
  induction items with
  | nil => exact .pure (Nat.zero_le _)
  | cons item rest ih =>
      simp only [reach_prod, reach_cons] at ih ⊢
      refine .bind ((h.call p [item]).mono ?_) fun answer => ?_
      · simp only [reach_prod, reach_cons, reach_nil]
        omega
      · refine .seq ((h.toBool answer).mono (by omega)) fun keep => ?_
        refine .map (ih.mono (by omega)) fun others => ?_
        split
        · simp only [reach_cons]
          omega
        · omega

theorem reduceEach (p acc : Value) (items : List Value) :
    Keeps (reach (p, acc, items)) (m.reduceEach p acc items) := by
  induction items generalizing acc with
  | nil => exact .pure (by simp only [reach_prod]; omega)
  | cons item rest ih =>
      simp only [reach_prod, reach_cons] at ih ⊢
      refine .bind ((h.call p [acc, item]).mono ?_) fun next => (ih next).mono (by omega)
      simp only [reach_prod, reach_cons, reach_nil]
      omega

theorem forEach (p last : Value) (items : List Value) :
    Keeps (reach (p, last, items)) (m.forEach p last items) := by
  induction items generalizing last with
  | nil => exact .pure (by simp only [reach_prod]; omega)
  | cons item rest ih =>
      simp only [reach_prod, reach_cons] at ih ⊢
      refine .bind ((h.call p [item]).mono ?_) fun next => (ih next).mono (by omega)
      simp only [reach_prod, reach_cons, reach_nil]
      omega

omit h in
/-- The keys or the values of a map. -/
theorem columnOf (name : String) (v : Value) {part : Value × Value → Value}
    (hpart : ∀ entry, reach (part entry) ≤ reach entry) :
    Keeps (reach v) (Machine.toEntries? name v >>= fun entries =>
      Pure.pure (Value.ofList ((entries.getD []).map part))) := by
  refine .bind (.toEntries? name v) fun entries => listOf ?_
  have hcolumn := reach_map_le (l := entries.getD []) (f := part) fun entry _ => hpart entry
  have hentries := reach_getD_le entries []
  rw [reach_nil] at hentries
  omega

/-- A procedure for the elements of a value. -/
theorem procOnItems {n : Nat} {f v : Value} (hf : reach f ≤ n) (hv : reach v ≤ n)
    {next : Value → List Value → Eval Value}
    (hnext : ∀ p items, Keeps (max n (reach (p, items))) (next p items)) :
    Keeps n (m.toProc f >>= fun p => m.iterate v >>= next p) := by
  refine .bind ((h.toProc f).mono hf) fun p => ?_
  refine .bind ((h.iterate v).mono (by omega)) fun items => (hnext p items).mono ?_
  rw [reach_prod]
  omega

/-- The element at an index, or else the value to fall back on. -/
theorem nth (v index : Value) (fallback : List Value) :
    Keeps (reach (v :: index :: fallback)) (m.callSequence .nth (v :: index :: fallback)) := by
  refine .seq (.toIndex _ _) fun i => .bind ((h.iterate v).mono (Nat.le_max_left _ _)) ?_
  intro items
  have hitem := reach_getElem?_le items i
  split
  · next item heq =>
      rw [heq] at hitem
      exact .pure (Nat.le_trans hitem (Nat.le_max_right _ _))
  · exact .pure (by simp only [reach_cons]; omega)
  · exact .showing fun _ => rfl

/-- A call whose last argument is spread. -/
theorem applySpread (f : Value) (args : List Value) :
    Keeps (reach (f :: args)) (m.callSequence .apply (f :: args)) := by
  have hlast := reach_getLast?_le args
  have hothers := reach_dropLast_le args
  refine .bind ((h.toProc f).mono (Nat.le_max_left _ _)) fun p => ?_
  split
  · exact (h.call _ _).mono (by simp only [reach_prod, reach_nil]; omega)
  · next spread hspread =>
      rw [hspread] at hlast
      simp only [reach_some, reach_cons] at hlast ⊢
      refine .bind ((h.iterate _).mono (by omega)) fun items => (h.call _ _).mono ?_
      simp only [reach_prod, reach_append]
      omega

/-- The member under a key, or else the value to fall back on. -/
theorem getOr (target key fallback : Value) :
    Keeps (reach [target, key, fallback]) (m.callSequence .get [target, key, fallback]) := by
  refine .bind ((h.get _ _).mono ?_) fun found => ?_
  · simp only [reach_prod, reach_cons]
    omega
  · split
    · exact .pure (by simp only [reach_cons]; omega)
    · exact .pure (Nat.le_max_right _ _)

/-- An element in front of others. -/
theorem consOnto (item v : Value) :
    Keeps (reach [item, v]) (m.callSequence .cons [item, v]) := by
  simp only [reach_cons]
  refine .bind ((h.iterate _).mono (by omega)) fun items => listOf ?_
  rw [reach_cons]
  omega

/-- A map without the entries of several keys. -/
theorem dissoc (v : Value) (keys : List Value) :
    Keeps (reach (v :: keys)) (m.callSequence .dissoc (v :: keys)) := by
  refine .bind ((Keeps.toEntries? _ _).mono (Nat.le_max_left _ _)) fun entries => ?_
  cases entries with
  | none => exact .pure (Nat.zero_le _)
  | some entries =>
      refine mapOf ((h.mapRemoveAll _ _).mono ?_)
      simp only [reach_prod, reach_cons, reach_some]
      omega

/-- The values of a procedure on the elements. -/
theorem mapOver (f v : Value) : Keeps (reach [f, v]) (m.callSequence .map [f, v]) := by
  simp only [reach_cons]
  refine h.procOnItems (by omega) (by omega) fun p items => ?_
  refine .bind ((h.mapEach _ _).mono (Nat.le_max_right _ _)) fun vs => ?_
  exact listOf (Nat.le_max_right _ _)

/-- The elements that a procedure takes. -/
theorem filterOver (f v : Value) : Keeps (reach [f, v]) (m.callSequence .filter [f, v]) := by
  simp only [reach_cons]
  refine h.procOnItems (by omega) (by omega) fun p items => ?_
  refine .bind ((h.filterEach _ _).mono (Nat.le_max_right _ _)) fun vs => ?_
  exact listOf (Nat.le_max_right _ _)

/-- The elements, folded by a procedure. -/
theorem reduceOver (f start v : Value) :
    Keeps (reach [f, start, v]) (m.callSequence .reduce [f, start, v]) := by
  simp only [reach_cons]
  refine h.procOnItems (by omega) (by omega) fun p items => (h.reduceEach _ _ _).mono ?_
  simp only [reach_prod]
  omega

/-- A procedure on one element after the other. -/
theorem forEachOver (f v : Value) : Keeps (reach [f, v]) (m.callSequence .forEach [f, v]) := by
  simp only [reach_cons]
  refine h.procOnItems (by omega) (by omega) fun p items => (h.forEach _ _ _).mono ?_
  simp only [reach_prod, reach_value_nil]
  omega

/-- The elements, in lists of one size. -/
theorem chunk (size v : Value) :
    Keeps (reach [size, v]) (m.callSequence .chunk [size, v]) := by
  refine .seq (.toIndex _ _) fun count => ?_
  split
  · exact .complain rfl
  · refine .bind ((h.iterate _).mono (by simp only [reach_cons]; omega)) fun items => listOf ?_
    have hparts := reach_chunks_le count items.length items
    have hlists := reach_map_le (l := Machine.chunks count items.length items)
      (f := Value.ofList) fun part _ => Nat.le_of_eq (reach_ofList part)
    omega

theorem callSequence (op : SequenceOp) (args : List Value) :
    Keeps (reach args) (m.callSequence op args) := by
  unfold Machine.callSequence
  split
  · exact (h.get _ _).mono (by simp)
  · exact h.getOr _ _ _
  · exact .map ((h.countOf _).mono (Nat.le_max_left _ _)) fun _ => Nat.zero_le _
  · exact h.consOnto _ _
  · exact mapOf ((h.mapInsertPairs _ _).mono (by simp))
  · exact listOf (by simp)
  · refine .bind ((h.iterate _).mono (Nat.le_max_left _ _)) fun items => listOf ?_
    simp only [reach_append, reach_cons]
    omega
  · exact .bind (h.iterateAll _) fun items => listOf (Nat.le_max_right _ _)
  · exact (h.assoc _ _).mono (by simp)
  · exact h.dissoc _ _
  · exact (columnOf _ _ fun entry => Nat.le_max_left _ _).mono (Nat.le_max_left _ _)
  · exact (columnOf _ _ fun entry => Nat.le_max_right _ _).mono (Nat.le_max_left _ _)
  · exact .map ((h.mapContains _ _).mono (by simp)) fun _ => Nat.zero_le _
  · refine .bind ((h.iterate _).mono (Nat.le_max_left _ _)) fun items => ?_
    refine .map ((h.anyEqual _ _).mono ?_) fun _ => Nat.zero_le _
    simp only [reach_prod, reach_cons]
    omega
  · exact h.nth _ _ _
  · exact h.applySpread _ _
  · exact h.mapOver _ _
  · exact h.filterOver _ _
  · exact h.reduceOver _ _ _
  · exact h.forEachOver _ _
  · exact h.chunk _ _
  · refine .bind ((h.iterate _).mono (Nat.le_max_left _ _)) fun items => ?_
    refine .bind ((h.iterateAll _).mono (Nat.le_max_right _ _)) fun all => ?_
    exact listOf (Nat.le_max_right _ _)
  · exact .wrongCount _ _ _

/-! ### Reading, evaluating, printing and files -/

theorem interpretAll (frame : FrameId) (last : Value) (forms : List Value) :
    Keeps (reach (last, forms)) (m.interpretAll frame last forms) := by
  induction forms generalizing last with
  | nil => exact .pure (Nat.le_max_left _ _)
  | cons form rest ih =>
      simp only [reach_prod, reach_cons] at ih ⊢
      exact .bind ((h.interpret frame form).mono (by omega)) fun v => (ih v).mono (by omega)

/-- A text or form evaluated apart from the caller. -/
theorem evalApart (form : Value) : Keeps (reach form) (m.evalApart form) := by
  refine .seq (.extend _ _) fun frame => ?_
  split
  · exact .bind (.readText _ _) fun forms => (h.interpretAll frame _ forms).mono (by simp)
  · exact h.interpret frame _

theorem fileName (args : List Value) : Keeps (reach args) (m.fileName args) := by
  unfold Machine.fileName
  split
  · exact .pure (Nat.zero_le _)
  · exact (h.toStr _).mono (by simp only [reach_cons]; omega)

theorem freshName (args : List Value) : Keeps (reach args) (m.freshName args) := by
  unfold Machine.freshName
  split
  · exact .pure (Nat.zero_le _)
  · exact .pure (Nat.zero_le _)
  · exact (h.toStr _).mono (by simp only [reach_cons]; omega)

theorem callReflection (op : ReflectionOp) (args : List Value) :
    Keeps (reach args) (m.callReflection op args) := by
  unfold Machine.callReflection
  split
  · refine .seq ((h.fileName _).mono (by simp)) fun name => ?_
    refine .map (.readText _ _) fun forms => ?_
    rw [reach_ofList]
    exact Nat.le_max_right _ _
  · exact .showing fun _ => rfl
  · exact (h.evalApart _).mono (Nat.le_max_left _ _)
  · exact .map (.shown _) fun _ => Nat.zero_le _
  · exact .ask fun _ _ _ => Nat.zero_le _
  · refine .seq (h.freshName _) fun name => ?_
    exact .map .serial fun _ => Nat.zero_le _
  · exact .wrongCount _ _ _

theorem toPath (name : String) (v : Value) : Keeps (reach v) (m.toPath name v) := by
  unfold Machine.toPath
  split
  · exact .pure (Nat.zero_le _)
  · exact h.toStr _
  · exact h.toStr _
  · exact .showing fun _ => rfl

theorem toAppend (args : List Value) : Keeps (reach args) (m.toAppend args) := by
  unfold Machine.toAppend
  split
  · exact .pure (Nat.zero_le _)
  · exact .pure (Nat.zero_le _)
  · exact .map ((h.toStr _).mono (by simp only [reach_cons]; omega)) fun _ => Nat.zero_le _

theorem callSystem (op : SystemOp) (args : List Value) :
    Keeps (reach args) (m.callSystem op args) := by
  unfold Machine.callSystem
  split
  · refine .seq (h.toStrs _) fun texts => ?_
    refine .seq (.change (fun _ => rfl) fun w hw _ => hw.expansions) fun _ => ?_
    exact .pure (Nat.zero_le _)
  · refine .seq ((h.toPath _ _).mono (Nat.le_max_left _ _)) fun path => ?_
    refine .reading fun content => ?_
    split
    · exact .pure (Nat.zero_le _)
    · exact .complain rfl
  · refine .seq ((h.toPath _ _).mono (Nat.le_max_left _ _)) fun path => ?_
    simp only [reach_cons]
    refine .seq ((h.toStr _).mono (by omega)) fun content => ?_
    refine .seq ((h.toAppend _).mono (by omega)) fun append => .reading fun written => ?_
    split
    · refine .seq (.change (fun _ => rfl) fun w hw _ => hw.expansions) fun _ => ?_
      exact .pure (Nat.zero_le _)
    · exact .complain rfl
  · exact .seq (h.toStrs _) fun parts => .map (.runCommand _) fun _ => Nat.zero_le _
  · exact .wrongCount _ _ _

theorem callBuiltin (b : Builtin) (args : List Value) :
    Keeps (reach args) (m.callBuiltin b args) := by
  unfold Machine.callBuiltin
  split
  · cases b with
    | type op => exact .callType op args
    | number op => exact h.callNumber op args
    | sequence op => exact h.callSequence op args
    | error op => exact h.callError op args
    | reflection op => exact h.callReflection op args
    | system op => exact h.callSystem op args
    | core op => exact h.callCore op args
  · exact .wrongCount _ _ _

end Machine.KeepsTables

end Lisp
