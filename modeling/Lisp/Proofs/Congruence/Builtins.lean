import Lisp.Proofs.Congruence.Values
import Lisp.Proofs.Reader.Complaints

/-!
# Builtins under related machines

Each family of builtins is related to itself on related machines.  A builtin
that evaluates code does so in a frame that it makes itself, so builtins too
are related in every scope and without a recur.
-/

namespace Lisp

/-- A complaint about a text is fresh. -/
theorem Failure.IsAboutText.isFresh {f : Failure} (h : f.IsAboutText) : f.IsFresh := by
  obtain ⟨kind, message, span, _, rfl⟩ := h
  exact ⟨rfl, rfl⟩

namespace Congruence

variable {C : Congruence} {e : Option FrameId} {t : Bool}

/-- A wrong number of arguments. -/
theorem wrongCount (name : String) (arity : Arity) (count : Nat) :
    C.rel e t (Eval.fail (α := Value) (.argumentCount name arity count))
      (Eval.fail (.argumentCount name arity count)) :=
  C.fail ⟨rfl, rfl⟩

/-! ### Types, interfaces and errors -/

/-- The tags of values that must all be types. -/
theorem typeArguments (vs : List Value) :
    C.rel e t (Machine.typeArguments vs) (Machine.typeArguments vs) := by
  induction vs with
  | nil => exact C.pure _
  | cons v rest ih =>
      unfold Machine.typeArguments
      split
      · next heq => cases heq
      · next heq =>
          cases heq
          exact C.map _ ih
      · exact C.showing _ fun _ => ⟨rfl, rfl⟩

/-- A builtin on types and interfaces. -/
theorem callType (op : TypeOp) (args : List Value) :
    C.rel e t (Machine.callType op args) (Machine.callType op args) := by
  unfold Machine.callType
  split
  · exact C.pure _
  · exact C.map _ (C.ask fun _ _ => rfl)
  · exact C.showing _ fun _ => ⟨rfl, rfl⟩
  · split
    · exact C.pure _
    · exact C.seq (C.ask fun _ _ => rfl) fun _ => C.showing _ fun _ => ⟨rfl, rfl⟩
  · exact C.showing _ fun _ => ⟨rfl, rfl⟩
  · exact C.seq (C.typeArguments _) fun key => C.map _ (C.ask fun _ _ => rfl)
  · exact C.showing _ fun _ => ⟨rfl, rfl⟩
  · exact C.map _ (C.ask fun _ _ => rfl)
  · exact C.showing _ fun _ => ⟨rfl, rfl⟩
  · exact C.map _ (C.ask fun _ _ => rfl)
  · exact C.showing _ fun _ => ⟨rfl, rfl⟩
  · exact C.wrongCount _ _ _

/-- The kind of an error value. -/
theorem errorKind (v : Option Value) : C.rel e t (Machine.errorKind v) (Machine.errorKind v) := by
  cases v with
  | none => exact C.pure _
  | some v => exact C.map _ (C.toKeyword v)

/-- A new access procedure. -/
theorem accessorOf (way : Access) (subject : Value) :
    C.rel e t (Machine.accessorOf way subject) (Machine.accessorOf way subject) :=
  C.map _ C.serial

/-! ### Sequences without a machine -/

/-- The whole number that an index argument denotes. -/
theorem toIndex (name : String) (v : Value) :
    C.rel e t (Machine.toIndex name v) (Machine.toIndex name v) := by
  unfold Machine.toIndex
  split
  · split
    · exact C.pure _
    · exact C.showing _ fun _ => ⟨rfl, rfl⟩
  · exact C.showing _ fun _ => ⟨rfl, rfl⟩

/-- The entries of a map argument. -/
theorem toEntries? (name : String) (v : Value) :
    C.rel e t (Machine.toEntries? name v) (Machine.toEntries? name v) := by
  unfold Machine.toEntries?
  split
  · exact C.pure _
  · exact C.pure _
  · exact C.showing _ fun _ => ⟨rfl, rfl⟩

/-- A list with elements replaced or appended. -/
theorem assocList (items pairs : List Value) :
    C.rel e t (Machine.assocList items pairs) (Machine.assocList items pairs) := by
  fun_induction Machine.assocList items pairs with
  | case1 items index v rest ihSet ihAppend =>
      refine C.seq (C.toIndex _ _) fun i => ?_
      split
      · exact ihSet i
      · split
        · exact ihAppend
        · exact C.fail ⟨rfl, rfl⟩
  | case2 items pairs hpair => exact C.pure _

/-- A computation that fails with fresh failures only. -/
theorem ofExcept {α : Type} {r : Except Failure α} (hfresh : ∀ f, r = .error f → f.IsFresh) :
    C.rel e t (Eval.ofExcept r) (Eval.ofExcept r) := by
  cases r with
  | ok a => exact C.pure a
  | error f => exact C.fail (hfresh f rfl)

/-- A command line that the shell runs. -/
theorem runCommand (line : String) :
    C.rel e t (Eval.runCommand line) (Eval.runCommand line) := by
  unfold Eval.runCommand
  refine C.seq (C.ask fun _ _ => rfl) fun run => C.seq (C.change (.run line run)) fun _ => ?_
  split
  · exact C.fail ⟨rfl, rfl⟩
  · exact C.pure _
  · exact C.fail ⟨rfl, rfl⟩

/-- A text read with the settings of the interpreter. -/
theorem readText (text file : String) :
    C.rel e t (Eval.readText text file) (Eval.readText text file) := by
  have heq : Eval.readText text file =
      (Eval.ask (·.options.dotAccess) >>= fun dots => Eval.ofExcept (read text file dots)) := by
    funext w
    show Eval.readText text file w = Eval.ofExcept (read text file w.options.dotAccess) w
    unfold Eval.readText
    cases read text file w.options.dotAccess <;> rfl
  rw [heq]
  refine C.seq (C.ask fun _ _ => rfl) fun dots => ?_
  exact C.ofExcept fun f hf => (read_complains hf).isFresh

namespace Machines

variable {m n : Machine} (h : C.Machines m n)
include h

/-- A builtin on error values. -/
theorem callError (op : ErrorOp) (args : List Value) :
    C.rel e t (m.callError op args) (n.callError op args) := by
  unfold Machine.callError
  split
  · refine C.seq (h.errorMessage _) fun message => ?_
    exact C.seq (C.errorKind _) fun kind => C.newError _ _ _ _
  · exact C.pure _
  · exact C.pure _
  · exact C.pure _
  · exact C.ask fun _ _ => rfl
  · exact C.pure _
  · exact C.showing _ fun _ => ⟨rfl, rfl⟩
  · exact C.wrongCount _ _ _

/-- A core implementation. -/
theorem callCore (op : CoreOp) (args : List Value) :
    C.rel e t (m.callCore op args) (n.callCore op args) := by
  unfold Machine.callCore
  split
  case h_1 => exact C.map _ (C.ask fun _ _ => rfl)
  case h_2 => exact C.map _ (h.hashOf _)
  case h_3 => exact C.map _ (h.equal _ _)
  case h_15 =>
    split
    · exact C.pure _
    · exact C.fail ⟨rfl, rfl⟩
  case h_17 => exact C.accessorOf _ _
  case h_18 => exact C.accessorOf _ _
  case h_19 => exact C.accessorOf _ _
  case h_32 => exact C.wrongCount _ _ _
  all_goals exact C.pure _

/-- An access procedure. -/
theorem callAccessor (way : Access) (subject : Value) (args : List Value) :
    C.rel e t (m.callAccessor way subject args) (n.callAccessor way subject args) := by
  unfold Machine.callAccessor
  split
  · cases way <;> exact h.get _ _
  · exact C.wrongCount _ _ _

/-! ### Arithmetic, comparison and equality -/

/-- A fold over numbers. -/
theorem fold (unit : Float) (lone : Float → Float) (op : Float → Float → Float)
    (args : List Value) : C.rel e t (m.fold unit lone op args) (n.fold unit lone op args) := by
  refine C.seq (h.toNums args) fun numbers => ?_
  split <;> exact C.pure _

/-- The order of two values. -/
theorem compareValues (a b : Value) :
    C.rel e t (m.compareValues a b) (n.compareValues a b) := by
  unfold Machine.compareValues
  split
  · exact C.pure _
  · exact C.seq (h.toNum _) fun x => C.map _ (h.toNum _)

/-- The order of all neighbours. -/
theorem chain (accept : Ordering → Bool) (vs : List Value) :
    C.rel e t (m.chain accept vs) (n.chain accept vs) := by
  fun_induction m.chain accept vs with
  | case1 a b rest ih =>
      refine C.seq (h.compareValues a b) fun order => ?_
      cases order with
      | none => exact C.pure _
      | some o =>
          dsimp only
          split
          · exact ih
          · exact C.pure _
  | case2 vs hpair =>
      rw [Machine.chain] <;> try assumption
      exact C.pure _

/-- The equality of all neighbours. -/
theorem allEqual (vs : List Value) : C.rel e t (m.allEqual vs) (n.allEqual vs) := by
  fun_induction m.allEqual vs with
  | case1 a b rest ih =>
      refine C.seq (h.dispatchBool _ _) fun same => ?_
      split
      · exact ih
      · exact C.pure _
  | case2 vs hpair =>
      rw [Machine.allEqual] <;> try assumption
      exact C.pure _

/-- A number builtin. -/
theorem callNumber (op : NumberOp) (args : List Value) :
    C.rel e t (m.callNumber op args) (n.callNumber op args) := by
  unfold Machine.callNumber
  split
  · exact C.map _ (h.toStrs _)
  · exact h.fold _ _ _ _
  · exact h.fold _ _ _ _
  · exact h.fold _ _ _ _
  · exact h.fold _ _ _ _
  · exact C.seq (h.toNum _) fun x => C.map _ (h.toNum _)
  · exact C.seq (h.toNum _) fun x => C.map _ (h.toNum _)
  · exact C.map _ (h.toNum _)
  · exact C.map _ (h.chain _ _)
  · exact C.map _ (h.chain _ _)
  · exact C.map _ (h.chain _ _)
  · exact C.map _ (h.chain _ _)
  · exact C.map _ (h.allEqual _)
  · exact C.map _ (h.allEqual _)
  · exact C.map _ (h.toBool _)
  · exact C.pure _
  · exact C.pure _
  · exact C.fail ⟨rfl, rfl⟩
  · exact C.wrongCount _ _ _

/-! ### Sequences and maps -/

/-- The number of elements of a value. -/
theorem countOf (v : Value) : C.rel e t (m.countOf v) (n.countOf v) := by
  unfold Machine.countOf
  split
  · exact C.pure _
  · exact C.pure _
  · exact C.pure _
  · exact C.pure _
  · exact C.map _ (h.iterate _)

/-- A map or list with more entries. -/
theorem assoc (target : Value) (pairs : List Value) :
    C.rel e t (m.assoc target pairs) (n.assoc target pairs) := by
  unfold Machine.assoc
  split
  · split
    · exact C.map _ (h.mapInsertAll _ _)
    · exact C.map _ (h.mapInsertAll _ _)
    · exact C.map _ (C.assocList _ _)
    · exact C.showing _ fun _ => ⟨rfl, rfl⟩
  · exact C.fail ⟨rfl, rfl⟩

/-- The values of a procedure on each element. -/
theorem mapEach (p : Value) (items : List Value) :
    C.rel e t (m.mapEach p items) (n.mapEach p items) := by
  induction items with
  | nil => exact C.pure _
  | cons item rest ih => exact C.seq (h.call p [item]) fun v => C.map (v :: ·) ih

/-- The elements on which a procedure is true. -/
theorem filterEach (p : Value) (items : List Value) :
    C.rel e t (m.filterEach p items) (n.filterEach p items) := by
  induction items with
  | nil => exact C.pure _
  | cons item rest ih =>
      refine C.seq (h.call p [item]) fun answer => ?_
      exact C.seq (h.toBool answer) fun keep => C.map _ ih

/-- A procedure folded over elements. -/
theorem reduceEach (p acc : Value) (items : List Value) :
    C.rel e t (m.reduceEach p acc items) (n.reduceEach p acc items) := by
  induction items generalizing acc with
  | nil => exact C.pure _
  | cons item rest ih => exact C.seq (h.call p [acc, item]) fun next => ih next

/-- A procedure on each element in turn. -/
theorem forEach (p last : Value) (items : List Value) :
    C.rel e t (m.forEach p last items) (n.forEach p last items) := by
  induction items generalizing last with
  | nil => exact C.pure _
  | cons item rest ih => exact C.seq (h.call p [item]) fun next => ih next

/-- A sequence builtin. -/
theorem callSequence (op : SequenceOp) (args : List Value) :
    C.rel e t (m.callSequence op args) (n.callSequence op args) := by
  unfold Machine.callSequence
  split
  · exact h.get _ _
  · refine C.seq (h.get _ _) fun found => ?_
    split <;> exact C.pure _
  · exact C.map _ (h.countOf _)
  · exact C.map _ (h.iterate _)
  · exact C.map _ (h.mapInsertPairs _ _)
  · exact C.pure _
  · exact C.map _ (h.iterate _)
  · exact C.map _ (h.iterateAll _)
  · exact h.assoc _ _
  · refine C.seq (C.toEntries? _ _) fun entries => ?_
    cases entries with
    | none => exact C.pure _
    | some entries => exact C.map _ (h.mapRemoveAll _ _)
  · exact C.map _ (C.toEntries? _ _)
  · exact C.map _ (C.toEntries? _ _)
  · exact C.map _ (h.mapContains _ _)
  · exact C.seq (h.iterate _) fun items => C.map _ (h.anyEqual _ _)
  · refine C.seq (C.toIndex _ _) fun i => C.seq (h.iterate _) fun items => ?_
    split
    · exact C.pure _
    · exact C.pure _
    · exact C.showing _ fun _ => ⟨rfl, rfl⟩
  · refine C.seq (h.toProc _) fun p => ?_
    split
    · exact h.call _ _
    · exact C.seq (h.iterate _) fun items => h.call _ _
  · exact C.seq (h.toProc _) fun p => C.seq (h.iterate _) fun items => C.map _ (h.mapEach _ _)
  · exact C.seq (h.toProc _) fun p => C.seq (h.iterate _) fun items => C.map _ (h.filterEach _ _)
  · exact C.seq (h.toProc _) fun p => C.seq (h.iterate _) fun items => h.reduceEach _ _ _
  · exact C.seq (h.toProc _) fun p => C.seq (h.iterate _) fun items => h.forEach _ _ _
  · refine C.seq (C.toIndex _ _) fun size => ?_
    split
    · exact C.fail ⟨rfl, rfl⟩
    · exact C.map _ (h.iterate _)
  · exact C.seq (h.iterate _) fun items => C.map _ (h.iterateAll _)
  · exact C.wrongCount _ _ _

/-! ### Reading, evaluating, printing and files -/

/-- The value of the last of several forms, in a frame of their own. -/
theorem interpretAll (frame : FrameId) (last : Value) (forms : List Value) :
    C.rel (some frame) t (m.interpretAll frame last forms) (n.interpretAll frame last forms) := by
  induction forms generalizing last with
  | nil => exact C.pure _
  | cons form rest ih => exact C.seq (h.interpret frame form) fun v => ih v

/-- A form or text evaluated apart from the caller.  The frame is a new one, so
the caller's scope does not matter. -/
theorem evalApart (form : Value) : C.rel e t (m.evalApart form) (n.evalApart form) := by
  refine C.extend _ _ fun frame => ?_
  split
  · exact C.seq (C.readText _ _) fun forms => h.interpretAll frame _ forms
  · exact h.interpret frame _

/-- The name that `read` gives to a text. -/
theorem fileName (args : List Value) : C.rel e t (m.fileName args) (n.fileName args) := by
  unfold Machine.fileName
  split
  · exact C.pure _
  · exact h.toStr _

/-- The name of a fresh symbol. -/
theorem freshName (args : List Value) : C.rel e t (m.freshName args) (n.freshName args) := by
  unfold Machine.freshName
  split
  · exact C.pure _
  · exact C.pure _
  · exact h.toStr _

/-- A builtin that reads, evaluates or prints. -/
theorem callReflection (op : ReflectionOp) (args : List Value) :
    C.rel e t (m.callReflection op args) (n.callReflection op args) := by
  unfold Machine.callReflection
  split
  · exact C.seq (h.fileName _) fun name => C.map _ (C.readText _ _)
  · exact C.showing _ fun _ => ⟨rfl, rfl⟩
  · exact h.evalApart _
  · exact C.map _ (C.ask fun _ _ => rfl)
  · exact C.ask fun _ _ => rfl
  · exact C.seq (h.freshName _) fun name => C.map _ C.serial
  · exact C.wrongCount _ _ _

/-- The path that an argument names. -/
theorem toPath (name : String) (v : Value) : C.rel e t (m.toPath name v) (n.toPath name v) := by
  unfold Machine.toPath
  split
  · exact C.pure _
  · exact h.toStr _
  · exact h.toStr _
  · exact C.showing _ fun _ => ⟨rfl, rfl⟩

/-- Whether to write after the old content. -/
theorem toAppend (args : List Value) : C.rel e t (m.toAppend args) (n.toAppend args) := by
  unfold Machine.toAppend
  split
  · exact C.pure _
  · exact C.pure _
  · exact C.map _ (h.toStr _)

/-- A builtin that uses the output, files or commands. -/
theorem callSystem (op : SystemOp) (args : List Value) :
    C.rel e t (m.callSystem op args) (n.callSystem op args) := by
  unfold Machine.callSystem
  split
  · refine C.seq (h.toStrs _) fun texts => ?_
    exact C.seq (C.change (.print _)) fun _ => C.pure _
  · refine C.seq (h.toPath _ _) fun path => C.seq (C.ask fun _ _ => rfl) fun content => ?_
    split
    · exact C.pure _
    · exact C.fail ⟨rfl, rfl⟩
  · refine C.seq (h.toPath _ _) fun path => C.seq (h.toStr _) fun content => ?_
    refine C.seq (h.toAppend _) fun append => C.seq (C.ask fun _ _ => rfl) fun written => ?_
    split
    · exact C.seq (C.change (.write _)) fun _ => C.pure _
    · exact C.fail ⟨rfl, rfl⟩
  · exact C.seq (h.toStrs _) fun parts => C.map _ (C.runCommand _)
  · exact C.wrongCount _ _ _

/-- A builtin of any family. -/
theorem callBuiltin (b : Builtin) (args : List Value) :
    C.rel e t (m.callBuiltin b args) (n.callBuiltin b args) := by
  unfold Machine.callBuiltin
  split
  · cases b with
    | type op => exact C.callType op args
    | number op => exact h.callNumber op args
    | sequence op => exact h.callSequence op args
    | error op => exact h.callError op args
    | reflection op => exact h.callReflection op args
    | system op => exact h.callSystem op args
    | core op => exact h.callCore op args
  · exact C.wrongCount _ _ _

end Machines

end Congruence

end Lisp
