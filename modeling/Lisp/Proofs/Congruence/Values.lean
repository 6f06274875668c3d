import Lisp.Proofs.Congruence.Straight

/-!
# Values under related machines

Conversions, declared equality and hash, the elements and members of values and
constructors: on related machines each of them is related to itself, in every
scope and without a recur.  None of these parts knows a frame, so none of them
needs one as its scope.

Most of them only ask and request (`Machine.Straight`), which is something that every
congruence respects (`Congruence.straight`).
-/

namespace Lisp

namespace Congruence

variable {C : Congruence} {α : Type} {e : Option FrameId} {t : Bool}

/-- What only asks and requests is related on machines that answer the requests in a
related way. -/
theorem straight {m n : Machine} {R : Request → Prop} (hR : ∀ r, R r → C.rel e t (m r) (n r))
    {x : Machine → Eval α} (hx : Machine.Straight R x) : C.rel e t (x m) (x n) := by
  induction hx with
  | pure a => exact C.pure a
  | fail hf => exact C.fail hf
  | ask hview => exact C.ask hview
  | request r hr => exact hR r hr
  | bind _ _ ihx ihk => exact C.seq ihx ihk

/-! ### Conversions -/

/-- The symbol of a value. -/
theorem toSymbol (v : Value) : C.rel e t (Eval.toSymbol v) (Eval.toSymbol v) := by
  unfold Eval.toSymbol
  split
  · exact C.pure _
  · split
    · exact C.fail ⟨rfl, rfl⟩
    · exact C.pure _
  · exact C.showing _ fun _ => ⟨rfl, rfl⟩

/-- The name of the keyword of a value. -/
theorem toKeyword (v : Value) : C.rel e t (Eval.toKeyword v) (Eval.toKeyword v) := by
  unfold Eval.toKeyword
  split
  · exact C.pure _
  · exact C.pure _
  · exact C.pure _
  · exact C.showing _ fun _ => ⟨rfl, rfl⟩

namespace Machines

variable {m n : Machine} (h : C.Machines m n)
include h

/-- What only asks and calls. -/
theorem calls {x : Machine → Eval α} (hx : Machine.Straight Request.IsCall x) :
    C.rel e t (x m) (x n) := by
  refine C.straight ?_ hx
  rintro r ⟨source, callee, args, rfl⟩
  exact h.apply source callee args

/-- What only asks and wants the elements of sequences. -/
theorem unfolds {x : Machine → Eval α} (hx : Machine.Straight Request.IsUnfolding x) :
    C.rel e t (x m) (x n) := by
  refine C.straight ?_ hx
  rintro r ⟨sequence, taken, rfl⟩
  exact h.unfold sequence taken

/-- A conversion through an interface. -/
theorem convert (i : CoreInterface) (target : String) (v : Value) :
    C.rel e t (m.convert i target v) (n.convert i target v) :=
  h.calls (.convert _ _ _)

/-- The truth of a value. -/
theorem toBool (v : Value) : C.rel e t (m.toBool v) (n.toBool v) :=
  h.calls (.toBool v)

/-- The number of a value. -/
theorem toNum (v : Value) : C.rel e t (m.toNum v) (n.toNum v) :=
  h.calls (.toNum v)

/-- The text of a value. -/
theorem toStr (v : Value) : C.rel e t (m.toStr v) (n.toStr v) :=
  h.calls (.toStr v)

/-- The procedure of a value. -/
theorem toProc (v : Value) : C.rel e t (m.toProc v) (n.toProc v) :=
  h.calls (.toProc v)

/-- The procedure of a value in call position. -/
theorem toCallable (v : Value) : C.rel e t (m.toCallable v) (n.toCallable v) :=
  h.calls (.toCallable v)

/-- The texts of several values. -/
theorem toStrs (vs : List Value) : C.rel e t (m.toStrs vs) (n.toStrs vs) :=
  h.calls (.toStrs vs)

/-- The numbers of several values. -/
theorem toNums (vs : List Value) : C.rel e t (m.toNums vs) (n.toNums vs) :=
  h.calls (.toNums vs)

/-- The truth of what an interface answers. -/
theorem dispatchBool (i : CoreInterface) (args : List Value) :
    C.rel e t (m.dispatchBool i args) (n.dispatchBool i args) :=
  h.calls (.dispatchBool i args)

/-! ### Equality, maps and hash -/

/-- Equality of two values. -/
theorem equal (a b : Value) : C.rel e t (m.equal a b) (n.equal a b) :=
  h.calls (.equal a b)

/-- The key under which a map holds a key. -/
theorem storedKey? (entries : Entries) (key : Value) :
    C.rel e t (m.storedKey? entries key) (n.storedKey? entries key) :=
  h.calls (.storedKey? entries key)

/-- Whether a map has an entry for a key. -/
theorem mapContains (entries : Entries) (key : Value) :
    C.rel e t (m.mapContains entries key) (n.mapContains entries key) :=
  C.map _ (h.storedKey? entries key)

/-- A map with more entries, given as keys and values in turn. -/
theorem mapInsertAll (entries : Entries) (vs : List Value) :
    C.rel e t (m.mapInsertAll entries vs) (n.mapInsertAll entries vs) :=
  h.calls (.mapInsertAll entries vs)

/-- A map with more entries, given as two-element lists. -/
theorem mapInsertPairs (entries : Entries) (vs : List Value) :
    C.rel e t (m.mapInsertPairs entries vs) (n.mapInsertPairs entries vs) :=
  h.calls (.mapInsertPairs entries vs)

/-- A map without the entries of several keys. -/
theorem mapRemoveAll (entries : Entries) (keys : List Value) :
    C.rel e t (m.mapRemoveAll entries keys) (n.mapRemoveAll entries keys) :=
  h.calls (.mapRemoveAll entries keys)

/-- Whether some element is equal to a value. -/
theorem anyEqual (needle : Value) (items : List Value) :
    C.rel e t (m.anyEqual needle items) (n.anyEqual needle items) :=
  h.calls (.anyEqual needle items)

/-- The hash of a value. -/
theorem hashOf (v : Value) : C.rel e t (m.hashOf v) (n.hashOf v) :=
  h.calls (.hashOf v)

/-! ### Elements, members and constructors -/

/-- The elements of a value. -/
theorem iterate (v : Value) : C.rel e t (m.iterate v) (n.iterate v) :=
  h.unfolds (.iterate v)

/-- The elements of several values. -/
theorem iterateAll (vs : List Value) : C.rel e t (m.iterateAll vs) (n.iterateAll vs) :=
  h.unfolds (.iterateAll vs)

/-- The member of a value under a key. -/
theorem get (target key : Value) : C.rel e t (m.get target key) (n.get target key) :=
  h.calls (.get target key)

/-- One step of a member access. -/
theorem member (target key : Value) : C.rel e t (m.member target key) (n.member target key) :=
  h.calls (.member target key)

omit h in
/-- The only argument of a conversion. -/
theorem single (tag : TypeTag) (args : List Value) :
    C.rel e t (Machine.single tag args) (Machine.single tag args) := by
  unfold Machine.single
  split
  · exact C.pure _
  · exact C.seq (C.ask fun _ _ => rfl) fun _ => C.fail ⟨rfl, rfl⟩

/-- The message of an error value. -/
theorem errorMessage (args : List Value) :
    C.rel e t (m.errorMessage args) (n.errorMessage args) := by
  unfold Machine.errorMessage
  split
  · exact C.pure _
  · exact h.toStr _

/-- A type applied to arguments. -/
theorem construct (tag : TypeTag) (args : List Value) :
    C.rel e t (m.construct tag args) (n.construct tag args) := by
  unfold Machine.construct
  cases tag with
  | nil => exact C.pure _
  | bool => exact C.seq (single _ _) fun v => C.map _ (h.toBool v)
  | num => exact C.seq (single _ _) fun v => C.map _ (h.toNum v)
  | str => exact C.map _ (h.toStrs args)
  | sym => exact C.seq (single _ _) fun v => C.map _ (C.toSymbol v)
  | keyword => exact C.seq (single _ _) fun v => C.map _ (C.toKeyword v)
  | list => exact C.pure _
  | map =>
      dsimp only
      split
      · exact C.map _ (h.mapInsertAll [] args)
      · exact C.fail ⟨rfl, rfl⟩
  | proc => exact C.seq (single _ _) fun v => h.toProc v
  | interface => exact C.fail ⟨rfl, rfl⟩
  | type => exact C.map _ (single _ _)
  | error => exact C.seq (h.errorMessage args) fun message => C.newError _ _ _ _
  | record ty =>
      refine C.seq (C.ask fun _ _ => rfl) fun fields => ?_
      split
      · exact C.pure _
      · exact C.seq (C.ask fun _ _ => rfl) fun _ => C.fail ⟨rfl, rfl⟩

end Machines

end Congruence

end Lisp
