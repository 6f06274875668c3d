import Lisp.Proofs.Congruence

/-!
# Alarms

Whether something ever happens in a run cannot be seen in the result of the run: a
handler may have taken the failure, and a later change may have covered the trace.  So
a machine is given an **alarm**, which it raises wherever the thing happens.  It never
happens if the run is the same whatever the alarm does.

One kind of alarm is enough to draw consequences from that.  `Eval.halt` gives up with
a mark on the output.  No way of putting evaluations together goes on from there
(`Halted.bind` and the lemmas after it), and a run that no alarm changes is halted by
none of them (`exists_not_halted`).
-/

namespace Lisp

/-- The run was stopped by an alarm that leaves the mark. -/
def Halted (mark : String) (result : Answer α × World) : Prop :=
  result.1 = .outOfFuel ∧ result.2.output = mark

/-- The alarm that stops the run and leaves the mark. -/
def Eval.halt (mark : String) : Eval α := fun w => (.outOfFuel, { w with output := mark })

/-- The alarm stops the run. -/
theorem Eval.halt_halted (mark : String) (w : World) :
    Halted mark ((Eval.halt mark : Eval α) w) :=
  ⟨rfl, rfl⟩

/-- What no alarm changes is halted by none of them. -/
theorem exists_not_halted {observed : Eval Value → Answer α × World} {result : Answer α × World}
    (h : ∀ alarm, observed alarm = result) :
    ∃ mark, ¬ Halted mark (observed (Eval.halt mark)) := by
  refine ⟨result.2.output ++ "!", fun ⟨_, houtput⟩ => ?_⟩
  rw [h] at houtput
  have hlength := congrArg String.length houtput
  rw [String.length_append] at hlength
  exact absurd hlength (Nat.ne_of_lt (Nat.lt_succ_self _))

namespace Halted

variable {α β : Type} {mark : String} {w : World}

/-- Nothing goes on from there. -/
theorem bind {x : Eval α} (k : α → Eval β) (h : Halted mark (x w)) : Halted mark ((x >>= k) w) := by
  rw [Eval.bind_run]
  rcases hrun : x w with ⟨answer, w'⟩
  rw [hrun] at h
  obtain ⟨rfl, houtput⟩ := h
  exact ⟨rfl, houtput⟩

/-- There is no failure to reword. -/
theorem onFailure {x : Eval α} (g : World → Failure → Failure) (h : Halted mark (x w)) :
    Halted mark (x.onFailure g w) := by
  unfold Eval.onFailure
  rcases hrun : x w with ⟨answer, w'⟩
  rw [hrun] at h
  obtain ⟨rfl, houtput⟩ := h
  exact ⟨rfl, houtput⟩

/-- There is no failure to take. -/
theorem rescue {x : Eval α} (takes : Failure → Bool) (handler : Failure → Eval α)
    (h : Halted mark (x w)) : Halted mark (x.rescue takes handler w) := by
  unfold Eval.rescue
  rcases hrun : x w with ⟨answer, w'⟩
  rw [hrun] at h
  obtain ⟨rfl, houtput⟩ := h
  exact ⟨rfl, houtput⟩

end Halted

end Lisp
