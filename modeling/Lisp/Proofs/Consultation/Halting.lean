import Lisp.Proofs.Congruence.Run

/-!
# Evaluations with an answer

Whether an evaluation has an answer, for a machine in which some requests may have
none.  What asks no machine always has one (`Eval.Prompt`); two evaluations in
sequence have one if both do (`Eval.halts_bind_iff`).

A conversion makes one request at most: the call of the implementation that its
interface has for the value.  So it is this call that decides about the conversion
(`Machine.convert_halts_iff`), about the types that are applied to convert their
argument (`Machine.construct_halts_iff`), and about a value in call position
(`Machine.toCallable_of_registered`).
-/

namespace Lisp

/-! ### Evaluations with an answer -/

namespace Eval

variable {α β : Type}

/-- The evaluation has an answer, be it a failure. -/
def Halts (x : Eval α) (w : World) : Prop :=
  (x w).1 ≠ .outOfFuel

/-- The evaluation has an answer in every world. -/
def Prompt (x : Eval α) : Prop :=
  ∀ w, x.Halts w

theorem Prompt.pure (a : α) : Prompt (Pure.pure a : Eval α) :=
  fun _ h => nomatch h

theorem Prompt.fail (f : Failure) : Prompt (Eval.fail f : Eval α) :=
  fun _ h => nomatch h

theorem Prompt.ask (view : World → α) : (Eval.ask view).Prompt :=
  fun _ h => nomatch h

theorem Prompt.failShowing (v : Value) (wording : String → Failure) :
    Prompt (Eval.failShowing v wording : Eval α) :=
  fun _ h => nomatch h

/-- Two evaluations in sequence: both have an answer, the second one where the first
one has a value. -/
theorem halts_bind_iff {x : Eval α} {k : α → Eval β} {w : World} :
    (x >>= k).Halts w ↔ x.Halts w ∧ ∀ a w', x w = (.ok a, w') → (k a).Halts w' := by
  unfold Halts
  rw [bind_run]
  rcases x w with ⟨answer, w₁⟩
  cases answer with
  | ok a => simp
  | failed f => simp
  | outOfFuel => simp

/-- What goes on promptly leaves the first evaluation to decide. -/
theorem halts_bind_prompt {x : Eval α} {k : α → Eval β} {w : World} (hk : ∀ a, (k a).Prompt) :
    (x >>= k).Halts w ↔ x.Halts w := by
  rw [halts_bind_iff]
  exact ⟨fun h => h.1, fun h => ⟨h, fun a w' _ => hk a w'⟩⟩

theorem Prompt.bind {x : Eval α} {k : α → Eval β} (hx : x.Prompt) (hk : ∀ a, (k a).Prompt) :
    (x >>= k).Prompt :=
  fun w => (halts_bind_prompt hk).mpr (hx w)

theorem Prompt.map {x : Eval α} (g : α → β) (hx : x.Prompt) :
    Prompt (x >>= fun a => Pure.pure (g a)) :=
  hx.bind fun a => .pure (g a)

theorem Prompt.newError (message : String) (data : Value) (kind : Option String)
    (stack : Option (List String)) : (Eval.newError message data kind stack).Prompt :=
  fun _ h => nomatch h

end Eval

/-! ### What the tables say -/

namespace Heap

/-- The implementation that an interface selects for arguments. -/
def selected? (h : Heap) (id : InterfaceId) (args : List Value) : Option Value :=
  match h.interfaces[id]? with
  | none => some .nil
  | some i =>
    if args.length < i.arity then none
    else i.implementation? ((args.take i.arity).map Value.tag)

/-- The implementation of a conversion for a value. -/
def converter? (h : Heap) (i : CoreInterface) (v : Value) : Option Value :=
  h.interfaces[i.id]?.bind (·.implementation? [v.tag])

/-- What is registered for a value's own type converts it. -/
theorem converter?_of_coreImplementation? {h : Heap} {i : CoreInterface} {v imp : Value}
    (himp : h.coreImplementation? i [v.tag] = some imp) : h.converter? i v = some imp := by
  unfold coreImplementation? at himp
  unfold converter?
  cases hi : h.interfaces[i.id]? with
  | none =>
      rw [hi] at himp
      cases himp
  | some interface =>
      rw [hi] at himp
      have hregistered : interface.registered? [v.tag] = some imp := himp
      simp [Interface.implementation?, hregistered]

end Heap

namespace Value

/-- The values that a receiver is passed on to. -/
def takesReceiver : Value → Bool
  | .closure _ | .builtin _ | .accessor .. => true
  | _ => false

end Value

/-- The value needs no conversion by this interface. -/
def CoreInterface.isAtHand : CoreInterface → Value → Bool
  | .toBool, v => v.tag == .bool
  | .toNum, v => v.tag == .num
  | .toStr, v => v.tag == .str
  | .toProc, v => v.isCallable
  | _, _ => true

namespace TypeTag

/-- Applied to these arguments, a type makes one conversion at most. -/
def isDirect : TypeTag → List Value → Bool
  | .map, _ => false
  | .str, _ :: _ :: _ => false
  | _, _ => true

/-- What a type converts of its arguments, and by which interface. -/
def conversion? : TypeTag → List Value → Option (CoreInterface × Value)
  | .bool, [v] => some (.toBool, v)
  | .num, [v] => some (.toNum, v)
  | .str, [v] => some (.toStr, v)
  | .proc, [v] => some (.toProc, v)
  | .error, v :: _ => some (.toStr, v)
  | _, _ => none

end TypeTag

namespace Machine

variable (m : Machine) {w : World}

/-- The choice of an implementation has an answer, and changes nothing. -/
theorem implementationFor_run (id : InterfaceId) (args : List Value) (w : World) :
    ∃ f, implementationFor id args w =
      ((match w.heap.selected? id args with | some imp => .ok imp | none => .failed f), w) := by
  unfold implementationFor Heap.selected?
  cases w.heap.interfaces[id]? with
  | none => exact ⟨default, rfl⟩
  | some i =>
      dsimp only
      by_cases hfew : args.length < i.arity
      · simp only [if_pos hfew]
        exact ⟨_, rfl⟩
      · simp only [if_neg hfew]
        cases i.implementation? ((args.take i.arity).map Value.tag) with
        | none => exact ⟨_, rfl⟩
        | some imp => exact ⟨default, rfl⟩

/-- A conversion has an answer if the implementation called for it has one. -/
theorem convert_halts_iff (i : CoreInterface) (target : String) (v : Value) :
    (m.convert i target v).Halts w ↔
      ∀ imp, w.heap.converter? i v = some imp → (m.call imp [v]).Halts w := by
  have hask : Eval.interface? i.id w = (.ok w.heap.interfaces[i.id]?, w) := rfl
  unfold convert Heap.converter?
  rw [Eval.Halts, Eval.bind_run, hask]
  cases w.heap.interfaces[i.id]? with
  | none =>
      have hfails := Eval.Prompt.fail (α := Value) (.mismatch "") w
      exact iff_of_true hfails (by simp)
  | some interface =>
      simp only [Option.bind_some]
      cases interface.implementation? [v.tag] with
      | none =>
          have hfails : Eval.Prompt (α := Value) _ := .bind (.ask (·.heap.typeName v.tag))
            fun type => .failShowing v fun shown =>
              .notConvertible shown target interface.name.name type
          exact iff_of_true (hfails w) (by simp)
      | some imp => simp [Eval.Halts]

/-- The complaint about a conversion. -/
theorem wrongConversion_prompt {α : Type} (v converted : Value) (target : String) :
    (wrongConversion (α := α) v converted target).Prompt :=
  .bind (.ask _) fun _ => .failShowing _ _

/-- A conversion of a value has an answer: the value is at hand, or the implementation
called for the conversion has one. -/
def ConversionHalts (i : CoreInterface) (v : Value) (w : World) : Prop :=
  i.isAtHand v = false → ∀ imp, w.heap.converter? i v = some imp → (m.call imp [v]).Halts w

/-- What has its result at hand, or else converts a value, has an answer if the
conversion has one. -/
theorem halts_iff_of_converts {α : Type} {x : Eval α} {i : CoreInterface} {v : Value}
    (target : String) (hprompt : i.isAtHand v = true → x.Prompt)
    (hconverts : i.isAtHand v = false →
      ∃ next : Value → Eval α, x = m.convert i target v >>= next ∧ ∀ a, (next a).Prompt) :
    x.Halts w ↔ m.ConversionHalts i v w := by
  unfold ConversionHalts
  cases h : i.isAtHand v with
  | true => simpa using hprompt h w
  | false =>
      obtain ⟨next, rfl, hnext⟩ := hconverts h
      rw [Eval.halts_bind_prompt hnext, convert_halts_iff]
      simp

theorem toBool_halts_iff (v : Value) : (m.toBool v).Halts w ↔ m.ConversionHalts .toBool v w := by
  refine m.halts_iff_of_converts "Bool" (fun htag => ?_) fun htag => ?_
  · cases v <;> first | exact .pure _ | cases htag
  · cases v with
    | bool b => cases htag
    | _ =>
        refine ⟨_, rfl, fun converted => ?_⟩
        cases converted <;> first | exact .pure _ | exact wrongConversion_prompt _ _ _

theorem toNum_halts_iff (v : Value) : (m.toNum v).Halts w ↔ m.ConversionHalts .toNum v w := by
  refine m.halts_iff_of_converts "Num" (fun htag => ?_) fun htag => ?_
  · cases v <;> first | exact .pure _ | cases htag
  · cases v with
    | num n => cases htag
    | _ =>
        refine ⟨_, rfl, fun converted => ?_⟩
        cases converted <;> first | exact .pure _ | exact wrongConversion_prompt _ _ _

theorem toStr_halts_iff (v : Value) : (m.toStr v).Halts w ↔ m.ConversionHalts .toStr v w := by
  refine m.halts_iff_of_converts "Str" (fun htag => ?_) fun htag => ?_
  · cases v <;> first | exact .pure _ | cases htag
  · cases v with
    | str text => cases htag
    | _ =>
        refine ⟨_, rfl, fun converted => ?_⟩
        cases converted <;> first | exact .pure _ | exact wrongConversion_prompt _ _ _

theorem toProc_halts_iff (v : Value) : (m.toProc v).Halts w ↔ m.ConversionHalts .toProc v w := by
  refine m.halts_iff_of_converts "Proc" (fun hcallable => ?_) fun hcallable => ?_
  · have hv : v.isCallable = true := hcallable
    unfold toProc
    rw [if_pos hv]
    exact .pure _
  · have hv : ¬ v.isCallable = true := Bool.eq_false_iff.mp hcallable
    unfold toProc
    rw [if_neg hv]
    refine ⟨_, rfl, fun converted => ?_⟩
    by_cases h : converted.isCallable
    · rw [if_pos h]
      exact .pure _
    · rw [if_neg h]
      exact wrongConversion_prompt _ _ _

/-! ### Types as constructors -/

/-- The one argument that a conversion wants. -/
theorem single_run (tag : TypeTag) (args : List Value) (w : World) :
    (∃ v, args = [v] ∧ single tag args w = (.ok v, w)) ∨
      (∀ v, args ≠ [v]) ∧ ∃ f, single tag args w = (.failed f, w) := by
  match args with
  | [v] => exact .inl ⟨v, rfl, rfl⟩
  | [] => exact .inr ⟨by simp, _, rfl⟩
  | a :: b :: rest => exact .inr ⟨by simp, _, rfl⟩

/-- What a type does with its only argument decides whether it has an answer. -/
theorem single_halts_iff {α : Type} (tag : TypeTag) (args : List Value) (use : Value → Eval α) :
    (single tag args >>= use).Halts w ↔ ∀ v, args = [v] → (use v).Halts w := by
  rw [Eval.halts_bind_iff, Eval.Halts]
  rcases single_run tag args w with ⟨v, rfl, hrun⟩ | ⟨hargs, f, hrun⟩
  · rw [hrun]
    simp
  · rw [hrun]
    simp [hargs]

/-- The same for a type that wraps what it gets. -/
theorem single_map_halts_iff {α β : Type} (tag : TypeTag) (args : List Value)
    (use : Value → Eval α) (g : α → β) :
    (single tag args >>= fun v => use v >>= fun a => pure (g a)).Halts w ↔
      ∀ v, args = [v] → (use v).Halts w := by
  rw [single_halts_iff]
  exact forall₂_congr fun v _ => Eval.halts_bind_prompt fun a => .pure (g a)

theorem toSymbol_prompt (v : Value) : (Eval.toSymbol v).Prompt := by
  unfold Eval.toSymbol
  split
  · exact .pure _
  · split
    · exact .fail _
    · exact .pure _
  · exact .failShowing _ _

theorem toKeyword_prompt (v : Value) : (Eval.toKeyword v).Prompt := by
  unfold Eval.toKeyword
  split
  · exact .pure _
  · exact .pure _
  · exact .pure _
  · exact .failShowing _ _

/-- A type that makes one conversion at most has an answer if the conversion has
one. -/
theorem construct_halts_iff {tag : TypeTag} {args : List Value} (hdirect : tag.isDirect args) :
    (m.construct tag args).Halts w ↔
      ∀ i v, tag.conversion? args = some (i, v) → m.ConversionHalts i v w := by
  cases tag with
  | bool =>
      refine (single_map_halts_iff .bool args m.toBool Value.bool).trans ?_
      simp only [toBool_halts_iff]
      rcases args with _ | ⟨v, _ | ⟨other, rest⟩⟩ <;> simp [TypeTag.conversion?]
  | num =>
      refine (single_map_halts_iff .num args m.toNum Value.num).trans ?_
      simp only [toNum_halts_iff]
      rcases args with _ | ⟨v, _ | ⟨other, rest⟩⟩ <;> simp [TypeTag.conversion?]
  | proc =>
      refine (single_halts_iff .proc args m.toProc).trans ?_
      simp only [toProc_halts_iff]
      rcases args with _ | ⟨v, _ | ⟨other, rest⟩⟩ <;> simp [TypeTag.conversion?]
  | str =>
      have hjoin : (m.construct .str args).Halts w ↔ (m.toStrs args).Halts w :=
        Eval.halts_bind_prompt fun texts => .pure (Value.str (String.join texts))
      rw [hjoin]
      match args, hdirect with
      | [], _ => exact iff_of_true (Eval.Prompt.pure _ w) nofun
      | [v], _ =>
          have hone : (m.toStrs [v]).Halts w ↔ (m.toStr v).Halts w :=
            Eval.halts_bind_prompt fun text => .map _ (.pure [])
          rw [hone, toStr_halts_iff]
          simp [TypeTag.conversion?]
  | error =>
      have hmake : (m.construct .error args).Halts w ↔ (m.errorMessage args).Halts w :=
        Eval.halts_bind_prompt fun message => .newError _ _ _ _
      rw [hmake]
      cases args with
      | nil => exact iff_of_true (Eval.Prompt.pure _ w) nofun
      | cons v rest =>
          rw [errorMessage, toStr_halts_iff]
          simp [TypeTag.conversion?]
  | nil => exact iff_of_true (Eval.Prompt.pure _ w) nofun
  | list => exact iff_of_true (Eval.Prompt.pure _ w) nofun
  | interface => exact iff_of_true (Eval.Prompt.fail _ w) nofun
  | sym =>
      refine (single_map_halts_iff .sym args Eval.toSymbol Value.sym).trans ?_
      exact iff_of_true (fun v _ => toSymbol_prompt v w) nofun
  | keyword =>
      refine (single_map_halts_iff .keyword args Eval.toKeyword Value.keyword).trans ?_
      exact iff_of_true (fun v _ => toKeyword_prompt v w) nofun
  | type =>
      refine (single_halts_iff .type args fun v => pure (Value.type v.tag)).trans ?_
      exact iff_of_true (fun v _ => Eval.Prompt.pure _ w) nofun
  | map => cases hdirect
  | record ty =>
      refine iff_of_true (Eval.Prompt.bind (.ask _) (fun fields => ?_) w) nofun
      split
      · exact .pure _
      · exact .bind (.ask _) fun _ => .fail _

/-! ### Values in call position -/

/-- A value of a type without a conversion to procedures of its own is not called. -/
theorem toCallable_of_unregistered {v : Value}
    (hnone : w.heap.coreImplementation? .toProc [v.tag] = none) :
    ∃ f, m.toCallable v w = (.failed f, w) := by
  unfold toCallable
  rw [Eval.bind_run]
  simp only [Eval.ask, hnone]
  exact ⟨_, rfl⟩

/-- A value of a type with such a conversion is converted by a call of it. -/
theorem toCallable_of_registered {v imp : Value} (hv : v.isCallable = false)
    (himp : w.heap.coreImplementation? .toProc [v.tag] = some imp) :
    m.toCallable v w = (m.call imp [v] >>= fun converted =>
      if converted.isCallable then pure converted
      else wrongConversion v converted "Proc" : Eval Value) w := by
  have hconvert : m.convert .toProc "Proc" v w = m.call imp [v] w := by
    have hconverter := Heap.converter?_of_coreImplementation? himp
    have hask : Eval.interface? CoreInterface.toProc.id w =
      (.ok w.heap.interfaces[CoreInterface.toProc.id]?, w) := rfl
    unfold Heap.converter? at hconverter
    unfold convert
    rw [Eval.bind_run, hask]
    cases hi : w.heap.interfaces[CoreInterface.toProc.id]? with
    | none =>
        rw [hi] at hconverter
        cases hconverter
    | some interface =>
        rw [hi] at hconverter
        have hselected : interface.implementation? [v.tag] = some imp := hconverter
        simp only [hselected]
  unfold toCallable toProc
  rw [Eval.bind_run]
  simp only [Eval.ask, himp, hv, Bool.false_eq_true, if_false]
  rw [Eval.bind_run, Eval.bind_run, hconvert]

end Machine

end Lisp
