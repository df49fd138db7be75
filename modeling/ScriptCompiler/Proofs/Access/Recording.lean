import ScriptCompiler.Proofs.Access.Run
import ScriptCompiler.Proofs.Numeric.Correct
import ScriptCompiler.Proofs.Stage.Basic

/-!
# A machine for runs that are looked at

Linked functions that hand out a new address whenever memory is asked for. A run of a generated
function on this machine can be evaluated, and the point that it comes to is one of a run in unknown
surroundings (`exists_arises`).
-/

namespace ScriptCompiler.Lowering

open Ir

/-- Linked functions that hand out an address whenever memory is asked for, each one once, and zero
otherwise. -/
def recording : Machine Nat where
  arithmetic := Numeric.leastNumbers.toArithmetic
  call callee _ made :=
    some (some (if callee ∈ Catalog.owners.map (·.1) then .address (.heap made) else .number .zero),
      made + 1)

theorem handsOut_recording : recording.HandsOut := by
  intro callee xs made result made' h
  obtain ⟨rfl, rfl⟩ := Prod.mk.inj (Option.some.inj h)
  refine ⟨fun d hd => ?_, fun hcallee d hd => ?_⟩
  · obtain rfl := Option.some.inj hd
    split
    · exact Datum.isForeign_heap _
    · exact Datum.isForeign_number _
  · have howner : Catalog.boxCreate ∈ Catalog.owners.map (·.1) := by decide
    rw [hcallee, if_pos howner] at hd
    exact ⟨made, (Option.some.inj hd).symm⟩

/-- The beginning of a function with the given parameters, where all globals hold one datum. -/
def beginning (params : List Datum) (content : Datum) : Frame Nat where
  regs r := params[r]?
  memory
    | .global _ => some content
    | _ => none
  world := 0

theorem begins_beginning {f : Func} {params : List Datum} {content : Datum}
    (hregs : List.range params.length ⊆ f.paramRegs) (hforeign : ∀ d ∈ params, d.IsForeign) :
    (Machine.withPast (beginning params content) []).Begins f where
  params _ hr := List.getElem?_eq_none (Nat.le_of_not_lt fun hlt => hr (hregs (List.mem_range.mpr hlt)))
  foreign _ _ hd := hforeign _ (List.mem_of_getElem? hd)
  slots _ := rfl
  past := rfl

/-- After so many steps of a function, a test of the point that the run comes to succeeds. -/
def runsTo (n : Nat) (φ : Frame Nat) (test : Machine.Traced Nat → Bool) (f : Func) : Bool :=
  (recording.traceAll f n (Machine.begin f φ)).any test

theorem exists_arises {n : Nat} {φ : Frame Nat} {test : Machine.Traced Nat → Bool} {f : Func}
    (h : runsTo n φ test f = true) :
    ∃ t, Arises Machine.alone f (Machine.withPast φ []) t.point ∧ test t = true := by
  obtain ⟨t, ht, htest⟩ := (Option.any_eq_true _ _).mp h
  exact ⟨t, Machine.arises_traceAll handsOut_recording _ ht, htest⟩

end ScriptCompiler.Lowering
