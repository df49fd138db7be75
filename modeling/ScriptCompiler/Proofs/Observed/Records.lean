import ScriptCompiler.Proofs.Observed.Runtime

/-!
# A machine that keeps records

The linked functions in their simplest form: a record is its value, records are numbered as they are
made, and none is ever given away again. On such a machine programs can be run by evaluation.
-/

namespace ScriptCompiler.Observed

open Ir Numeric

/-- The records that were made, by their values, and the numbers that were printed. -/
structure Records where
  values : List Double := []
  printed : List Double := []
deriving DecidableEq

namespace Records

/-- The value of a record. -/
def value (w : Records) : Address → Option Double
  | .heap n => w.values[n]?
  | _ => none

/-- What the linked functions do. -/
def call (symbol : String) (args : List Datum) (w : Records) : Option (Option Datum × Records) :=
  match symbol, args with
  | "eigen_create", [.number x] =>
    some (some (.address (.heap w.values.length)), { w with values := w.values ++ [x] })
  | "eigen_update", [.address (.heap n), .number x] =>
    if n < w.values.length then some (none, { w with values := w.values.set n x }) else none
  | "eigen_get_value", [.address (.heap n)] => do
    let x ← w.values[n]?
    return (some (.number x), w)
  | "eigen_destroy", [.address _] => some (none, w)
  | "eigen_print_double", [.number x] => some (none, { w with printed := w.printed ++ [x] })
  | "eigen_print_val", [.number x] => some (none, { w with printed := w.printed ++ [x] })
  | _, _ => none

/-- The machine. -/
def machine (N : Numbers) : Machine Records := ⟨N.toArithmetic, call⟩

theorem printed_call {symbol : String} {args : List Datum} {w w' : Records}
    {result : Option Datum} (h : call symbol args w = some (result, w')) :
    w'.printed = w.printed ++ shown symbol args := by
  unfold call at h
  split at h
  case h_1 =>
    obtain ⟨-, rfl⟩ := Prod.mk.inj (Option.some.inj h)
    exact (List.append_nil _).symm
  case h_2 =>
    split at h
    · obtain ⟨-, rfl⟩ := Prod.mk.inj (Option.some.inj h)
      exact (List.append_nil _).symm
    · simp at h
  case h_3 =>
    obtain ⟨x, -, h⟩ := Option.bind_eq_some_iff.mp h
    obtain ⟨-, rfl⟩ := Prod.mk.inj (Option.some.inj h)
    exact (List.append_nil _).symm
  case h_4 =>
    obtain ⟨-, rfl⟩ := Prod.mk.inj (Option.some.inj h)
    exact (List.append_nil _).symm
  case h_5 | h_6 =>
    obtain ⟨-, rfl⟩ := Prod.mk.inj (Option.some.inj h)
    rfl
  case h_7 => simp at h

theorem value_append (w : Records) (x : Double) :
    value { w with values := w.values ++ [x] } =
      Function.update w.value (.heap w.values.length) (some x) := by
  funext a
  by_cases ha : a = .heap w.values.length
  · subst ha
    simp [value]
  · rw [Function.update_of_ne ha]
    cases a with
    | heap n =>
      have hne : n ≠ w.values.length := fun heq => ha (by rw [heq])
      rcases Nat.lt_or_gt_of_ne hne with hlt | hgt
      · exact List.getElem?_append_left hlt
      · have hlong : (w.values ++ [x]).length ≤ n := by rw [List.length_append]; exact hgt
        exact (List.getElem?_eq_none hlong).trans (List.getElem?_eq_none (Nat.le_of_lt hgt)).symm
    | null | slot | global => rfl

theorem value_set (w : Records) {n : Nat} (h : n < w.values.length) (x : Double) :
    value { w with values := w.values.set n x } = Function.update w.value (.heap n) (some x) := by
  funext a
  by_cases ha : a = .heap n
  · subst ha
    simp [value, h]
  · rw [Function.update_of_ne ha]
    cases a with
    | heap m =>
      have hne : n ≠ m := fun heq => ha (by rw [heq])
      exact List.getElem?_set_ne hne
    | null | slot | global => rfl

/-- What is assumed of the linked functions holds of these. -/
def runtime (N : Numbers) : Runtime N (machine N) where
  printed := Records.printed
  value := value
  arithmetic := rfl
  prints := printed_call
  print := by
    intro symbol hsymbol x w
    simp only [printers, List.mem_cons, List.not_mem_nil, or_false] at hsymbol
    rcases hsymbol with rfl | rfl
    · exact ⟨_, rfl, rfl⟩
    · exact ⟨_, rfl, rfl⟩
  create := by
    intro x w
    exact ⟨_, _, rfl, by simp [value], value_append w x⟩
  update := by
    intro a y w ha x
    cases a with
    | heap n =>
      obtain ⟨hn, -⟩ := List.getElem?_eq_some_iff.mp ha
      exact ⟨_, if_pos hn, value_set w hn x⟩
    | null | slot | global => simp [value] at ha
  get := by
    intro a x w ha
    cases a with
    | heap n =>
      have hn : w.values[n]? = some x := ha
      refine ⟨w, ?_, rfl⟩
      show (w.values[n]?.bind fun x => some (some (Datum.number x), w)) = _
      rw [hn]
      rfl
    | null | slot | global => simp [value] at ha

end Records

end ScriptCompiler.Observed
