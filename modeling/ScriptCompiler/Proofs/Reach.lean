import ScriptCompiler.Proofs.Clashes
import ScriptCompiler.Proofs.Kinds

/-!
# Which variables a function reaches

A variable at top level is in the frame of the entry function, where no other function reaches it,
unless the unit is a library or a function that is noted at the start reads a variable of its name.
The functions that are noted at the start are those that stand at top level. One that stands in a
branch or in a loop is noted when the entry function comes to it, and what it reads was not looked at
when the variables were placed.

So whatever a function that stands at top level reads is in its reach, at all points of its body, and
the lowering of a unit can fail for a variable that is out of reach in the others only
(`generate_reaches`). There it does (`generate_lateReader`).
-/

namespace ScriptCompiler.Lowering

open Ir

/-- The functions that a unit defines in branches and loops. -/
def lateDefinitions (naming : Naming) (statements : List Node) : List Routine :=
  statements.flatMap fun
    | .functionDef .. => []
    | node => definitions naming node

section

variable {ctx : Context} {statements : List Node} {r : Routine} {rest : List Routine} {s : State}

/-! ## Functions that are noted at the start -/

theorem definitionsAll_eq_flatMap (naming : Naming) (nodes : List Node) :
    definitionsAll naming nodes = nodes.flatMap (definitions naming) := by
  induction nodes with
  | nil => rfl
  | cons node rest ih => rw [definitionsAll, ih, List.flatMap_cons]

/-- A function that is noted was noted at the start, or stands in a branch or a loop while none of
its name stands at top level. -/
theorem noted_early_or_late {naming : Naming}
    (hr : r ∈ noteAll [] (unitDefinitions naming statements)) :
    r ∈ noteAll [] (topDefinitions naming statements) ∨
      r ∈ lateDefinitions naming statements ∧
        ∀ q ∈ topDefinitions naming statements, q.name ≠ r.name := by
  rw [unitDefinitions, noteAll_append] at hr
  refine (mem_noteAll hr).imp_right fun ⟨hnone, hfind⟩ => ?_
  have htop : ∀ q ∈ topDefinitions naming statements, q.name ≠ r.name := by
    intro q hq hname
    obtain ⟨q', hq', hname'⟩ : ∃ q' ∈ noteAll [] (topDefinitions naming statements),
        q'.name = r.name := exists_mem_noteAll (.inr ⟨q, hq, hname⟩)
    exact hnone q' hq' hname'
  refine ⟨?_, htop⟩
  have hmem := List.mem_of_find?_eq_some hfind
  rw [definitionsAll_eq_flatMap] at hmem
  obtain ⟨node, hnode, hdefines⟩ := List.mem_flatMap.mp hmem
  refine List.mem_flatMap.mpr ⟨node, hnode, ?_⟩
  cases node with
  | functionDef name params body =>
    -- A function at top level has its own name.
    refine absurd rfl (htop r (List.mem_flatMap.mpr ⟨_, hnode, ?_⟩))
    exact hdefines
  | _ => exact hdefines

theorem readsAll_subset_shared {target : Target} {naming : Naming} {observed : List String}
    (hctx : ctx = Stage.contextOf target naming observed statements)
    (hr : r ∈ noteAll [] (topDefinitions naming statements)) : Node.readsAll r.body ⊆ ctx.shared := by
  obtain ⟨structs, hstart⟩ := start_eq target naming statements
  have hshared : ctx.shared = sharedNames (noteAll [] (topDefinitions naming statements)) := by
    rw [hctx]
    show sharedNames (State.start target naming statements).functions = _
    rw [hstart]
  rw [hshared]
  exact fun name hname => List.mem_flatMap.mpr ⟨r, hr, hname⟩

theorem Pending.early_or_late (h : Pending ctx statements (r :: rest) s) :
    r ∈ noteAll [] (topDefinitions ctx.naming statements) ∨
      r ∈ lateDefinitions ctx.naming statements ∧
        ∀ q ∈ topDefinitions ctx.naming statements, q.name ≠ r.name := by
  have hr : r ∈ s.functions :=
    (h.opens (p := fun _ => True) fun _ _ => trivial).2 List.mem_cons_self
  rw [h.entered.functions] at hr
  exact noted_early_or_late hr

end

/-- At all points of a function at top level, and of any function of a library, what the function
reads and is a variable at top level is in a global. The lowering of a unit fails for a variable that
is out of reach only in a program, and only if a function reads it that stands in a branch or a loop,
while none that stands at top level does. -/
theorem generate_reaches (target : Target) (naming : Naming) (observed : List String)
    (statements : List Node) :
    (∀ r rest s s₁ inner t, Pending (Stage.contextOf target naming observed statements) statements
        (r :: rest) s →
      openBody r r.params.length (Stage.contextOf target naming observed statements) s =
        .ok ((), s₁) →
      Visits (Stage.contextOf target naming observed statements) inner t r.body s₁ →
      naming.isLibrary = true ∨ r ∈ topDefinitions naming statements →
      ∀ name ∈ Node.readsAll r.body, ∀ b, t.globals.lookup name = some b →
        b.isModuleLevel = true) ∧
    ∀ name slot, generate target naming observed statements =
        .error (.internal (.notAddressable name slot)) →
      naming.isLibrary = false ∧
      (∃ r ∈ lateDefinitions naming statements, name ∈ Node.readsAll r.body) ∧
      ∀ r ∈ (State.start target naming statements).functions, name ∉ Node.readsAll r.body := by
  constructor
  · intro r rest s s₁ inner t hpending hopen hvisits hearly name hname b hb
    obtain ⟨⟨bound, hready⟩, hglobals⟩ := hpending.ready_openBody hopen
    rw [(Access.Ready.visits hvisits hready).2 rfl, hglobals rfl] at hb
    rcases hpending.entered.reached name b hb with hlevel | ⟨hprogram, hshared⟩
    · exact hlevel
    · rcases hearly with hlibrary | htop
      · exact absurd (hlibrary.symm.trans hprogram) (by simp)
      · rcases hpending.early_or_late with hr | ⟨-, hnone⟩
        · exact absurd (readsAll_subset_shared rfl hr hname) hshared
        · exact absurd rfl (hnone r htop)
  · intro name slot h
    rcases generate_fails rfl h with ⟨g, P, hsteps, hfails⟩ | ⟨r, rest, s, g, hpending, hsteps, hfails⟩
    · -- In the entry function every variable at top level is in reach.
      have htop : g.state.scope = .topLevel := (Stage.Steps.persists hsteps).mode.trans
        (ready_start target naming statements).scope
      obtain ⟨b, hinside, -⟩ := hfails.read_of_notAddressable
      exact absurd (htop.symm.trans hinside) (by simp)
    · obtain ⟨b, -, hb, hframed, hname⟩ := hfails.read_of_notAddressable
      rw [Stage.Steps.globals_eq hsteps rfl] at hb
      obtain ⟨hprogram, hshared⟩ :=
        (hpending.entered.reached name _ hb).resolve_left (by simp [hframed])
      refine ⟨hprogram, ?_, fun q hq hread => ?_⟩
      · rcases hpending.early_or_late with hr | ⟨hlate, -⟩
        · exact absurd (readsAll_subset_shared rfl hr hname) hshared
        · exact ⟨r, hlate, hname⟩
      · exact hshared (List.mem_flatMap.mpr ⟨q, hq, hread⟩)

/-- A variable, and a function in a branch that reads it. -/
def lateReader : List Node :=
  [.assignment "x" (.literal (.number .one)),
   .conditional (.literal (.number .one))
     [.functionDef "f" [] [.ret (some (.identifier "x"))]] []]

/-- The lowering of a unit fails for a variable that a function in a branch reads. -/
theorem generate_lateReader :
    generate (.resolve none) { mode := .program } [] lateReader =
      .error (.internal (.notAddressable "x" "%r0")) := by
  have h : (match generate (.resolve none) { mode := .program } [] lateReader with
      | .ok _ => none
      | .error e => some e) = some (.internal (.notAddressable "x" "%r0")) := by decide +kernel
  split at h
  case h_1 => cases h
  case h_2 e he => rw [he, Option.some.inj h]

end ScriptCompiler.Lowering
