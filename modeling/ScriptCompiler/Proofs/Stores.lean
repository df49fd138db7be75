import ScriptCompiler.Proofs.Access.Unit

/-!
# What functions write

A function stores to its own stack slots and to the fields of structs that it has made, and to nothing
else: its parameters and all variables that it assigns are in its frame, also where a variable at top
level has the same name. Globals are left to the entry function (`generate_storesInside`).
-/

namespace ScriptCompiler

namespace Ir.Func

/-- The address is that of a stack slot of the function. -/
def IsSlot (f : Func) (v : Value) : Prop :=
  ∃ r ty, v = .reg r .ptr ∧ .alloca r ty ∈ f.instrs

/-- The address is that of a field of a struct for which the function has asked for memory. -/
def IsNewField (f : Func) (v : Value) : Prop :=
  ∃ r element object index args, v = .reg r .ptr ∧
    .gep r element (.reg object .ptr) index ∈ f.instrs ∧
    .call (some object) .ptr Catalog.malloc args ∈ f.instrs

end Ir.Func

namespace Lowering

open Ir

namespace Access

variable {A : Access} {naming : Naming} {f : Func}

theorem Keeps.isSlot_of_own (hA : A.Keeps naming f) (hscope : A.scope = .function) {name : String}
    {storage : StorageClass} {slot : Value} (hown : A.own name storage slot) : f.IsSlot slot := by
  rcases hA.slots name storage slot hown with ⟨r, hslot, hreserved⟩ | ⟨htop, -⟩
  · exact ⟨r, storage.slotType, hslot, hreserved⟩
  · simp [hscope] at htop

/-- A function that keeps to an access stores to its slots and to its structs only. -/
theorem Keeps.stores (hA : A.Keeps naming f) (hscope : A.scope = .function) {value ptr : Value}
    (hi : .store value ptr ∈ f.instrs) : f.IsSlot ptr ∨ f.IsNewField ptr := by
  rcases hA.prepares_or_allows hi with hprepares | ⟨above, hallows⟩
  · cases hprepares with
    | null own => exact .inl (hA.isSlot_of_own hscope own)
  cases hallows with
  | compute h => simp [Instr.isComputation] at h
  | terminate h => simp [Instr.isTerminator] at h
  | @storeField r element base index _ field loose object =>
    obtain ⟨dst, args, rfl, hcall⟩ := object
    rw [hA.code] at field hcall
    exact .inr ⟨r, element, dst, index, args, rfl, field, hcall⟩
  | storePlain own | storeBox own => exact .inl (hA.isSlot_of_own hscope own)
  | storeTop value top => simp [hscope] at top

end Access

/-- A unit has its entry function first, and then the functions that it defines. Those have one
definition for each register and store to their own stack slots and to fields of structs that they
make. So every store to a global is in the entry function. -/
theorem generate_storesInside {target : Target} {naming : Naming} {observed : List String}
    {statements : List Node} {u : Generated}
    (hu : generate target naming observed statements = .ok u) :
    ∃ entry bodies, u.assembly.functions = entry :: bodies ∧ entry.name = naming.entrySymbol ∧
      bodies.map (·.name) = (noteAll [] (unitDefinitions naming statements)).map (·.symbol) ∧
      (∀ f ∈ bodies, DefinedOnce f.instrs ∧ ∀ value ptr, .store value ptr ∈ f.instrs →
        f.IsSlot ptr ∨ f.IsNewField ptr) ∧
      ∀ f ∈ u.assembly.functions, ∀ value symbol, .store value (.global symbol) ∈ f.instrs →
        f = entry := by
  obtain ⟨s, done, hentry, hfunctions, hroutines, hdone⟩ := generate_done rfl hu
  have hbodies : ∀ f ∈ done.map (·.2), DefinedOnce f.instrs ∧
      ∀ value ptr, .store value ptr ∈ f.instrs → f.IsSlot ptr ∨ f.IsNewField ptr := by
    intro f hf
    obtain ⟨p, hp, rfl⟩ := List.mem_map.mp hf
    obtain ⟨t, t', hbody, hfunc, -⟩ := hdone p hp
    obtain ⟨A, hscope, hkeeps, -⟩ := hbody.spec (permits_unrestricted.keepsAll _ _)
      (by simp [Rules.unrestricted])
    rw [hfunc]
    exact ⟨hkeeps.once, fun value ptr => hkeeps.stores hscope⟩
  refine ⟨s.builder.func, done.map (·.2), hfunctions, (entryDone hentry).name, ?_, hbodies, ?_⟩
  · have hnames : ∀ p ∈ done, p.2.name = p.1.symbol := fun p hp => by
      obtain ⟨t, t', ⟨rest, hpending, hrun⟩, hfunc, -⟩ := hdone p hp
      rw [hfunc]
      exact congrArg Signature.name (bodyDone hpending hrun).signature
    calc (done.map (·.2)).map (·.name)
      _ = (done.map (·.1)).map (·.symbol) := by
        rw [List.map_map, List.map_map]
        exact List.map_congr_left hnames
      _ = _ := by rw [hroutines]; rfl
  · intro f hf value symbol hstore
    rw [hfunctions] at hf
    refine (List.mem_cons.mp hf).resolve_right fun hf => ?_
    rcases (hbodies f hf).2 value _ hstore with ⟨r, ty, hslot, -⟩ | ⟨r, _, _, _, _, hfield, -⟩
    · simp [Value.global, Value.reg] at hslot
    · simp [Value.global, Value.reg] at hfield

/-- A unit with a function that has a boxed variable of its own with the name of one at top level,
assigns its parameter in a loop, and makes a struct. -/
def shadowing : List Node :=
  [.structDef "Pair" ["a", "b"],
    .assignment "x" (.literal (.number .one)),
    .functionDef "f" ["n"]
      [.loop (.binary "<" (.identifier "n") (.identifier "x"))
        [.assignment "x" (.identifier "n"),
          .assignment "n" (.literal (.number .one))],
        .assignment "p" (.structLiteral "Pair" [.identifier "x", .identifier "n"]),
        .ret (some (.memberAccess (.identifier "p") "a"))]]

theorem storesInside_shadowing :
    ∃ u entry f, generate (.resolve none) { mode := .program } ["x"] shadowing = .ok u ∧
      u.assembly.functions = [entry, f] ∧
      u.assembly.functions.map (fun f => (f.name, f.instrs.countP fun
        | .store .. => true
        | _ => false)) = [("main", 2), ("f", 7)] ∧
      ∀ value ptr, .store value ptr ∈ f.instrs → f.IsSlot ptr ∨ f.IsNewField ptr := by
  obtain ⟨u, hu, hstores⟩ := exists_generate (.resolve none) { mode := .program } ["x"] shadowing
    (fun u => u.assembly.functions.map (fun f => (f.name, f.instrs.countP fun
      | .store .. => true
      | _ => false)) = [("main", 2), ("f", 7)]) (by decide +kernel)
  have hstores := of_decide_eq_true hstores
  obtain ⟨entry, bodies, hfunctions, -, -, hbodies, -⟩ := generate_storesInside hu
  -- There is one function besides the entry function.
  obtain ⟨f, rfl⟩ : ∃ f, bodies = [f] := by
    have hlength := congrArg List.length hstores
    rw [hfunctions] at hlength
    exact List.length_eq_one_iff.mp (by simpa using hlength)
  exact ⟨u, entry, f, hu, hfunctions, hstores, (hbodies f List.mem_cons_self).2⟩

end Lowering

end ScriptCompiler
