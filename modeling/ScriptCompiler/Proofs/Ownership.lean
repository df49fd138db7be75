import ScriptCompiler.Proofs.Provenance

/-!
# Which records a function updates

A function has a boxed record of its own in its frame for every local variable that is observed. A
local variable whose first value is the bare name of a boxed variable shares the record of that
variable instead, and where the other variable is one at top level, a further assignment to the local
variable updates the record of the variable at top level.

`generate_updatesOwnRecords` says that nothing else does. The names of the local variables that may
come to share a record from top level can be read off the text of the function (`Rules.lending`).
Every update in the function is one of a record in the frame that the function has initialized, unless
it is for one of these names, or the variable had not been assigned. `updatesOuter_assignedTwice` shows
a function that updates a record from top level.
-/

namespace ScriptCompiler.Lowering

open Ir
open Numeric (assigned assignedAll)

/-- The variable at top level is boxed and in reach of functions. -/
def isBoxed (globals : Table Binding) (name : String) : Bool :=
  (globals.lookup name).any fun b => b.isModuleLevel && b.storage.isTracked

/-- The rules for the text of a function under which only the local variables `borrowers` share the
record of a boxed variable at top level, or that of another one of them. -/
def Rules.lending (globals : Table Binding) (params borrowers : List String) : Rules where
  mayRead _ _ := true
  mayShare bound target name :=
    target ∈ borrowers || if name ∈ bound then name ∉ borrowers else !isBoxed globals name
  mayRepeat := !decide params.Nodup

/-- The datum is a record in the frame of the function, which initialized it in this run. -/
def IsOwnRecord (past : Past) (d : Datum) : Prop :=
  ∃ r y, d = .address (.slot r) ∧ .called none Catalog.boxInit [.address (.slot r), y] none ∈ past

/-- A value was read from the slot of a variable. -/
def ReadFrom (f : Func) (locals : Table Binding) (name : String) (v : Value) : Prop :=
  ∃ b r, locals.lookup name = some b ∧ v = .reg r .ptr ∧ .load r .ptr b.slot ∈ f.instrs

/-- Every update in a run of a function is one of a record of its own. The exceptions are updates for
the local variables `borrowers`, which are told apart by their names if the parameters are, and of what
was read from a stack slot for a record before anything was stored there. -/
def UpdatesOwnRecords (naming : Naming) (f : Func) (locals : Table Binding)
    (params borrowers : List String) (S : Surroundings) (φ₀ : Frame Past) : Prop :=
  ∀ label v args rest φ d,
    Arises S f φ₀ ⟨label, .call none .void Catalog.boxUpdate (v :: args) :: rest, φ⟩ →
    φ.eval v = some d →
    IsOwnRecord φ.world d ∨
      (∃ name ∈ borrowers, params.Nodup → ReadFrom f locals name v) ∨
      (∃ r, v = .reg r .ptr ∧ ReadUnassigned naming (fun _ => False) f φ.world r) ∨
      SharedUnassigned naming (fun _ => False) f φ.world d

theorem IsOwnRecord.mono {past past' : Past} {d : Datum} (h : IsOwnRecord past d)
    (hsub : past ⊆ past') : IsOwnRecord past' d := by
  obtain ⟨r, y, hd, hcalled⟩ := h
  exact ⟨r, y, hd, hsub hcalled⟩

namespace Access

/-- The slot of a boxed local variable that shares no record from top level. -/
def IsApart (A : Access) (borrowers : List String) (slot : Value) : Prop :=
  ∃ name storage, A.own name storage slot ∧ storage.isTracked = true ∧
    (storage = .borrowed → name ∉ borrowers)

section

variable {A : Access} {ctx : Context} {f : Func} {s : State} {S : Surroundings} {φ₀ : Frame Past}
  {params borrowers names : List String} {slot : Value} {a : Address}

theorem Keeps.exists_slot (hA : A.Keeps ctx.naming f) (hscope : A.scope = .function)
    (h : A.IsApart borrowers slot) :
    ∃ r, slot = .reg r .ptr ∧ .alloca r .ptr ∈ f.instrs := by
  obtain ⟨name, storage, hown, htracked, -⟩ := h
  rcases hA.slots _ _ _ hown with ⟨r, hslot, hreserved⟩ | ⟨htop, -⟩
  · exact ⟨r, hslot, slotType_of_isTracked htracked ▸ hreserved⟩
  · simp [hscope] at htop

theorem Keeps.isPlace_slot (hA : A.Keeps ctx.naming f) (hscope : A.scope = .function)
    (h : A.IsApart borrowers slot) (ha : f.Home slot a) :
    IsPlace ctx.naming (fun _ => False) f a := by
  obtain ⟨r, rfl, hreserved⟩ := hA.exists_slot hscope h
  exact .inl ⟨r, ha.unique (.slot hreserved), hreserved⟩

/-- A local variable that may not share a record from top level shares one with another such
variable. -/
theorem Within.isApart (hwithin : A.Within (.lending s.globals params borrowers) names)
    (hfits : A.Fits ctx (.lending s.globals params borrowers) s) {target : String}
    {storage : StorageClass} (htarget : target ∉ borrowers) (hcell : A.Cell storage slot)
    (htracked : storage.isTracked = true) (hlends : A.lends target slot) :
    A.IsApart borrowers slot := by
  obtain ⟨bound, name, hmay, hown, houter⟩ := hwithin.lends target slot hlends
  have hmay : (if name ∈ bound then decide (name ∉ borrowers) else !isBoxed s.globals name) = true := by
    simpa [Rules.lending, htarget] using hmay
  split at hmay
  case isTrue hbound =>
    obtain ⟨storage', hown'⟩ := hown hbound
    refine ⟨name, storage', hown', ?_, fun _ => of_decide_eq_true hmay⟩
    rwa [hfits.cells hfits.confines _ _ _ (.own hown') hcell]
  case isFalse hbound =>
    -- The variable at top level is boxed after all.
    obtain ⟨b, hb, rfl⟩ := houter hbound
    obtain ⟨hlookup, hmodule⟩ := hfits.reaches name b hb
    have hfree := (hfits.free [] name rfl List.not_mem_nil).1
    have hstorage := hfits.cells hfits.confines _ _ _ hcell (.outer hb hfree)
    simp [isBoxed, hlookup, hmodule, ← hstorage, htracked] at hmay

/-- The records of local variables that share none from top level are watched over. -/
def ownRecords (hA : A.Keeps ctx.naming f) (hscope : A.scope = .function)
    (hwithin : A.Within (.lending s.globals params borrowers) names)
    (hfits : A.Fits ctx (.lending s.globals params borrowers) s) (hbegin : φ₀.Begins f) :
    Watch A f S φ₀ where
  slots := A.IsApart borrowers
  good past d := IsOwnRecord past d ∨ SharedUnassigned ctx.naming (fun _ => False) f past d
  mono hsuffix := Or.imp (·.mono hsuffix.subset) (·.mono hsuffix)
  home hslot := by
    obtain ⟨r, rfl, hreserved⟩ := hA.exists_slot hscope hslot
    exact ⟨.slot r, .slot hreserved, .inl ⟨r, rfl⟩⟩
  boxed hslot hown := by
    obtain ⟨name', storage', hown', htracked, -⟩ := hslot
    rwa [(hA.apart _ _ _ _ _ hown hown').2]
  top _ htop := by simp [hscope] at htop
  lends htarget hown hcell htracked hlends := by
    obtain ⟨name', storage', hown', -, hborrows⟩ := htarget
    obtain ⟨rfl, rfl⟩ := hA.apart _ _ _ _ _ hown hown'
    exact hwithin.isApart hfits (hborrows rfl) hcell htracked hlends
  stack _ hcalled := .inl ⟨_, _, rfl, hcalled⟩
  heap htop _ := by simp [hscope] at htop
  missing {name target b past earlier r slot a d} htarget _ hb hslot ha hlast hunset :=
    .inr ⟨a, b, r, [], past, earlier, hA.isPlace_slot hscope hslot ha,
      hA.isPlace_slot hscope htarget hb, rfl, hlast, hunset⟩
  begins hslot ha hd := by
    rcases hA.isPlace_slot hscope hslot ha with ⟨r, rfl, -⟩ | ⟨name, hreached, -⟩
    · simp [hbegin.slots] at hd
    · exact hreached.elim

theorem Fits.updatesOwnRecords (hfits : A.Fits ctx (.lending s.globals params borrowers) s)
    (hA : A.Keeps ctx.naming f) (hscope : A.scope = .function)
    (hwithin : A.Within (.lending s.globals params borrowers) names) (hf : f.Linear)
    (hbegin : φ₀.Begins f) :
    UpdatesOwnRecords ctx.naming f s.locals params borrowers S φ₀ := by
  intro label v args rest φ d hc hd
  obtain ⟨name, storage, slot, hown, htracked, hreads⟩ :=
    hA.exists_own_of_update (Arises.mem hc)
  by_cases hborrows : storage = .borrowed ∧ name ∈ borrowers
  · refine .inr (.inl ⟨name, hborrows.2, fun hnodup => ?_⟩)
    obtain ⟨b, hb⟩ := hfits.bound _ _ _ hown
    have hslot := hwithin.single (by simp [Rules.lending, hnodup]) _ _ _ _ _ (hfits.own name b hb) hown
    obtain ⟨r, hr, hload⟩ := hreads
    have hlocals : s.own = s.locals := by rw [State.own, ← hfits.scope, hscope]
    exact ⟨b, r, hlocals ▸ hb, hr, by rw [hslot, ← hA.code]; exact hload⟩
  · have hslot : A.IsApart borrowers slot :=
      ⟨name, storage, hown, htracked, fun hstorage hmem => hborrows ⟨hstorage, hmem⟩⟩
    have hholds :=
      (ownRecords (S := S) hA hscope hwithin hfits hbegin).holds_of_arises hf hA hbegin hc
    obtain ⟨r, a, earlier, hr, ha, hlast, (hrecord | hshared) | hunset⟩ :=
      hholds.reads hA.code (Arises.derived hf hbegin hc) hslot hreads hd
    · exact .inl hrecord
    · exact .inr (.inr (.inr hshared))
    · exact .inr (.inr (.inl ⟨r, hr, a, d, earlier, hA.isPlace_slot hscope hslot ha, hlast, hunset⟩))

end

end Access

/-- Every update in a run of a function is one of a record that the function has in its frame and has
initialized. The exceptions are updates for a local variable that the text makes share a record from
top level, and of what was read from a variable to which nothing had been assigned. The records that
the entry function makes are in no frame. -/
theorem generate_updatesOwnRecords {target : Target} {naming : Naming} {observed : List String}
    {statements : List Node} {u : Generated}
    (hu : generate target naming observed statements = .ok u) :
    ∃ (s : State) (done : List (Routine × Func)),
      entryFunction statements (Stage.contextOf target naming observed statements)
        (State.start target naming statements) = .ok ((), s) ∧
      u.assembly.functions = s.builder.func :: done.map (·.2) ∧
      done.map (·.1) = noteAll [] (unitDefinitions naming statements) ∧
      (∀ S φ₀ c dst xs d, φ₀.Begins s.builder.func → Arises S s.builder.func φ₀ c →
        .called dst Catalog.boxCreate xs (some d) ∈ c.frame.world → ∀ r, d ≠ .address (.slot r)) ∧
      ∀ p ∈ done, ∃ t t', LowersBody (Stage.contextOf target naming observed statements) statements
          p.1 t t' ∧ p.2 = t'.builder.func ∧
        ∀ borrowers, (Rules.lending s.globals p.1.params borrowers).keepsAll p.1.params p.1.body →
          ∀ S φ₀, φ₀.Begins p.2 →
            UpdatesOwnRecords naming p.2 t'.locals p.1.params borrowers S φ₀ := by
  obtain ⟨s, done, hentry, hfunctions, hroutines, hdone⟩ := generate_done rfl hu
  have hlinear := generate_linear hu
  rw [hfunctions] at hlinear
  refine ⟨s, done, hentry, hfunctions, hroutines, ?_, fun p hp => ?_⟩
  · rintro S φ₀ c dst xs d hbegin hc hcalled r rfl
    obtain ⟨index, hindex⟩ := hc.created_heap hbegin hcalled
    simp at hindex
  · obtain ⟨t, t', hbody, hfunc, hglobals⟩ := hdone p hp
    refine ⟨t, t', hbody, hfunc, fun borrowers hkeeps S φ₀ hbegin => ?_⟩
    rw [← hglobals] at hkeeps
    obtain ⟨A, hscope, hA, hwithin, hfits⟩ := hbody.spec hkeeps (by simp [Rules.lending])
    have hf := hlinear p.2 (List.mem_cons_of_mem _ (List.mem_map.mpr ⟨p, hp, rfl⟩))
    rw [← hfunc] at hA
    exact hfits.updatesOwnRecords hA hscope hwithin hf hbegin

/-! ## Runs -/

/-- A unit with a function that reads the record of a variable at top level under another name, makes
a record of its own in a loop, and updates it under two names. -/
def keepingApart : List Node :=
  [.assignment "x" (.literal (.number .one)),
    .functionDef "f" ["n"]
      [.assignment "z" (.identifier "x"),
        .loop (.binary "<" (.identifier "n") (.literal (.number ⟨2⟩)))
          [.assignment "y" (.binary "+" (.identifier "n") (.identifier "z")),
            .assignment "n" (.binary "+" (.identifier "n") (.literal (.number ⟨1⟩)))],
        .assignment "w" (.identifier "y"),
        .assignment "w" (.identifier "n")],
    .relation (.identifier "f") (.literal (.number .zero))]

/-- The function updates its own record in the second turn of the loop. Only `z` shares a record from
top level. -/
theorem updatesOwnRecords_keepingApart :
    ∃ u f locals, generate (.resolve none) { mode := .program } ["x", "y"] keepingApart = .ok u ∧
      f ∈ u.assembly.functions.tail ∧
      (Machine.withPast (beginning [.word 0] (.address (.heap 0))) []).Begins f ∧
      (∃ label v args rest φ,
        Arises Machine.alone f (Machine.withPast (beginning [.word 0] (.address (.heap 0))) [])
          ⟨label, .call none .void Catalog.boxUpdate (v :: args) :: rest, φ⟩ ∧
        φ.eval v = some (.address (.slot 15))) ∧
      UpdatesOwnRecords { mode := .program } f locals ["n"] ["z"] Machine.alone
        (Machine.withPast (beginning [.word 0] (.address (.heap 0))) []) := by
  obtain ⟨u, hu, hrun⟩ := exists_generate (.resolve none) { mode := .program } ["x", "y"]
    keepingApart (fun u => u.assembly.functions.tail.any fun f => f.paramRegs = [0] &&
      runsTo 43 (beginning [.word 0] (.address (.heap 0))) (updates (.address (.slot 15))) f)
    (by decide +kernel)
  obtain ⟨s, done, hs, hfunctions, hroutines, -, hdone⟩ := generate_updatesOwnRecords hu
  have hkeeps : ((entryFunction keepingApart
      (Stage.contextOf (.resolve none) { mode := .program } ["x", "y"] keepingApart)
      (State.start (.resolve none) { mode := .program } keepingApart)).toOption.map fun p =>
        (noteAll [] (unitDefinitions { mode := .program } keepingApart)).all fun r =>
          r.params = ["n"] && (Rules.lending p.2.globals r.params ["z"]).keepsAll r.params r.body) =
      some true := by
    decide +kernel
  rw [hs, ← hroutines] at hkeeps
  obtain ⟨f, hf, hrun⟩ := List.any_eq_true.mp hrun
  simp only [Bool.and_eq_true, decide_eq_true_eq] at hrun
  rw [hfunctions] at hf
  obtain ⟨p, hp, rfl⟩ := List.mem_map.mp hf
  have hp' := List.all_eq_true.mp (Option.some.inj hkeeps) p.1 (List.mem_map.mpr ⟨p, hp, rfl⟩)
  simp only [Bool.and_eq_true, decide_eq_true_eq] at hp'
  have hbegin : (Machine.withPast (beginning [.word 0] (.address (.heap 0))) []).Begins p.2 :=
    begins_beginning (by simp [hrun.1]) (by simp [Datum.isForeign_word])
  obtain ⟨t, t', -, -, hupdates⟩ := hdone p hp
  obtain ⟨label, v, args, rest, φ, harises, -, hd⟩ := exists_arises_updates hrun.2
  refine ⟨u, p.2, t'.locals, hu, hfunctions ▸ hf, hbegin, ⟨label, v, args, rest, φ, harises, hd⟩, ?_⟩
  exact hp'.1 ▸ hupdates ["z"] hp'.2 Machine.alone _ hbegin

/-- A unit with a function that gives a local variable the value of the variable at top level of the
same name, and then another one. -/
def assignedTwice : List Node :=
  [.assignment "x" (.literal (.number .one)),
    .functionDef "f" ["n"]
      [.assignment "x" (.identifier "x"), .assignment "x" (.identifier "n")],
    .relation (.identifier "f") (.literal (.number .one))]

/-- The frame in which a function is called from a point of a run. -/
def calledFrom (t : Machine.Traced Nat) (params : List Datum) : Frame Nat where
  regs r := params[r]?
  memory
    | .slot _ => none
    | a => t.config.frame.memory a
  world := t.config.frame.world

/-- The next instruction calls a function. -/
def calls (callee : String) (t : Machine.Traced Nat) : Bool :=
  match t.config.code with
  | .call _ _ callee' _ :: _ => callee' = callee
  | _ => false

/-- The first of two functions makes a record and then calls the second one, which updates it. -/
def updatesOuter : List Func → Bool
  | [main, f] => runsTo 3 (beginning [] noRecord) (fun t =>
      t.past.contains (.called (some 0) Catalog.boxCreate [.number .one]
        (some (.address (.heap 0)))) && calls f.name t &&
      runsTo 8 (calledFrom t [.word 1]) (updates (.address (.heap 0))) f) main
  | _ => false

/-- The function updates the record that the entry function has made before it calls it. -/
theorem updatesOuter_assignedTwice :
    ∃ u main f, generate (.resolve none) { mode := .program } ["x"] assignedTwice = .ok u ∧
      u.assembly.functions = [main, f] ∧
      ∃ t r xs d, Arises Machine.alone main (Machine.withPast (beginning [] noRecord) []) t.point ∧
        .called (some r) Catalog.boxCreate xs (some d) ∈ t.past ∧ calls f.name t = true ∧
        ∃ label v args rest φ, Arises Machine.alone f (Machine.withPast (calledFrom t [.word 1]) [])
            ⟨label, .call none .void Catalog.boxUpdate (v :: args) :: rest, φ⟩ ∧
          φ.eval v = some d := by
  obtain ⟨u, hu, hrun⟩ := exists_generate (.resolve none) { mode := .program } ["x"] assignedTwice
    (fun u => updatesOuter u.assembly.functions) (by decide +kernel)
  unfold updatesOuter at hrun
  split at hrun
  case h_2 => simp at hrun
  case h_1 main f hfunctions =>
    obtain ⟨t, ht, htest⟩ := exists_arises hrun
    simp only [Bool.and_eq_true, List.contains_iff_mem] at htest
    obtain ⟨label, v, args, rest, φ, harises, -, hd⟩ := exists_arises_updates htest.2
    exact ⟨u, main, f, hu, hfunctions, t, 0, _, _, ht, htest.1.1, htest.1.2, label, v, args, rest, φ,
      harises, hd⟩

end ScriptCompiler.Lowering
