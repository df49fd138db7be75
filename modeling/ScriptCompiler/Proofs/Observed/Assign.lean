import ScriptCompiler.Proofs.Cleanup
import ScriptCompiler.Proofs.Numeric.Assign
import ScriptCompiler.Proofs.Observed.Runtime

/-!
# The meaning of the code that makes a boxed variable

A first assignment to an observed variable makes a record, and one of a bare copy of a boxed variable
makes a variable that shares its record. Either way the address of the record is stored in a global
(`Holds.writeGlobal`), and the other variables are left alone (`run_create`).
-/

namespace ScriptCompiler.Observed

open Ir Lowering Numeric

section

variable {ω : Type} {N : Numbers} {M : Machine ω} {R : Runtime N M} {T t : Table Binding}
  {first : List Double} {certain later later' : List String} {φ φ' : Frame ω} {ρ : Store} {n : Reg}
  {code : List Instr} {name : String} {x : Double} {v : Typed} {storage : StorageClass}

theorem global_ne {other : String} (h : other ≠ name) :
    Address.global ("main." ++ other) ≠ .global ("main." ++ name) := by
  intro heq
  have hchars := congrArg String.toList (Address.global.inj heq)
  simp only [String.toList_append, List.append_cancel_left_eq] at hchars
  exact h (String.toList_inj.mp hchars)

theorem lookup_global (t : Table Binding) (name : String) (storage : StorageClass) :
    (Table.set t name ⟨storage, .tracked, .global ("main." ++ name)⟩).lookup name =
      some ⟨storage, .tracked, .global ("main." ++ name)⟩ :=
  (lookup_set _ _ _ _).trans (if_pos rfl)

/-- A new variable is given the address of a record. The record is new, or those that share it are
not assigned later. -/
theorem Holds.writeGlobal {a : Address} (h : Holds R.library T first certain later φ ρ)
    (hT : Separate T)
    (hname : T.lookup name = some ⟨storage, .tracked, .global ("main." ++ name)⟩)
    (hmemory : φ'.memory (.global ("main." ++ name)) = some (.address a))
    (hvalue : R.value φ'.world a = some x)
    (hslots : ∀ r, φ'.memory (.slot r) = φ.memory (.slot r))
    (hglobals : ∀ other, other ≠ name →
      φ'.memory (.global ("main." ++ other)) = φ.memory (.global ("main." ++ other)))
    (hvalues : ∀ a y, R.value φ.world a = some y → R.value φ'.world a = some y)
    (hshared : ∀ other, Boxes T φ ρ other a → name ∉ later' ∧ other ∉ later')
    (hframed : ∀ name r, slotsOf T name = some r → φ'.regs r = some (.address (.slot r)))
    (hsub : later' ⊆ later) (hprinted : R.printed φ'.world = R.printed φ.world) :
    Holds R.library T first (name :: certain) later' φ' (ρ.set name x) := by
  refine h.assign ?_ ?_ hframed ?_ hprinted
  · intro b hb
    obtain rfl := Option.some.inj (hname.symm.trans hb)
    exact ⟨a, hmemory, hvalue⟩
  · intro other b y hne hb _ hstored
    rcases hT.vars other b hb with ⟨r, rfl⟩ | ⟨storage', -, rfl⟩
    · exact (hslots r).trans hstored
    · obtain ⟨a', ha', hy⟩ := hstored
      exact ⟨a', (hglobals other hne).trans ha', hvalues a' y hy⟩
  · -- Only the new variable may share what was not shared before.
    have hboxes : ∀ {other a'}, other ≠ name → Boxes T φ' (ρ.set name x) other a' →
        Boxes T φ ρ other a' := by
      rintro other a' hne ⟨hboxed, hsome, ha'⟩
      exact ⟨hboxed, vars_set_of_ne hne ▸ hsome, (hglobals other hne).symm.trans ha'⟩
    intro one other a' hne hone hother
    by_cases hname : one = name
    · subst hname
      obtain rfl : a = a' := by simpa using hmemory.symm.trans hone.2.2
      exact (hshared other (hboxes (Ne.symm hne) hother)).1
    · by_cases hname' : other = name
      · subst hname'
        obtain rfl : a = a' := by simpa using hmemory.symm.trans hother.2.2
        exact (hshared one (hboxes hname hone)).2
      · exact fun hmem =>
          h.apart one other a' hne (hboxes hname hone) (hboxes hname' hother) (hsub hmem)

/-- A new variable with a record of its own. -/
theorem sets_newRecord {m : Reg} {k : Nat} {w : Value}
    (hconv : Leaves R.library n .number v code w) :
    Sets R.library True t
      (Table.set t name ⟨.heapBox, .tracked, .global ("main." ++ name)⟩) name v
      (code ++ [.call (some m) .ptr Catalog.boxCreate [w],
        .store (.reg m .ptr) (.global (cleanupSymbol k)),
        .store (.reg m .ptr) (.global ("main." ++ name))]) := by
  intro T first certain later later' φ ρ x hfits _ hsub _ _ hholds hx
  obtain ⟨φ₁, hkeeps, hw⟩ := hconv φ x hx
  obtain ⟨a, world, hcall, hfresh, hvalue⟩ := R.create x φ₁.world
  have hargs : [w].mapM φ₁.eval = some [.number x] := by simp [hw]
  -- The record is made, and its address goes to two globals.
  let φ₂ : Frame ω := Frame.set { φ₁ with world := world } m (.address a)
  let φ₃ : Frame ω := φ₂.write (.global (cleanupSymbol k)) (some (.address a))
  let φ₄ : Frame ω := φ₃.write (.global ("main." ++ name)) (some (.address a))
  have hcreate : M.exec φ₁ (.call (some m) .ptr Catalog.boxCreate [w]) = some φ₂ := by
    simp [Machine.exec, hargs, hcall, Machine.afterCall, φ₂]
  have hstore : ∀ (ψ : Frame ω) symbol, ψ.regs m = some (.address a) →
      M.exec ψ (.store (.reg m .ptr) (.global symbol)) =
        some (ψ.write (.global symbol) (some (.address a))) := by
    intro ψ symbol hm
    have heval : ψ.eval (.reg m .ptr) = some (.address a) := hm
    have hplace : ψ.place (.global symbol) = some (.global symbol) := rfl
    simp [Machine.exec, heval, hplace]
  have hm : φ₂.regs m = some (.address a) := Frame.regs_set
  have hrun : M.execAll φ (code ++ [.call (some m) .ptr Catalog.boxCreate [w],
      .store (.reg m .ptr) (.global (cleanupSymbol k)),
      .store (.reg m .ptr) (.global ("main." ++ name))]) = some φ₄ := by
    rw [Machine.execAll_append, hkeeps.run]
    simp [Machine.execAll, hcreate, hstore φ₂ _ hm, hstore φ₃ _ hm, φ₃, φ₄]
  have hcleanup : ∀ other, Address.global ("main." ++ other) ≠ .global (cleanupSymbol k) := by
    intro other heq
    exact ne_cleanupSymbol_of_head (c := 'm') (by simp [String.toList_append]) (by decide)
      (Address.global.inj heq)
  have hsame : R.value φ₁.world = R.value φ.world := hkeeps.value
  have hvalue₄ : R.value φ₄.world = Function.update (R.value φ.world) a (some x) :=
    hvalue.trans (by rw [hsame])
  rw [hsame] at hfresh
  refine ⟨φ₄, hrun, Holds.writeGlobal (a := a) hholds hfits.separate
    (hfits.covers name _ (lookup_global t name _)) Frame.memory_write ?_ ?_ ?_ ?_ ?_
    (framed_execAll hholds hrun hfits.avoids) hsub ?_⟩
  · rw [hvalue₄, Function.update_self]
  · intro r
    exact congrFun hkeeps.memory (.slot r)
  · intro other hne
    calc φ₄.memory (.global ("main." ++ other))
      _ = φ₃.memory (.global ("main." ++ other)) := Frame.memory_write_of_ne (global_ne hne)
      _ = φ₂.memory (.global ("main." ++ other)) := Frame.memory_write_of_ne (hcleanup other)
      _ = φ.memory (.global ("main." ++ other)) := congrFun hkeeps.memory _
  · intro a' y hy
    have hne : a' ≠ a := by
      rintro rfl
      simp [hfresh] at hy
    rw [hvalue₄, Function.update_of_ne hne]
    exact hy
  · -- A new record is shared by none.
    rintro other ⟨⟨b, hb, storage, -, rfl⟩, hsome, ha⟩
    obtain ⟨y, hy⟩ := Option.isSome_iff_exists.mp hsome
    obtain ⟨a', ha', hvalue'⟩ := hholds.stored other _ y hb hy
    obtain rfl : a = a' := by simpa using ha.symm.trans ha'
    exact absurd (hfresh.symm.trans hvalue') (by simp)
  · have hprinted : R.printed φ₄.world = R.printed φ₁.world ++ [] := R.prints hcall
    rw [hprinted, List.append_nil]
    exact hkeeps.printed.trans (List.append_nil _)

theorem sets_alias (hnew : t.lookup name = none) (hkind : v.kind = .tracked) :
    Sets R.library True t (Table.set t name ⟨.borrowed, .tracked, .global ("main." ++ name)⟩) name v
      [.store v.value (.global ("main." ++ name))] := by
  intro T first certain later later' φ ρ x hfits _ hsub _ hshared hholds hx
  obtain ⟨a, ha, hvalue⟩ : ∃ a, φ.eval v.value = some (.address a) ∧
      R.value φ.world a = some x := by
    rcases hx with ⟨hscalar, -⟩ | ⟨hscalar, -⟩ | ⟨-, -, hx⟩
    · simp [hkind] at hscalar
    · simp [hkind] at hscalar
    · exact hx
  have hplace : φ.place (.global ("main." ++ name)) = some (.global ("main." ++ name)) := rfl
  refine ⟨φ.write (.global ("main." ++ name)) (some (.address a)), ?_, ?_⟩
  · simp [Machine.execAll, Machine.exec, ha, hplace]
  · exact Holds.writeGlobal hholds hfits.separate (hfits.covers name _ (lookup_global t name _))
      Frame.memory_write hvalue (fun r => Frame.memory_write_of_ne (by simp))
      (fun other hne => Frame.memory_write_of_ne (global_ne hne)) (fun _ _ hy => hy)
      (fun other hother => hshared hnew hkind other a ha hother) hholds.framed hsub rfl

end

/-! ## Lowering -/

section

variable {ω : Type} {N : Numbers} {M : Machine ω} {R : Runtime N M} {ctx : Context}
  {s s' : State} {bound : List String} {name : String} {v : Typed}

theorem globalSymbol_eq (hctx : PlainContext ctx) (name : String) :
    ctx.naming.globalSymbol name = "main." ++ name := by
  simp [Naming.globalSymbol, hctx.program]

theorem create_global (storage : StorageClass) (hctx : PlainContext ctx)
    (htop : s.scope = .topLevel)
    (hstorage : newStorage s.scope (name ∈ ctx.observed) v.kind = storage)
    (hboxed : storage = .heapBox ∨ storage = .borrowed) :
    ∃ assembly, create name v ctx s = (do
      let kind ← storeFirst storage (.global ("main." ++ name)) v (!s.loopEnds.isEmpty)
      modify (·.bind name ⟨storage, kind, .global ("main." ++ name)⟩) : Lower Unit) ctx
        { s with assembly := assembly } := by
  have hhome : slotHome s.scope storage ctx.naming.isLibrary (name ∈ ctx.shared) =
      .moduleGlobal := by
    rcases hboxed with rfl | rfl <;> simp [slotHome, htop]
  obtain ⟨assembly, hslot⟩ : ∃ assembly,
      newSlot name storage .moduleGlobal (!s.loopEnds.isEmpty) ctx s =
        .ok (.global ("main." ++ name), { s with assembly := assembly }) := by
    rw [← globalSymbol_eq hctx]
    exact ⟨_, rfl⟩
  refine ⟨assembly, ?_⟩
  show (do
    let storage := newStorage s.scope (name ∈ ctx.observed) v.kind
    let home := slotHome s.scope storage ctx.naming.isLibrary (name ∈ ctx.shared)
    let slot ← newSlot name storage home (!s.loopEnds.isEmpty)
    let kind ← storeFirst storage slot v (!s.loopEnds.isEmpty)
    modify (·.bind name { storage, kind, slot }) : Lower Unit) ctx s = _
  simp only [hstorage, hhome]
  exact run_bind_ok hslot

theorem run_createAlias (hctx : PlainContext ctx) (hs : Plain True bound s)
    (hnew : s.globals.lookup name = none) (hkind : v.kind = .tracked)
    (hrun : create name v ctx s = .ok ((), s')) :
    ∃ b code, Assigned R.library True s { s' with lastBound := some name } name v b [] code := by
  have hstorage : newStorage s.scope (name ∈ ctx.observed) v.kind = .borrowed := by
    simp [newStorage, hkind]
  obtain ⟨assembly, hcreate⟩ := create_global .borrowed hctx hs.top hstorage (.inr rfl)
  rw [hcreate] at hrun
  obtain rfl : State.bind { s with
      builder := s.builder.push (.store v.value (.global ("main." ++ name)))
      assembly := assembly } name ⟨.borrowed, .tracked, .global ("main." ++ name)⟩ = s' :=
    congrArg Prod.snd (Except.ok.inj hrun)
  simp only [State.bind, hs.top]
  refine ⟨_, _, ?_, .push _ ⟨rfl, rfl, rfl⟩ (Nat.le_refl _) (by simp [Instr.dst?]),
    fun _ => lookup_set _ _ _ _, .inr ⟨hnew, .inr ⟨⟨.borrowed, rfl, rfl⟩, rfl, trivial⟩⟩,
    fun c hc => .inl hc, sets_alias hnew hkind⟩
  rw [hs.top]

/-- The builder after a record is made and its address stored in two globals. -/
def withRecord (b : Builder) (w : Value) (cleanup slot : String) : Builder :=
  let call := Instr.call (some b.nextReg) .ptr Catalog.boxCreate [w]
  let record := Value.reg b.nextReg .ptr
  ((Builder.push { b with nextReg := b.nextReg + 1 } call).push
    (.store record (.global cleanup))).push (.store record (.global slot))

theorem emitted_withRecord (b : Builder) (w : Value) (cleanup slot : String) :
    Emitted b [] [.call (some b.nextReg) .ptr Catalog.boxCreate [w],
      .store (.reg b.nextReg .ptr) (.global cleanup),
      .store (.reg b.nextReg .ptr) (.global slot)] (withRecord b w cleanup slot) := by
  have hcall : Emitted b [] [.call (some b.nextReg) .ptr Catalog.boxCreate [w]]
      (Builder.push { b with nextReg := b.nextReg + 1 }
        (.call (some b.nextReg) .ptr Catalog.boxCreate [w])) :=
    .push _ ⟨rfl, rfl, rfl⟩ (Nat.le_succ _) fun r hr => Nat.le_of_eq (Option.some.inj hr)
  have hstore : ∀ (b' : Builder) value symbol,
      Emitted b' [] [.store value (.global symbol)] (b'.push (.store value (.global symbol))) :=
    fun b' value symbol => .push _ ⟨rfl, rfl, rfl⟩ (Nat.le_refl _) (by simp [Instr.dst?])
  exact (hcall.trans (hstore _ _ _)).trans (hstore _ _ _)

theorem run_allocateRecord {w : Value} {slot : String} (htracks : Tracks ctx s)
    (hrun : (do
      let record ← allocate Catalog.boxCreate [w] Catalog.boxDestroy
      emit (Emit.store record (.global slot)) : Lower Unit) ctx s = .ok ((), s')) :
    ∃ assembly, s' = { s with
      builder := withRecord s.builder w (cleanupSymbol s.cleanup.length) slot
      assembly := assembly
      cleanup := s.cleanup ++ [⟨cleanupSymbol s.cleanup.length, Catalog.boxDestroy⟩] } := by
  let b := Builder.push { s.builder with nextReg := s.builder.nextReg + 1 }
    (.call (some s.builder.nextReg) .ptr Catalog.boxCreate [w])
  have hallocate : allocate Catalog.boxCreate [w] Catalog.boxDestroy ctx s = (do
      trackAllocation (.reg s.builder.nextReg .ptr) Catalog.boxDestroy
      return .reg s.builder.nextReg .ptr : Lower Value) ctx { s with builder := b } := rfl
  have htrack : Tracks ctx { s with builder := b } := htracks
  rw [run_bind_ok (hallocate.trans (run_bind_ok (Stage.trackAllocation_of_tracks htrack)))] at hrun
  exact ⟨_, (congrArg Prod.snd (Except.ok.inj hrun)).symm⟩

theorem run_createRecord (hctx : PlainContext ctx) (hs : Plain True bound s)
    (hnew : s.globals.lookup name = none) (hobserved : name ∈ ctx.observed)
    (hloops : s.loopEnds = []) (hv : IsNumber s.builder.nextReg v) (hkind : v.kind = .scalar)
    (hrun : create name v ctx s = .ok ((), s')) :
    ∃ b code, Assigned R.library True s { s' with lastBound := some name } name v b [] code := by
  have hstorage : newStorage s.scope (name ∈ ctx.observed) v.kind = .heapBox := by
    simp [newStorage, newStorage.box, hkind, hobserved, hs.top]
  obtain ⟨assembly, hcreate⟩ := create_global .heapBox hctx hs.top hstorage (.inl rfl)
  have hfirst : (do
      let kind ← storeFirst .heapBox (.global ("main." ++ name)) v (!s.loopEnds.isEmpty)
      modify (·.bind name ⟨.heapBox, kind, .global ("main." ++ name)⟩) : Lower Unit) = (do
      let w ← emit (toScalar v)
      (do let record ← allocate Catalog.boxCreate [w] Catalog.boxDestroy
          emit (Emit.store record (.global ("main." ++ name))))
      modify (·.bind name ⟨.heapBox, .tracked, .global ("main." ++ name)⟩)) := by
    simp only [storeFirst, storeFirst.box, hloops, List.isEmpty_nil, Bool.not_true, if_false,
      Stage.initBox_heap (.inl hkind), bind_assoc, pure_bind, Bool.false_eq_true]
  rw [hcreate, hfirst] at hrun
  obtain ⟨w, s₁, hscalar, hrest⟩ := run_bind hrun
  obtain ⟨_, s₂, hbox, hbind⟩ := run_bind hrest
  obtain ⟨code, b, rfl, hcode, -, -, hconv⟩ :=
    converts_toScalar R.library { s with assembly := assembly } v hv hscalar
  have htracks : Tracks ctx { s with builder := b, assembly := assembly } :=
    ⟨hs.top, by simp [Naming.isLibrary, hctx.program]⟩
  obtain ⟨assembly', rfl⟩ := run_allocateRecord htracks hbox
  have hs' := (congrArg Prod.snd (Except.ok.inj hbind)).symm
  simp only [State.bind, hs.top] at hs'
  subst hs'
  refine ⟨_, _, by rw [hs.top], hcode.trans (emitted_withRecord b w _ _),
    fun _ => lookup_set _ _ _ _, .inr ⟨hnew, .inr ⟨⟨.heapBox, rfl, rfl⟩, rfl, trivial⟩⟩, fun c hc => ?_,
    sets_newRecord hconv⟩
  refine (List.mem_append.mp hc).imp id fun hc => ⟨?_, trivial⟩
  rw [List.mem_singleton.mp hc]

/-- A first assignment outside of loops makes a plain variable, one with a record of its own, or one
that shares the record of another. -/
theorem run_create (hctx : PlainContext ctx) (hs : Plain True bound s)
    (hnew : s.globals.lookup name = none) (hloops : s.loopEnds = [])
    (hv : IsNumber s.builder.nextReg v) (hrun : assign name v ctx s = .ok ((), s')) :
    ∃ b slots code, Assigned R.library True s s' name v b slots code := by
  obtain ⟨s₁, hcreate, hs'⟩ := run_assign_new hctx.program hs.top hnew hrun
  rcases hv.kind with ⟨hkind, -⟩ | ⟨hkind, -⟩
  · by_cases hobserved : name ∈ ctx.observed
    · obtain ⟨b, code, h⟩ := run_createRecord (R := R) hctx hs hnew hobserved hloops hv hkind hcreate
      exact ⟨b, [], code, hs' ▸ h⟩
    · exact run_createSlot hctx hs hnew hobserved hv hkind hrun
  · obtain ⟨b, code, h⟩ := run_createAlias (R := R) hctx hs hnew hkind hcreate
    exact ⟨b, [], code, hs' ▸ h⟩

end

end ScriptCompiler.Observed
