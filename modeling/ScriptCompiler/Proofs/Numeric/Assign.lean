import ScriptCompiler.Proofs.Numeric.Simulation

/-!
# The meaning of the code of an assignment

Between two statements a frame is related to the store of the source by `Holds`: variables have
their values, the numbers printed are those of the source, and two variables that share a record
are not assigned from here on. The last is what makes assigning to a record the same as assigning
to a variable. The table of variables is the final one, since a loop runs code again that was lowered
before a variable was made. So code may define any register that is not a slot of the table
(`Fits`), and slots are told apart from other registers by single assignment.

An assignment stores a number in a slot or gives a record a new value, and leaves the other variables
alone (`Sets`).
-/

namespace ScriptCompiler.Numeric

open Ir Lowering

/-- The variables of the second table are as in the first one. -/
def Covers (T t : Table Binding) : Prop :=
  ∀ name b, t.lookup name = some b → T.lookup name = some b

/-- Code that was lowered with the variables `t` may run with those of `T`. -/
structure Fits (T t : Table Binding) (code : List Instr) : Prop where
  separate : Separate T
  covers : Covers T t
  avoids : Avoids T code

section

variable {ω : Type} {N : Numbers} {M : Machine ω}

/-- The variable is boxed and has a value, and `a` is the address of its record. -/
def Boxes (T : Table Binding) (φ : Frame ω) (ρ : Store) (name : String) (a : Address) : Prop :=
  (∃ b, T.lookup name = some b ∧ IsBoxedVar name b) ∧ (ρ.vars name).isSome ∧
    φ.memory (.global ("main." ++ name)) = some (.address a)

/-- A frame between two statements goes with a store, where the variables `certain` have values,
`later` may be assigned from here on and `first` was printed before the function was called. -/
structure Holds (R : Library N M) (T : Table Binding) (first : List Double)
    (certain later : List String) (φ : Frame ω) (ρ : Store) : Prop
    extends Agrees R T φ ρ.vars where
  known : ∀ name ∈ certain, (ρ.vars name).isSome
  /-- Variables that share a record stay as they are. -/
  apart : ∀ name other a, name ≠ other → Boxes T φ ρ name a → Boxes T φ ρ other a → name ∉ later
  output : R.printed φ.world = first ++ ρ.output

/-- Code gives a variable what a value stands for, where `t` and `t'` are the variables before and
after. If it makes a variable that shares a record, those that share it must not be assigned
later. -/
def Sets (R : Library N M) (whole : Prop) (t t' : Table Binding) (name : String) (v : Typed)
    (code : List Instr) : Prop :=
  ∀ T first certain later later' φ ρ x, Fits T t' code → name ∈ later → later' ⊆ later →
    (whole → (t.lookup name).isSome → (ρ.vars name).isSome) →
    (t.lookup name = none → v.kind = .tracked → ∀ other a, φ.eval v.value = some (.address a) →
      Boxes T φ ρ other a → name ∉ later' ∧ other ∉ later') →
    Holds R T first certain later φ ρ → Denotes R φ v x →
    ∃ φ', M.execAll φ code = some φ' ∧
      Holds R T first (name :: certain) later' φ' (ρ.set name x)

end

section

variable {ω : Type} {N : Numbers} {M : Machine ω} {R : Library N M} {T t t' : Table Binding}
  {first : List Double} {certain certain' later later' : List String} {φ φ' : Frame ω}
  {ρ : Store} {n : Reg} {code code' : List Instr} {out : List Double} {name : String} {x : Double}
  {whole : Prop} {v : Typed} {w : Value}

theorem Covers.refl (t : Table Binding) : Covers t t := fun _ _ h => h

theorem Covers.trans {t₁ : Table Binding} (h : Covers T t₁) (h' : Covers t₁ t) : Covers T t :=
  fun name b hb => h name b (h' name b hb)

theorem Covers.slots {r : Reg} (h : Covers T t) (hr : slotsOf t name = some r) :
    slotsOf T name = some r := by
  obtain ⟨b, hb, hreg⟩ := Option.bind_eq_some_iff.mp hr
  rw [slotsOf, h name b hb]
  exact hreg

theorem fits_append : Fits T t (code ++ code') ↔ Fits T t code ∧ Fits T t code' :=
  ⟨fun h => ⟨{ h with avoids := (avoids_append.mp h.avoids).1 },
      { h with avoids := (avoids_append.mp h.avoids).2 }⟩,
    fun h => { h.1 with avoids := avoids_append.mpr ⟨h.1.avoids, h.2.avoids⟩ }⟩

/-! ## Frames -/

theorem Holds.agrees (h : Holds R T first certain later φ ρ) (hT : Covers T t) :
    Agrees R t φ ρ.vars where
  framed := fun name r hr => h.framed name r (hT.slots hr)
  stored := fun name b x hb hx => h.stored name b x (hT name b hb) hx

theorem Holds.mono (h : Holds R T first certain later φ ρ) (hcertain : certain' ⊆ certain)
    (hlater : later' ⊆ later) : Holds R T first certain' later' φ ρ :=
  { h with
    known := fun name hname => h.known name (hcertain hname)
    apart := fun name other a hne hname hother hmem =>
      h.apart name other a hne hname hother (hlater hmem) }

theorem framed_execAll (h : Holds R T first certain later φ ρ)
    (hrun : M.execAll φ code = some φ') (hcode : Avoids T code) :
    ∀ name r, slotsOf T name = some r → φ'.regs r = some (.address (.slot r)) := by
  intro name r hr
  rw [Machine.regs_execAll hrun fun i hi => hcode i hi name r hr]
  exact h.framed name r hr

/-- The code of an expression changes nothing but the output. -/
theorem Holds.keeps (h : Holds R T first certain later φ ρ) (hcode : Avoids T code)
    (hk : Keeps R n φ code out φ') :
    Holds R T first certain later φ' { ρ with output := ρ.output ++ out } where
  framed := framed_execAll h hk.run hcode
  stored := fun name b x hb hx => (h.stored name b x hb hx).keeps hk
  known := h.known
  apart := by
    intro name other a hne hname hother
    unfold Boxes at hname hother
    rw [hk.memory] at hname hother
    exact h.apart name other a hne hname hother
  output := hk.printed.trans ((congrArg (· ++ out) h.output).trans (List.append_assoc _ _ _))

/-- The frame after an assignment holds, if the variable has its new value and the others have
theirs. -/
theorem Holds.assign (h : Holds R T first certain later φ ρ)
    (hname : ∀ b, T.lookup name = some b → Stored R φ' b.slot x)
    (hothers : ∀ other b y, other ≠ name → T.lookup other = some b → ρ.vars other = some y →
      Stored R φ b.slot y → Stored R φ' b.slot y)
    (hframed : ∀ name r, slotsOf T name = some r → φ'.regs r = some (.address (.slot r)))
    (hapart : ∀ name' other a, name' ≠ other → Boxes T φ' (ρ.set name x) name' a →
      Boxes T φ' (ρ.set name x) other a → name' ∉ later')
    (hprinted : R.printed φ'.world = R.printed φ.world) :
    Holds R T first (name :: certain) later' φ' (ρ.set name x) where
  framed := hframed
  stored := by
    intro other b y hb hy
    by_cases heq : other = name
    · subst heq
      obtain rfl : x = y := Option.some.inj ((if_pos rfl).symm.trans hy)
      exact hname b hb
    · have hold : ρ.vars other = some y := (if_neg heq).symm.trans hy
      exact hothers other b y heq hb hold (h.stored other b y hb hold)
  known := by
    intro other hother
    by_cases heq : other = name
    · simp [Store.set, heq]
    · have := h.known other (by simpa [heq] using hother)
      simpa [Store.set, heq] using this
  apart := hapart
  output := by rw [hprinted, h.output]; rfl

theorem vars_set_of_ne {other : String} (hne : other ≠ name) :
    (ρ.set name x).vars other = ρ.vars other := if_neg hne

theorem Holds.writeSlot {r : Reg} (h : Holds R T first certain later φ ρ) (hT : Separate T)
    (hname : T.lookup name = some ⟨.fastSlot, .scalar, .reg r .ptr⟩) (hsub : later' ⊆ later) :
    Holds R T first (name :: certain) later' (φ.write (.slot r) (some (.number x)))
      (ρ.set name x) := by
  refine h.assign ?_ ?_ h.framed ?_ rfl
  · intro b hb
    obtain rfl := Option.some.inj (hname.symm.trans hb)
    exact Frame.memory_write
  · intro other b y hne hb _ hstored
    rcases hT.vars other b hb with ⟨r', rfl⟩ | ⟨storage, -, rfl⟩
    · have hr' : r' ≠ r := by
        rintro rfl
        exact hne (hT.distinct other name r' (by rw [slotsOf, hb]; rfl) (by rw [slotsOf, hname]; rfl))
      exact (Frame.memory_write_of_ne (by simpa using hr')).trans hstored
    · exact hstored
  · -- A plain variable shares no record, and the globals are as they were.
    have hboxes : ∀ other a, Boxes T (φ.write (.slot r) (some (.number x))) (ρ.set name x) other a →
        Boxes T φ ρ other a := by
      rintro other a ⟨⟨b, hb, hboxed⟩, hvalue, ha⟩
      have hne : other ≠ name := by
        rintro rfl
        obtain rfl := Option.some.inj (hname.symm.trans hb)
        obtain ⟨storage, -, heq⟩ := hboxed
        simp at heq
      exact ⟨⟨b, hb, hboxed⟩, vars_set_of_ne hne ▸ hvalue, ha⟩
    intro one other a hne hone hother hmem
    exact h.apart one other a hne (hboxes one a hone) (hboxes other a hother) (hsub hmem)

theorem Holds.updateRecord {a : Address} {w : ω} (h : Holds R T first certain later φ ρ)
    (hT : Separate T) (hname : Boxes T φ ρ name a) (hlater : name ∈ later) (hsub : later' ⊆ later)
    (hvalue : R.value w = Function.update (R.value φ.world) a (some x))
    (hprinted : R.printed w = R.printed φ.world) :
    Holds R T first (name :: certain) later' { φ with world := w } (ρ.set name x) := by
  have hboxes : ∀ other a', Boxes T { φ with world := w } (ρ.set name x) other a' →
      Boxes T φ ρ other a' := by
    rintro other a' ⟨hboxed, hsome, ha'⟩
    refine ⟨hboxed, ?_, ha'⟩
    by_cases heq : other = name
    · exact heq ▸ hname.2.1
    · exact vars_set_of_ne heq ▸ hsome
  refine h.assign ?_ ?_ h.framed ?_ hprinted
  · intro b hb
    obtain ⟨⟨b', hb', storage, -, rfl⟩, -, ha⟩ := hname
    obtain rfl := Option.some.inj (hb'.symm.trans hb)
    refine ⟨a, ha, ?_⟩
    show R.value w a = some x
    rw [hvalue, Function.update_self]
  · intro other b y hne hb hy hstored
    rcases hT.vars other b hb with ⟨r, rfl⟩ | hboxed
    · exact hstored
    · have hother : IsBoxedVar other b := hboxed
      obtain ⟨storage, -, rfl⟩ := hboxed
      obtain ⟨a', ha', hvalue'⟩ := hstored
      -- A variable with the same record would not be assigned from here on.
      have hne' : a' ≠ a := by
        rintro rfl
        exact h.apart name other a' (Ne.symm hne) hname ⟨⟨_, hb, hother⟩, by simp [hy], ha'⟩ hlater
      refine ⟨a', ha', ?_⟩
      show R.value w a' = some y
      rw [hvalue, Function.update_of_ne hne']
      exact hvalue'
  · intro one other a' hne hone hother hmem
    exact h.apart one other a' hne (hboxes one a' hone) (hboxes other a' hother) (hsub hmem)

/-! ## Slots and records -/

theorem sets_slot {r : Reg} (hname : t'.lookup name = some ⟨.fastSlot, .scalar, .reg r .ptr⟩)
    (hconv : Leaves R n .number v code w) :
    Sets R whole t t' name v (code ++ [.store w (.reg r .ptr)]) := by
  intro T first certain later later' φ ρ x hfits _ hsub _ _ hholds hx
  obtain ⟨φ₁, hkeeps, hw⟩ := hconv φ x hx
  have h₁ := hholds.keeps (fits_append.mp hfits).1.avoids hkeeps
  rw [List.append_nil] at h₁
  have hname := hfits.covers name _ hname
  have hplace : φ₁.place (.reg r .ptr) = some (.slot r) := by
    show (φ₁.regs r).bind _ = _
    rw [h₁.framed name r (by rw [slotsOf, hname]; rfl)]
    rfl
  refine ⟨φ₁.write (.slot r) (some (.number x)), ?_, h₁.writeSlot hfits.separate hname hsub⟩
  rw [Machine.execAll_append, hkeeps.run]
  simp [Machine.execAll, Machine.exec, hw, hplace]

theorem sets_record {storage : StorageClass} {m : Reg} (hwhole : whole)
    (hstorage : storage.isTracked = true)
    (hname : t.lookup name = some ⟨storage, .tracked, .global ("main." ++ name)⟩) (hle : n ≤ m)
    (hbelow : Below m w) (hconv : Leaves R n .number v code w) :
    Sets R whole t t name v (code ++ [.load m .ptr (.global ("main." ++ name)),
      .call none .void Catalog.boxUpdate [.reg m .ptr, w]]) := by
  intro T first certain later later' φ ρ x hfits hlater hsub hold _ hholds hx
  obtain ⟨φ₁, hkeeps, hw⟩ := hconv φ x hx
  have hsome := hold hwhole (by simp [hname])
  obtain ⟨z, hz⟩ := Option.isSome_iff_exists.mp hsome
  have hname := hfits.covers name _ hname
  obtain ⟨a, ha, hvalue⟩ := hholds.stored name _ z hname hz
  have hload : M.exec φ₁ (.load m .ptr (.global ("main." ++ name))) =
      some (φ₁.set m (.address a)) := by
    have hplace : φ₁.place (.global ("main." ++ name)) = some (.global ("main." ++ name)) := rfl
    simp [Machine.exec, Machine.compute, hplace, hkeeps.memory, ha]
  have hloaded := hkeeps.trans (keeps_set (R := R) hload) hle
  rw [List.append_cons] at hfits ⊢
  have h₂ := hholds.keeps (fits_append.mp hfits).1.avoids hloaded
  rw [List.append_nil, List.append_nil] at h₂
  have hw₂ : (φ₁.set m (.address a)).eval w = some (.number x) := by
    rw [← hw]
    exact hbelow.eval fun r hr => Frame.regs_set_of_ne (Nat.ne_of_lt hr)
  -- The record has a value, so that it can be given another.
  obtain ⟨world, hcall, hupdate, hprinted⟩ := R.update ((congrFun hloaded.value a).trans hvalue) x
  have hargs : [.reg m .ptr, w].mapM (φ₁.set m (.address a)).eval =
      some [.address a, .number x] := by
    have hrecord : (φ₁.set m (.address a)).eval (.reg m .ptr) = some (.address a) :=
      Frame.regs_set
    simp [hrecord, hw₂]
  refine ⟨{ φ₁.set m (.address a) with world := world }, ?_, ?_⟩
  · rw [Machine.execAll_append, hloaded.run]
    simp [Machine.execAll, exec_call hargs hcall]
  · exact h₂.updateRecord hfits.separate ⟨⟨_, hname, storage, hstorage, rfl⟩, hsome,
      (congrFun hloaded.memory _).trans ha⟩ hlater hsub hupdate hprinted

end

/-! ## Lowering -/

/-- What an assignment has done: the variable `b` is there, with the stack slot `slots` if it is a
new one on the stack. -/
structure Assigned {ω : Type} {N : Numbers} {M : Machine ω} (R : Library N M) (whole : Prop)
    (s s' : State) (name : String) (v : Typed) (b : Binding) (slots code : List Instr) : Prop where
  state : s' = { s with
    builder := s'.builder
    assembly := s'.assembly
    globals := s'.globals
    cleanup := s'.cleanup
    lastBound := some name }
  emitted : Emitted s.builder slots code s'.builder
  lookup : ∀ other, s'.globals.lookup other =
    if other = name then some b else s.globals.lookup other
  var : (s.globals.lookup name = some b ∧ slots = []) ∨ (s.globals.lookup name = none ∧
    ((b = ⟨.fastSlot, .scalar, .reg s.builder.nextReg .ptr⟩ ∧
        slots = [.alloca s.builder.nextReg .double] ∧ s.builder.nextReg < s'.builder.nextReg) ∨
      (IsBoxedVar name b ∧ slots = [] ∧ whole)))
  cleanup : ∀ c ∈ s'.cleanup, c ∈ s.cleanup ∨ (c.destroy = Catalog.boxDestroy ∧ whole)
  sets : Sets R whole s.globals s'.globals name v code

section

variable {ω : Type} {N : Numbers} {M : Machine ω} {R : Library N M} {ctx : Context}
  {s s' : State} {whole : Prop} {bound : List String} {name : String} {v : Typed} {b : Binding}

theorem lookup_set {α : Type} (t : Table α) (name name' : String) (x : α) :
    (Table.set t name x).lookup name' = if name' = name then some x else t.lookup name' := by
  unfold Table.set
  rw [List.lookup_cons]
  split_ifs with hname
  · simp [hname]
  · rw [beq_eq_false_iff_ne.mpr hname]
    induction t with
    | nil => rfl
    | cons entry rest ih =>
      obtain ⟨key, y⟩ := entry
      rw [List.filter_cons, List.lookup_cons]
      by_cases hkey : key = name
      · have hother : (name' == key) = false := beq_eq_false_iff_ne.mpr (hkey ▸ hname)
        rw [if_neg (by simp [hkey]), hother]
        exact ih
      · rw [if_pos (by simpa using hkey), List.lookup_cons]
        exact congrArg (fun rest => match name' == key with | true => some y | false => rest) ih

theorem straight_store {slot : Value} (R : Library N M) (hv : IsNumber s.builder.nextReg v) :
    Straight ctx s (do let w ← toScalar v; Emit.store w slot) fun code _ _ => ∃ code' w,
      code = code' ++ [.store w slot] ∧ Leaves R s.builder.nextReg .number v code' w := by
  refine (converts_toScalar R s v hv).bind ?_
  rintro code b w - ⟨-, -, hconv⟩
  exact Straight.push rfl fun _ _ => ⟨code, w, rfl, hconv⟩

theorem straight_change (hs : Plain whole bound s) (hv : IsNumber s.builder.nextReg v)
    (hname : s.globals.lookup name = some b) :
    Straight ctx s (change name b v) fun code _ _ => Sets R whole s.globals s.globals name v code := by
  have hnumeric : v.kind.isNumeric = true := by
    rcases hv.kind with ⟨hkind, -⟩ | ⟨hkind, -⟩ <;> rw [hkind] <;> rfl
  rcases hs.vars name b hname with ⟨r, rfl⟩ | ⟨storage, hstorage, rfl⟩
  · have hchange : change name ⟨.fastSlot, .scalar, .reg r .ptr⟩ v =
        (do let w ← toScalar v; Emit.store w (.reg r .ptr) : Lower Unit) := by
      unfold change update
      simp only [hnumeric, if_pos]
      rfl
    rw [hchange]
    refine (straight_store R hv).mono ?_
    rintro _ b _ - ⟨code, w, rfl, hconv⟩
    exact sets_slot hname hconv
  · have hchange : change name ⟨storage, .tracked, .global ("main." ++ name)⟩ v = (do
        let w ← toScalar v
        let record ← Emit.load .ptr (.global ("main." ++ name))
        Emit.callVoid Catalog.boxUpdate [record, w] : Lower Unit) := by
      unfold change update
      cases storage with
      | stackBox | heapBox | borrowed =>
        simp only [hnumeric, if_pos]
        rfl
      | fastSlot | handle | packedSlot => simp [StorageClass.isTracked] at hstorage
    rw [hchange]
    refine (converts_toScalar R s v hv).bind ?_
    rintro code b w hcode ⟨-, hbelow, hconv⟩
    refine (Straight.define (Q := fun code b' record => code = [.load b.nextReg .ptr
      (.global ("main." ++ name))] ∧ record = .reg b.nextReg .ptr) (fun _ => rfl)
      fun _ _ => ⟨rfl, rfl⟩).bind ?_
    rintro _ b' _ - ⟨rfl, rfl⟩
    exact Straight.push rfl fun _ _ =>
      sets_record (hs.boxed hname ⟨storage, hstorage, rfl⟩) hstorage hname hcode.next hbelow hconv

/-- An assignment in a program ends with a note of its variable. -/
theorem run_afterAssign {s₁ : State} (hprogram : ctx.naming.mode = .program)
    (hrun : (do
      if s.scope = .topLevel then publish name
      modify fun s => { s with lastBound := some name } : Lower Unit) ctx s₁ = .ok ((), s')) :
    s' = { s₁ with lastBound := some name } := by
  have hpublish : publish name ctx s₁ = .ok ((), s₁) := by
    have hexport : ctx.naming.exportSymbol? name = none := by
      simp [Naming.exportSymbol?, hprogram]
    unfold publish
    rw [run_read, run_get, hexport]
    rfl
  split at hrun
  case isTrue =>
    obtain ⟨_, s₂, hpub, hrest⟩ := run_bind hrun
    obtain ⟨-, rfl⟩ := Prod.mk.inj (Except.ok.inj (hpublish.symm.trans hpub))
    exact (congrArg Prod.snd (Except.ok.inj hrest)).symm
  case isFalse => exact (congrArg Prod.snd (Except.ok.inj hrun)).symm

theorem run_assign_new (hprogram : ctx.naming.mode = .program) (htop : s.scope = .topLevel)
    (hnew : s.globals.lookup name = none) (hrun : assign name v ctx s = .ok ((), s')) :
    ∃ s₁, create name v ctx s = .ok ((), s₁) ∧ s' = { s₁ with lastBound := some name } := by
  have hown : s.own.lookup name = none := by simp [State.own, htop, hnew]
  rw [assign_eq] at hrun
  rw [run_get, hown] at hrun
  obtain ⟨_, s₁, hcreate, hrest⟩ := run_bind hrun
  exact ⟨s₁, hcreate, run_afterAssign hprogram hrest⟩

theorem create_number
    (hprogram : ctx.naming.mode = .program) (hobserved : name ∉ ctx.observed)
    (hshared : name ∉ ctx.shared) (htop : s.scope = .topLevel) (hkind : v.kind = .scalar) :
    create name v ctx s = (do
      (do let w ← toScalar v; Emit.store w (.reg s.builder.nextReg .ptr))
      modify (·.bind name ⟨.fastSlot, .scalar, .reg s.builder.nextReg .ptr⟩) : Lower Unit) ctx
        { s with builder := withSlot s.builder .double } := by
  have hstorage : newStorage s.scope (name ∈ ctx.observed) v.kind = .fastSlot := by
    simp [newStorage, hkind, hobserved]
  have hhome : slotHome s.scope .fastSlot ctx.naming.isLibrary (name ∈ ctx.shared) = .stack := by
    simp [slotHome, htop, hshared, Naming.isLibrary, hprogram]
  have hslot : newSlot name .fastSlot .stack (!s.loopEnds.isEmpty) = emit (Emit.alloca .double) := by
    simp only [newSlot, StorageClass.isTracked, Bool.and_false]
    rfl
  show (do
    let storage := newStorage s.scope (name ∈ ctx.observed) v.kind
    let home := slotHome s.scope storage ctx.naming.isLibrary (name ∈ ctx.shared)
    let slot ← newSlot name storage home (!s.loopEnds.isEmpty)
    let kind ← storeFirst storage slot v (!s.loopEnds.isEmpty)
    modify (·.bind name { storage, kind, slot }) : Lower Unit) ctx s = _
  simp only [hstorage, hhome, hslot]
  rfl

theorem run_change (hctx : PlainContext ctx) (hs : Plain whole bound s)
    (hv : IsNumber s.builder.nextReg v) (hname : s.globals.lookup name = some b)
    (hrun : assign name v ctx s = .ok ((), s')) :
    ∃ code, Assigned R whole s s' name v b [] code := by
  have hown : s.own.lookup name = some b := by simp [State.own, hs.top, hname]
  rw [assign_eq] at hrun
  rw [run_get, hown] at hrun
  obtain ⟨_, s₁, hchange, hrest⟩ := run_bind hrun
  obtain ⟨code, b', rfl, hcode, hsets⟩ := straight_change (R := R) hs hv hname hchange
  obtain rfl := run_afterAssign hctx.program hrest
  refine ⟨code, rfl, hcode, fun other => ?_, .inl ⟨hname, rfl⟩, fun c hc => .inl hc, hsets⟩
  split_ifs with heq
  · exact heq ▸ hname
  · rfl

theorem run_createSlot (hctx : PlainContext ctx) (hs : Plain whole bound s)
    (hnew : s.globals.lookup name = none) (hobserved : name ∉ ctx.observed)
    (hv : IsNumber s.builder.nextReg v) (hkind : v.kind = .scalar)
    (hrun : assign name v ctx s = .ok ((), s')) :
    ∃ b slots code, Assigned R whole s s' name v b slots code := by
  obtain ⟨s₁, hcreate, rfl⟩ := run_assign_new hctx.program hs.top hnew hrun
  rw [create_number hctx.program hobserved (by simp [hctx.shared]) hs.top hkind] at hcreate
  obtain ⟨_, s₂, hstore, hbind⟩ := run_bind hcreate
  obtain ⟨_, b, rfl, hcode, code, w, rfl, hconv⟩ :=
    straight_store R (hv.mono (Nat.le_succ _)) hstore
  have hs₁ : State.bind _ name _ = s₁ := congrArg Prod.snd (Except.ok.inj hbind)
  simp only [State.bind, hs.top] at hs₁
  subst hs₁
  exact ⟨_, _, _, by rw [hs.top], (Emitted.alloca s.builder .double).trans hcode,
    fun _ => lookup_set _ _ _ _, .inr ⟨hnew, .inl ⟨rfl, rfl, hcode.next⟩⟩, fun c hc => .inl hc,
    sets_slot ((lookup_set s.globals name name _).trans (if_pos rfl)) hconv⟩

end

end ScriptCompiler.Numeric
