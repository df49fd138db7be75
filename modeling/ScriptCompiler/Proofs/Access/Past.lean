import ScriptCompiler.Proofs.Access.Run
import ScriptCompiler.Proofs.Stage.Code

/-!
# What a run knows of its past

Where every register is defined once, a register tells which instruction gave it its datum, and so
what the run did to get it (`Arises.derived`): the address of a stack slot was reserved, a datum that
was loaded from a variable was loaded from the place of that variable, and the result of a call was
returned by it. What is in a stack slot, or in a global that is not of another object, was stored
there last or was there from the beginning (`Arises.remembers`).
-/

namespace ScriptCompiler.Ir

/-- Every register is defined once and is no parameter, and no jump leads to the first block. -/
structure Func.Linear (f : Func) : Prop where
  distinct : (registers f.instrs).Nodup
  params : ∀ i ∈ f.instrs, ∀ r, i.dst? = some r → r ∉ f.paramRegs
  once : ∀ i ∈ f.instrs, ∀ l ∈ i.successors, ∀ b, f.block? l = some b → b ∈ f.blocks.tail

theorem Func.Linear.defined {f : Func} (h : f.Linear) : DefinedOnce f.instrs :=
  definedOnce_of_nodup h.distinct

/-- A value stands for the same place all through a run: it is a stack slot or a global. -/
inductive Func.Home (f : Func) : Value → Address → Prop where
  | slot {r : Reg} {ty : Ty} (h : .alloca r ty ∈ f.instrs) : Home f (.reg r .ptr) (.slot r)
  | global (name : String) : Home f (.global name) (.global name)

/-- What was stored at a place last. -/
def lastStored (past : Past) (a : Address) : Option Datum :=
  past.findSome? fun
    | .stored a' d => if a' = a then some d else none
    | _ => none

/-- What was read into a register last is the datum `d`, from the place `a`, after `earlier`. -/
def LoadedLast (past : Past) (r : Reg) (a : Address) (d : Datum) (earlier : Past) : Prop :=
  ∃ later, past = later ++ .loaded r a d :: earlier ∧ ∀ a' d', .loaded r a' d' ∉ later

/-- How an instruction came by the datum `d` of the register that it defines. -/
def Derives (f : Func) (past : Past) (d : Datum) : Instr → Prop
  | .alloca r _ => d = .address (.slot r)
  | .load r _ ptr => ∀ a, f.Home ptr a → ∃ earlier, LoadedLast past r a d earlier
  | .call dst _ callee _ => ∃ xs, .called dst callee xs (some d) ∈ past
  | _ => d.IsForeign

namespace Frame

/-- Every register that is defined has its datum from the instruction that defines it. -/
def Derived (f : Func) (φ : Frame Past) : Prop :=
  ∀ i ∈ f.instrs, ∀ r d, i.dst? = some r → φ.regs r = some d → Derives f φ.world d i

/-- What is at a place was stored there last, or was there when the run began in the frame `φ₀`. -/
def Remembers (φ₀ φ : Frame Past) (a : Address) : Prop :=
  ∀ d, φ.memory a = some d → lastStored φ.world a = some d ∨
    lastStored φ.world a = none ∧ φ₀.memory a = some d

end Frame

/-- A place that only the function itself writes. -/
def Address.IsKept (S : Surroundings) (a : Address) : Prop :=
  (∃ r, a = .slot r) ∨ ∃ name, a = .global name ∧ ¬ S.elsewhere name

/-! ## Stores -/

section

variable {past : Past} {a : Address} {d : Datum}

@[simp] theorem lastStored_loaded (r : Reg) (place : Address) :
    lastStored (.loaded r place d :: past) a = lastStored past a := rfl

@[simp] theorem lastStored_called (dst : Option Reg) (callee : String) (xs : List Datum)
    (result : Option Datum) :
    lastStored (.called dst callee xs result :: past) a = lastStored past a := rfl

@[simp] theorem lastStored_stored (a' : Address) :
    lastStored (.stored a' d :: past) a = if a' = a then some d else lastStored past a := by
  by_cases h : a' = a <;> simp [lastStored, h]

theorem notMem_of_lastStored (h : lastStored past a = none) : .stored a d ∉ past := by
  intro hmem
  have hnone := List.findSome?_eq_none_iff.mp h _ hmem
  simp at hnone

end

/-! ## Registers -/

section

variable {S : Surroundings} {f : Func} {φ₀ φ φ' : Frame Past} {i : Instr} {d : Datum}

/-- What was read last is what was read last after something else was done. -/
theorem LoadedLast.does {r : Reg} {a : Address} {earlier : Past}
    (h : LoadedLast φ.world r a d earlier) (hdoes : Does S φ i φ') (hr : i.dst? ≠ some r) :
    LoadedLast φ'.world r a d earlier := by
  obtain ⟨later, heq, hlast⟩ := h
  have hcons : ∀ e : Event, (∀ a' d', e ≠ .loaded r a' d') →
      LoadedLast (e :: φ.world) r a d earlier := fun e he =>
    ⟨e :: later, by rw [heq]; rfl, fun a' d' hmem =>
      (List.mem_cons.mp hmem).elim (fun heq => he a' d' heq.symm) (hlast a' d')⟩
  cases hdoes with
  | alloca | compute => exact ⟨later, heq, hlast⟩
  | load dst ty | loadAny dst ty =>
    refine hcons _ fun a' d' heq => hr ?_
    exact congrArg some (Event.loaded.inj heq).1
  | store | callVoid | call => exact hcons _ (by simp)

theorem LoadedLast.mem {past earlier : Past} {r : Reg} {a : Address}
    (h : LoadedLast past r a d earlier) : .loaded r a d ∈ past := by
  obtain ⟨later, rfl, -⟩ := h
  simp

theorem LoadedLast.suffix {past earlier : Past} {r : Reg} {a : Address}
    (h : LoadedLast past r a d earlier) : earlier <:+ past := by
  obtain ⟨later, rfl, -⟩ := h
  exact ⟨later ++ [.loaded r a d], by simp⟩

/-- The datum of a register stays what it came by while other registers are defined. -/
theorem Derives.does {j : Instr} {r : Reg} (h : Derives f φ.world d j) (hj : j.dst? = some r)
    (hdoes : Does S φ i φ') (hr : i.dst? ≠ some r) : Derives f φ'.world d j := by
  cases j with
  | load dst ty ptr =>
    obtain rfl := Option.some.inj hj
    intro a ha
    obtain ⟨earlier, hlast⟩ := h a ha
    exact ⟨earlier, hlast.does hdoes hr⟩
  | call dst ret callee args =>
    obtain ⟨xs, hxs⟩ := h
    exact ⟨xs, hdoes.past.subset hxs⟩
  | _ => exact h

theorem derives_of_isForeign {past : Past} (hi : i.isComputation = true) (hd : d.IsForeign) :
    Derives f past d i := by
  cases i with
  | gep | binary | fneg | fcmp | icmp | cast => exact hd
  | _ => simp [Instr.isComputation] at hi

namespace Frame.Derived

variable {r : Reg}

theorem slot {ty : Ty} (hφ : φ.Derived f) (hi : .alloca r ty ∈ f.instrs) (hd : φ.regs r = some d) :
    d = .address (.slot r) :=
  hφ _ hi r d rfl hd

theorem field {element : Ty} {base index : Value} (hφ : φ.Derived f)
    (hi : .gep r element base index ∈ f.instrs) (hd : φ.regs r = some d) : d.IsForeign :=
  hφ _ hi r d rfl hd

theorem result {ret : Ty} {callee : String} {args : List Value} (hφ : φ.Derived f)
    (hi : .call (some r) ret callee args ∈ f.instrs) (hd : φ.regs r = some d) :
    ∃ xs, .called (some r) callee xs (some d) ∈ φ.world :=
  hφ _ hi r d rfl hd

theorem loaded {ty : Ty} {ptr : Value} {a : Address} (hφ : φ.Derived f)
    (hi : .load r ty ptr ∈ f.instrs) (ha : f.Home ptr a) (hd : φ.regs r = some d) :
    ∃ earlier, LoadedLast φ.world r a d earlier :=
  hφ _ hi r d rfl hd a ha

end Frame.Derived

theorem Func.Home.inj {v v' : Value} {a : Address} (h : f.Home v a) (h' : f.Home v' a) : v = v' := by
  cases h with
  | slot => cases h' with
    | slot => rfl
  | global name => cases h' with
    | global => rfl

theorem Func.Home.unique {v : Value} {a a' : Address} (h : f.Home v a) (h' : f.Home v a') :
    a = a' := by
  cases h with
  | slot => cases h' with
    | slot => rfl
  | global name => cases h' with
    | global => rfl

theorem Func.Home.place {v : Value} {a a' : Address} (h : f.Home v a) (hφ : φ.Derived f)
    (hplace : φ.place v = some a') : a' = a := by
  cases h with
  | global name => exact (Option.some.inj hplace).symm
  | slot hslot =>
    obtain ⟨d, hd, hd'⟩ := Option.bind_eq_some_iff.mp hplace
    rw [hφ.slot hslot hd] at hd'
    exact (Option.some.inj hd').symm

/-- Foreign data are addresses of memory that was handed out, if they are addresses. -/
theorem Datum.IsForeign.place {a : Address} (h : d.IsForeign) (ha : d.place? = some a) :
    ∃ index, a = .heap index := by
  unfold Datum.place? at ha
  split at ha
  case h_1 => simp at ha
  case h_3 => simp at ha
  case h_2 a' hne =>
    obtain rfl := Option.some.inj ha
    cases a' with
    | null => exact absurd rfl hne
    | slot r => exact absurd rfl (h.1 r)
    | global name => exact absurd rfl (h.2 name)
    | heap index => exact ⟨index, rfl⟩

theorem Does.derives {r : Reg} (h : Does S φ i φ') (hφ : φ.Derived f)
    (hr : i.dst? = some r) (hd : φ'.regs r = some d) : Derives f φ'.world d i := by
  cases h with
  | alloca dst ty =>
    obtain rfl := Option.some.inj hr
    exact (Option.some.inj ((@Frame.regs_set _ φ _ _).symm.trans hd)).symm
  | load dst ty place | loadAny dst ty place =>
    obtain rfl := Option.some.inj hr
    obtain rfl := Option.some.inj ((@Frame.regs_set _ φ _ _).symm.trans hd)
    intro a ha
    rw [← ha.place hφ place]
    exact ⟨φ.world, [], rfl, by simp⟩
  | store | callVoid => simp [Instr.dst?] at hr
  | compute computation defines computes =>
    obtain rfl := Option.some.inj (hr.symm.trans defines)
    obtain rfl := Option.some.inj ((@Frame.regs_set _ φ _ _).symm.trans hd)
    exact derives_of_isForeign computation computes.isForeign
  | @call args xs d' memory dst ret callee data =>
    obtain rfl := Option.some.inj hr
    obtain rfl : d' = d :=
      Option.some.inj ((@Frame.regs_set _ { φ with memory } _ _).symm.trans hd)
    exact ⟨xs, List.mem_cons_self⟩

/-- An instruction of the function leaves every register with a datum that it has from its
definition. -/
theorem Does.derived (hf : f.Linear) (h : Does S φ i φ') (hi : i ∈ f.instrs)
    (hφ : φ.Derived f) : φ'.Derived f := by
  intro j hj r d hr hd
  by_cases hdst : i.dst? = some r
  · obtain rfl := hf.defined i hi j hj r hdst hr
    exact h.derives hφ hr hd
  · rw [h.regs hdst] at hd
    exact (hφ j hj r d hr hd).does hr h hdst

theorem Arises.derived (hf : f.Linear) (hbegin : φ₀.Begins f) {c : Point}
    (h : Arises S f φ₀ c) : c.frame.Derived f := by
  induction h with
  | refl =>
    intro i hi r d hr hd
    rw [Func.frame_start, hbegin.params r (hf.params i hi r hr)] at hd
    simp at hd
  | tail hpath hstep ih =>
    cases hstep with
    | exec label rest hdoes => exact hdoes.derived hf (Arises.mem hpath) ih
    | br | condBr => exact ih

/-! ## Memory -/

theorem Frame.Spares.memory_eq {a : Address} {memory : Address → Option Datum}
    (h : φ.Spares S memory) (ha : a.IsKept S) : memory a = φ.memory a := by
  refine Classical.byContradiction fun hne => ?_
  rcases h a hne with ⟨index, rfl⟩ | ⟨name, rfl, helsewhere⟩
  · rcases ha with ⟨r, hr⟩ | ⟨name, hname, -⟩
    · simp at hr
    · simp at hname
  · rcases ha with ⟨r, hr⟩ | ⟨name', hname, hnot⟩
    · simp at hr
    · exact hnot (Address.global.inj hname ▸ helsewhere)

/-- A place that only the function writes changes only by its stores. -/
theorem Does.remembers {a : Address} (ha : a.IsKept S) (h : Does S φ i φ')
    (hφ : φ₀.Remembers φ a) : φ₀.Remembers φ' a := by
  intro d hd
  cases h with
  | alloca dst ty =>
    by_cases hslot : a = .slot dst
    · subst hslot
      simp at hd
    · rw [Frame.memory_write_of_ne hslot] at hd
      exact hφ d hd
  | load | loadAny | compute => exact hφ d hd
  | @store value ptr place datum =>
    by_cases hplace : a = place
    · subst hplace
      refine .inl ?_
      have hd : some datum = some d := by
        rw [← hd]
        exact Frame.memory_write.symm
      simpa [Frame.note, Frame.write] using hd
    · have hold : φ.memory a = some d := by
        rw [← hd]
        exact (Frame.memory_write_of_ne hplace).symm
      simpa [Frame.note, Frame.write, Ne.symm hplace] using hφ d hold
  | callVoid ret callee data spares => exact hφ d ((spares.memory_eq ha).symm.trans hd)
  | call dst ret callee data spares => exact hφ d ((spares.memory_eq ha).symm.trans hd)

theorem Arises.remembers {a : Address} (ha : a.IsKept S) (hbegin : φ₀.Begins f)
    {c : Point} (h : Arises S f φ₀ c) : φ₀.Remembers c.frame a := by
  induction h with
  | refl =>
    intro d hd
    rw [Func.frame_start] at hd ⊢
    refine .inr ⟨?_, hd⟩
    rw [hbegin.past]
    rfl
  | tail _ hstep ih =>
    cases hstep with
    | exec label rest hdoes => exact hdoes.remembers ha ih
    | br | condBr => exact ih

theorem Arises.lastStored_slot {r : Reg} (hbegin : φ₀.Begins f) {c : Point}
    (h : Arises S f φ₀ c) (hd : c.frame.memory (.slot r) = some d) :
    lastStored c.frame.world (.slot r) = some d := by
  refine (h.remembers (.inl ⟨r, rfl⟩) hbegin d hd).resolve_right fun hnone => ?_
  rw [hbegin.slots] at hnone
  simp at hnone

theorem Arises.created_heap (hbegin : φ₀.Begins f) {c : Point} {dst : Option Reg}
    {xs : List Datum} (h : Arises S f φ₀ c)
    (hcalled : .called dst Catalog.boxCreate xs (some d) ∈ c.frame.world) :
    ∃ index, d = .address (.heap index) := by
  induction h with
  | refl =>
    rw [Func.frame_start, hbegin.past] at hcalled
    simp at hcalled
  | tail _ hstep ih =>
    cases hstep with
    | br | condBr => exact ih hcalled
    | exec label rest hdoes =>
      cases hdoes with
      | alloca | compute => exact ih hcalled
      | load | loadAny | store | callVoid => exact ih ((List.mem_cons.mp hcalled).resolve_left (by simp))
      | call dst ret callee data spares foreign record =>
        rcases List.mem_cons.mp hcalled with heq | hcalled
        · obtain ⟨-, hcallee, -, hd⟩ := Event.called.inj heq
          exact Option.some.inj hd ▸ record hcallee.symm
        · exact ih hcalled

end

end ScriptCompiler.Ir
