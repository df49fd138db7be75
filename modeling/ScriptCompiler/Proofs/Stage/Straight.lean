import ScriptCompiler.Proofs.Stage.Sound

/-!
# Straight-line code

Where a statement about generated code is about its meaning, the instructions themselves matter and
not only what they may be. `Emitted b slots code b'` says that from the builder `b` to `b'` the
stack slots `slots` and, at the end of the current block, the instructions `code` were written.
`Straight ctx s m Q` says that every successful run of the lowering step `m` from `s` writes
instructions only, and that `Q` holds of them, of the builder after and of the result. Its rules
take a step apart as those of `Leads` do, and join the instructions.
-/

namespace ScriptCompiler.Lowering

open Ir

/-- The builder with a stack slot added, in the next register. -/
def withSlot (b : Builder) (ty : Ty) : Builder :=
  Builder.pushEntry { b with nextReg := b.nextReg + 1 } (.alloca b.nextReg ty)

/-- From `b` to `b'` the stack slots `slots` are added at the head of the function and the
instructions `code` at the end of the current block, which is the last one. -/
structure Emitted (b : Builder) (slots code : List Instr) (b' : Builder) : Prop where
  blocks : ∀ {head done label instrs},
    b.func.blocks = Stage.withHead head (done ++ [⟨label, instrs⟩]) → b.current = done.length →
    b.entryInsert = head.length →
    b'.func.blocks = Stage.withHead (head ++ slots) (done ++ [⟨label, instrs ++ code⟩])
  current : b'.current = b.current
  entryInsert : b'.entryInsert = b.entryInsert + slots.length
  next : b.nextReg ≤ b'.nextReg
  /-- Instructions define registers that were free. -/
  fresh : ∀ i ∈ code, ∀ r, i.dst? = some r → b.nextReg ≤ r

namespace Emitted

variable {b b' b'' : Builder} {slots slots' code code' : List Instr}

theorem refl (b : Builder) : Emitted b [] [] b where
  blocks := fun h _ _ => by simpa using h
  current := rfl
  entryInsert := rfl
  next := Nat.le_refl _
  fresh := by simp

/-- What is written in two stretches, one after the other. -/
theorem trans (h : Emitted b slots code b') (h' : Emitted b' slots' code' b'') :
    Emitted b (slots ++ slots') (code ++ code') b'' where
  blocks := fun hblocks hcurrent hinsert => by
    have hmiddle := h.blocks hblocks hcurrent hinsert
    have hend := h'.blocks hmiddle (h.current.trans hcurrent)
      (by rw [h.entryInsert, hinsert, List.length_append])
    simpa using hend
  current := h'.current.trans h.current
  entryInsert := by rw [h'.entryInsert, h.entryInsert, List.length_append, Nat.add_assoc]
  next := Nat.le_trans h.next h'.next
  fresh := fun i hi r hr => (List.mem_append.mp hi).elim (fun hi => h.fresh i hi r hr)
    fun hi => Nat.le_trans h.next (h'.fresh i hi r hr)

/-- An instruction is added, which defines a register that is free if it defines one. -/
theorem push (i : Instr) (hplace : b'.func = b.func ∧ b'.current = b.current ∧
    b'.entryInsert = b.entryInsert) (hnext : b.nextReg ≤ b'.nextReg)
    (hdst : ∀ r, i.dst? = some r → b.nextReg ≤ r) : Emitted b [] [i] (b'.push i) where
  blocks := fun {head done label instrs} hblocks hcurrent _ => by
    show b'.func.blocks.modify b'.current (·.push i) = _
    rw [hplace.1, hplace.2.1, hblocks, hcurrent, List.append_nil]
    exact Stage.withHead_push head done label instrs i
  current := hplace.2.1
  entryInsert := hplace.2.2
  next := hnext
  fresh := by simpa using hdst

/-- A stack slot is added. -/
theorem alloca (b : Builder) (ty : Ty) :
    Emitted b [.alloca b.nextReg ty] [] (withSlot b ty) where
  blocks := fun {head done label instrs} hblocks _ hinsert => by
    show b.func.blocks.modify 0 (fun blk => { blk with
      instrs := blk.instrs.insertIdx b.entryInsert (.alloca b.nextReg ty) }) = _
    rw [hblocks, hinsert, List.append_nil]
    exact Stage.withHead_pushEntry head _ _
  current := rfl
  entryInsert := rfl
  next := Nat.le_succ _
  fresh := by simp

end Emitted

/-- Every successful run of `m` from `s` writes instructions in the current block, and nothing
else. -/
def Straight {α : Type} (ctx : Context) (s : State) (m : Lower α)
    (Q : List Instr → Builder → α → Prop) : Prop :=
  ∀ ⦃a : α⦄ ⦃s' : State⦄, m ctx s = .ok (a, s') →
    ∃ code b, s' = { s with builder := b } ∧ Emitted s.builder [] code b ∧ Q code b a

namespace Straight

variable {α β : Type} {ctx : Context} {s : State} {Q : List Instr → Builder → α → Prop}
  {R : List Instr → Builder → β → Prop}

theorem pure {a : α} (h : Q [] s.builder a) : Straight ctx s (pure a) Q := by
  intro a' s' hrun
  obtain ⟨rfl, rfl⟩ : a = a' ∧ s = s' := by
    have : (Except.ok (a, s) : Except Error _) = .ok (a', s') := hrun
    simpa using this
  exact ⟨[], s.builder, rfl, .refl _, h⟩

theorem bind {m : Lower α} {f : α → Lower β} (h : Straight ctx s m Q)
    (k : ∀ code b a, Emitted s.builder [] code b → Q code b a →
      Straight ctx { s with builder := b } (f a) fun code' b' c => R (code ++ code') b' c) :
    Straight ctx s (m >>= f) R := by
  intro c s' hrun
  obtain ⟨a, s1, hm, hrest⟩ := run_bind hrun
  obtain ⟨code, b, rfl, hcode, hQ⟩ := h hm
  obtain ⟨code', b', rfl, hcode', hR⟩ := k code b a hcode hQ hrest
  exact ⟨code ++ code', b', rfl, hcode.trans hcode', hR⟩

theorem mono {m : Lower α} {R : List Instr → Builder → α → Prop} (h : Straight ctx s m Q)
    (k : ∀ code b a, Emitted s.builder [] code b → Q code b a → R code b a) :
    Straight ctx s m R := by
  intro a s' hrun
  obtain ⟨code, b, hs', hcode, hQ⟩ := h hrun
  exact ⟨code, b, hs', hcode, k code b a hcode hQ⟩

theorem map {m : Lower α} {f : α → β} {Q : List Instr → Builder → β → Prop}
    (h : Straight ctx s m fun code b a => Q code b (f a)) :
    Straight ctx s (do let a ← m; return f a) Q := by
  refine h.bind (R := Q) fun code b a _ hQ => Straight.pure ?_
  rwa [List.append_nil]

theorem throw {e : Error} : Straight ctx s (MonadExcept.throw e) Q := by
  intro a s' hrun
  have : (Except.error e : Except Error (α × State)) = .ok (a, s') := hrun
  simp at this

theorem get_bind {f : State → Lower β} (h : Straight ctx s (f s) R) :
    Straight ctx s (get >>= f) R :=
  h

theorem read_bind {f : Context → Lower β} (h : Straight ctx s (f ctx) R) :
    Straight ctx s (read >>= f) R :=
  h

/-- An instruction that defines the next register is added. -/
theorem define {ty : Ty} {instr : Reg → Instr} {Q : List Instr → Builder → Value → Prop}
    (hdst : ∀ r, (instr r).dst? = some r)
    (h : ∀ b, b.nextReg = s.builder.nextReg + 1 →
      Q [instr s.builder.nextReg] b (.reg s.builder.nextReg ty)) :
    Straight ctx s (liftM (Emit.define ty instr)) Q := by
  intro v s' hrun
  let b : Builder := { s.builder with nextReg := s.builder.nextReg + 1 }
  obtain ⟨rfl, rfl⟩ : Value.reg s.builder.nextReg ty = v ∧
      { s with builder := b.push (instr s.builder.nextReg) } = s' := by
    have : (Except.ok (Value.reg s.builder.nextReg ty,
      { s with builder := b.push (instr s.builder.nextReg) }) : Except Error _) = .ok (v, s') :=
      hrun
    simpa using this
  refine ⟨_, _, rfl, .push _ ⟨rfl, rfl, rfl⟩ (Nat.le_succ _) fun r hr => ?_, h _ rfl⟩
  rw [hdst] at hr
  exact Nat.le_of_eq (Option.some.inj hr)

theorem push {i : Instr} {Q : List Instr → Builder → Unit → Prop} (hdst : i.dst? = none)
    (h : ∀ b, b.nextReg = s.builder.nextReg → Q [i] b ()) :
    Straight ctx s (liftM (Emit.push i)) Q := by
  intro u s' hrun
  obtain rfl : { s with builder := s.builder.push i } = s' := congrArg Prod.snd (Except.ok.inj hrun)
  exact ⟨_, _, rfl, .push i ⟨rfl, rfl, rfl⟩ (Nat.le_refl _) (by simp [hdst]), h _ rfl⟩

theorem perform {x : Except Error (Emit α)} (h : ∀ e, x = .ok e → Straight ctx s (liftM e) Q) :
    Straight ctx s (perform x) Q := by
  cases x with
  | error e => exact throw
  | ok e => exact h e rfl

theorem emit_bind {e : Emit α} {f : α → Emit β} (h : Straight ctx s (liftM e) Q)
    (k : ∀ code b a, Emitted s.builder [] code b → Q code b a →
      Straight ctx { s with builder := b } (liftM (f a)) fun code' b' c => R (code ++ code') b' c) :
    Straight ctx s (liftM (e >>= f)) R :=
  bind (f := fun a => liftM (f a)) h k

end Straight

namespace Stage

theorem withHead_inj {head head' : List Instr} {blocks blocks' : List Block}
    (h : withHead head blocks = withHead head' blocks') (hlength : head.length = head'.length)
    (hne : blocks ≠ []) : head = head' ∧ blocks = blocks' := by
  cases blocks with
  | nil => exact absurd rfl hne
  | cons b rest =>
    cases blocks' with
    | nil => simp [withHead] at h
    | cons b' rest' =>
      simp only [withHead, List.cons.injEq, Block.mk.injEq] at h
      obtain ⟨⟨hlabel, hinstrs⟩, hrest⟩ := h
      obtain ⟨hhead, hinstrs⟩ := List.append_inj hinstrs hlength
      have hblock : b = b' := by
        cases b
        cases b'
        simp_all
      exact ⟨hhead, by rw [hblock, hrest]⟩

/-- What is written shows in the layout of a stage. -/
theorem Sound.emitted {ctx : Context} {P : Lexicon} {g g' : Stage} {slots code : List Instr}
    (hg : g.Sound ctx P) (hg' : g'.Sound ctx P)
    (h : Emitted g.state.builder slots code g'.state.builder) :
    g'.head = g.head ++ slots ∧ g'.done = g.done ∧ g'.label = g.label ∧
      g'.instrs = g.instrs ++ code := by
  have hblocks := h.blocks hg.layout hg.current hg.entryInsert
  have hlength : g'.head.length = (g.head ++ slots).length := by
    rw [← hg'.entryInsert, h.entryInsert, hg.entryInsert, List.length_append]
  have hlayout : withHead g'.head g'.body =
      withHead (g.head ++ slots) (g.done ++ [⟨g.label, g.instrs ++ code⟩]) :=
    hg'.layout.symm.trans hblocks
  obtain ⟨hhead, hbody⟩ := withHead_inj hlayout hlength (by simp [body])
  obtain ⟨hdone, hlast⟩ := List.append_inj' hbody rfl
  simp only [List.cons.injEq, Block.mk.injEq, and_true] at hlast
  exact ⟨hhead, hdone, hlast.1, hlast.2⟩

end Stage

end ScriptCompiler.Lowering
