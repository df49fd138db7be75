import ScriptCompiler.Proofs.Access.Recording
import ScriptCompiler.Proofs.Access.Watch
import ScriptCompiler.Proofs.Cleanup
import ScriptCompiler.Proofs.ControlFlow

/-!
# What a program has freed when it returns

A program has one global for each call in its text that reserves memory. The call stores the address
there, and the last block frees what is in these globals. A call that stands in a loop may be made
many times, and each time it overwrites the address from before. So when the program returns it has
freed, of all the addresses that a call returned, exactly the last one, once and by the function that
belongs to it, and none of the earlier ones (`FreesLatest`). `generate_freesLatest` says so of every
run of a program, and `leaks_literalInLoop` shows a program that never frees an address.

The invariant of a run is that every such global has in it what its call returned last, or null, except
between the call and the store behind it (`Accounts`), that nothing is freed before the last block, and
that in the last block the globals that have been read so far are the ones that are freed (`Settles`).
-/

namespace ScriptCompiler

open List

namespace Ir

/-- What calls returned last for the sake of a register. -/
def lastCalled (past : Past) (r : Reg) : Option Datum :=
  past.findSome? fun
    | .called (some r') _ _ result => if r' = r then result else none
    | _ => none

section

variable {S : Surroundings} {f : Func} {φ φ' φ₀ : Frame Past} {past : Past} {i : Instr} {r : Reg}
  {d : Datum}

theorem mem_of_lastCalled (h : lastCalled past r = some d) :
    ∃ callee xs, .called (some r) callee xs (some d) ∈ past := by
  obtain ⟨e, he, heq⟩ := exists_of_findSome?_eq_some h
  cases e with
  | loaded | stored => simp at heq
  | called dst callee xs result =>
    cases dst with
    | none => simp at heq
    | some r' =>
      dsimp only at heq
      split at heq
      case isFalse => simp at heq
      case isTrue hr => exact ⟨callee, xs, hr ▸ heq ▸ he⟩

theorem lastCalled_append (later earlier : Past) (r : Reg) :
    lastCalled (later ++ earlier) r = (lastCalled later r).or (lastCalled earlier r) :=
  List.findSome?_append

theorem Does.lastCalled (h : Does S φ i φ') (hr : i.dst? ≠ some r) :
    Ir.lastCalled φ'.world r = Ir.lastCalled φ.world r := by
  cases h with
  | alloca | compute | load | loadAny | store | callVoid => rfl
  | call dst ret callee data =>
    have hne : dst ≠ r := fun heq => hr (congrArg some heq)
    simp [Ir.lastCalled, Frame.note, Frame.set, hne]

theorem Arises.mem_of_called (hbegin : φ₀.Begins f) {c : Point} {dst : Option Reg} {callee : String}
    {xs : List Datum} {result : Option Datum} (h : Arises S f φ₀ c)
    (hcalled : .called dst callee xs result ∈ c.frame.world) :
    ∃ ret args, .call dst ret callee args ∈ f.instrs := by
  induction h with
  | refl =>
    rw [Func.frame_start, hbegin.past] at hcalled
    simp at hcalled
  | tail hpath hstep ih =>
    cases hstep with
    | br | condBr => exact ih hcalled
    | exec label rest hdoes =>
      have hi := Arises.mem hpath
      cases hdoes with
      | alloca | compute => exact ih hcalled
      | load | loadAny | store => exact ih ((mem_cons.mp hcalled).resolve_left (by simp))
      | callVoid ret callee' | call dst' ret callee' =>
        rcases mem_cons.mp hcalled with heq | hcalled
        · obtain ⟨rfl, rfl, -, -⟩ := Event.called.inj heq
          exact ⟨ret, _, hi⟩
        · exact ih hcalled

end

end Ir

namespace Lowering

open Ir

/-- What was passed to functions that free memory, the latest first. -/
def frees (past : Past) : List (String × Datum) :=
  past.filterMap fun
    | .called _ callee (d :: _) _ => if callee ∈ Catalog.releasing then some (callee, d) else none
    | _ => none

/-- What functions that reserve memory returned, the latest first. -/
def allocated (past : Past) : List Datum :=
  past.filterMap fun
    | .called _ callee _ result => if callee ∈ Catalog.owners.map (·.1) then result else none
    | _ => none

/-- Of the addresses that a call which reserves memory returned, the last one was freed once, by the
function that belongs to the call, and the earlier ones were not freed. -/
def FreesLatest (past : Past) : Prop :=
  ∀ later r callee xs d earlier destroy,
    past = later ++ .called (some r) callee xs (some d) :: earlier →
    (callee, destroy) ∈ Catalog.owners →
    (frees past).filter (·.2 = d) = if (lastCalled later r).isSome then [] else [(destroy, d)]

/-! ## The calls that reserve memory -/

/-- The calls of a function that reserve memory, by their registers, with what is noted of each: the
instruction behind it stores the address, and no other instruction stores there. -/
structure Notebook (f : Func) (notes : List (Reg × Cleanup)) : Prop where
  registers : (notes.map (·.1)).Nodup
  called : ∀ n ∈ notes, ∃ callee args, callee ∈ Catalog.owners.map (·.1) ∧
    .call (some n.1) .ptr callee args ∈ f.instrs
  noted : ∀ b ∈ f.blocks, ∀ before r ret callee args rest,
    b.instrs = before ++ .call (some r) ret callee args :: rest →
    callee ∈ Catalog.owners.map (·.1) → ∃ e, (r, e) ∈ notes ∧ (callee, e.destroy) ∈ Catalog.owners ∧
      rest.head? = some (.store (.reg r .ptr) (.global e.slot))
  stored : ∀ n ∈ notes, ∀ v, .store v (.global n.2.slot) ∈ f.instrs → v = .reg n.1 .ptr

theorem mem_allocations (before rest : List Instr) {i : Instr} (h : i.allocates = true) :
    (i, rest.head?) ∈ Ir.allocations (before ++ i :: rest) := by
  induction before with
  | nil => simp [Ir.allocations, h]
  | cons j before ih =>
    rw [cons_append, Ir.allocations]
    split
    · exact mem_cons_of_mem _ ih
    · exact ih

theorem sublist_allocations (code : List Instr) :
    List.Sublist ((Ir.allocations code).map (·.1)) code := by
  induction code with
  | nil => exact .slnil
  | cons i code ih =>
    rw [Ir.allocations]
    split
    · exact ih.cons_cons i
    · exact ih.cons i

theorem sublist_allocations_instrs (f : Func) :
    List.Sublist (f.allocations.map (·.1)) f.instrs := by
  unfold Func.allocations Func.instrs
  induction f.blocks with
  | nil => exact .slnil
  | cons b blocks ih =>
    rw [flatMap_cons, flatMap_cons, map_append]
    exact (sublist_allocations b.instrs).append ih

theorem mem_of_allocations {code : List Instr} {i j : Instr} (h : (i, some j) ∈ Ir.allocations code) :
    j ∈ code := by
  induction code with
  | nil => simp [Ir.allocations] at h
  | cons k code ih =>
    rw [Ir.allocations] at h
    split at h
    · rcases mem_cons.mp h with heq | h
      · exact mem_cons_of_mem _ (mem_of_head? (Prod.mk.inj heq).2.symm)
      · exact mem_cons_of_mem _ (ih h)
    · exact mem_cons_of_mem _ (ih h)

/-- The call with the register reserves memory, and its address is noted. -/
def IsNoted (p : Instr × Option Instr) (n : Reg × Cleanup) : Prop :=
  ∃ callee args, (callee, n.2.destroy) ∈ Catalog.owners ∧
    p = (.call (some n.1) .ptr callee args, some (.store (.reg n.1 .ptr) (.global n.2.slot)))

theorem exists_notes {calls : List (Instr × Option Instr)} {cleanup : List Cleanup}
    (h : List.Forall₂ Notes calls cleanup) :
    ∃ notes : List (Reg × Cleanup), notes.map (·.2) = cleanup ∧
      notes.map (·.1) = (calls.map (·.1)).filterMap Instr.dst? ∧
      (∀ p ∈ calls, ∃ n ∈ notes, IsNoted p n) ∧ ∀ n ∈ notes, ∃ p ∈ calls, IsNoted p n := by
  induction h with
  | nil => exact ⟨[], rfl, rfl, by simp, by simp⟩
  | @cons p e calls cleanup hp _ ih =>
    obtain ⟨dst, callee, args, howner, rfl⟩ := hp
    obtain ⟨notes, hcleanup, hregisters, hcalls, hnotes⟩ := ih
    have hnoted : IsNoted (.call (some dst) .ptr callee args,
        some (.store (.reg dst .ptr) (.global e.slot))) (dst, e) := ⟨callee, args, howner, rfl⟩
    refine ⟨(dst, e) :: notes, by simp [hcleanup], by simp [hregisters, Instr.dst?], ?_, ?_⟩
    · intro p hp
      rcases mem_cons.mp hp with rfl | hp
      · exact ⟨_, mem_cons_self, hnoted⟩
      · obtain ⟨n, hn, h⟩ := hcalls p hp
        exact ⟨n, mem_cons_of_mem _ hn, h⟩
    · intro n hn
      rcases mem_cons.mp hn with rfl | hn
      · exact ⟨_, mem_cons_self, hnoted⟩
      · obtain ⟨p, hp, h⟩ := hnotes n hn
        exact ⟨p, mem_cons_of_mem _ hp, h⟩

theorem eq_of_countP_eq_one {α : Type} {p : α → Bool} {l : List α} {a b : α}
    (h : l.countP p = 1) (ha : a ∈ l) (hb : b ∈ l) (hpa : p a = true) (hpb : p b = true) : a = b := by
  rw [countP_eq_length_filter, length_eq_one_iff] at h
  obtain ⟨x, hx⟩ := h
  have hmem : ∀ {y}, y ∈ l → p y = true → y = x := fun hy hpy => by
    simpa [hx] using mem_filter.mpr ⟨hy, hpy⟩
  exact (hmem ha hpa).trans (hmem hb hpb).symm

theorem FreesAll.exists_notebook {a : Assembly} {main : Func} {cleanup : List Cleanup}
    (h : FreesAll a main cleanup) (hmain : main ∈ a.functions)
    (hdistinct : (registers main.instrs).Nodup) :
    ∃ notes, notes.map (·.2) = cleanup ∧ Notebook main notes := by
  obtain ⟨notes, hcleanup, hregisters, hcalls, hnotes⟩ := exists_notes h.noted
  have hinstr : ∀ i ∈ main.instrs, i ∈ a.instrs := fun i hi => mem_flatMap.mpr ⟨main, hmain, hi⟩
  have hmem : ∀ n ∈ notes, (∃ callee args, callee ∈ Catalog.owners.map (·.1) ∧
      .call (some n.1) .ptr callee args ∈ main.instrs) ∧
      .store (.reg n.1 .ptr) (.global n.2.slot) ∈ main.instrs := by
    intro n hn
    obtain ⟨p, hp, callee, args, howner, rfl⟩ := hnotes n hn
    obtain ⟨b, hb, hp'⟩ := mem_flatMap.mp hp
    refine ⟨⟨callee, args, mem_map.mpr ⟨_, howner, rfl⟩, ?_⟩,
      mem_flatMap.mpr ⟨b, hb, mem_of_allocations hp'⟩⟩
    exact (sublist_allocations_instrs main).subset (mem_map.mpr ⟨_, hp, rfl⟩)
  refine ⟨notes, hcleanup, ?_, fun n hn => (hmem n hn).1, ?_, fun n hn v hv => ?_⟩
  · rw [hregisters]
    exact hdistinct.sublist ((sublist_allocations_instrs main).filterMap _)
  · intro b hb before r ret callee args rest hinstrs howner
    have hallocates : (Instr.call (some r) ret callee args).allocates = true := by
      simpa [Instr.allocates, Instr.callee?] using howner
    have hp := mem_allocations before rest hallocates
    rw [← hinstrs] at hp
    obtain ⟨⟨r', e⟩, hn, callee', args', howner', heq⟩ :=
      hcalls _ (mem_flatMap.mpr ⟨b, hb, hp⟩)
    obtain ⟨hcall, hnext⟩ := Prod.mk.inj heq
    obtain ⟨hr, -, rfl, -⟩ := Instr.call.inj hcall
    obtain rfl := Option.some.inj hr
    exact ⟨e, hn, howner', hnext⟩
  · have he : n.2 ∈ cleanup := hcleanup ▸ mem_map.mpr ⟨n, hn, rfl⟩
    have heq := eq_of_countP_eq_one (h.stored _ he) (hinstr _ hv) (hinstr _ (hmem n hn).2)
      (by simp [Instr.storesTo, Value.global]) (by simp [Instr.storesTo, Value.global])
    exact (Instr.store.inj heq).1

/-! ## The last block -/

theorem countP_add_le_flatMap {α β : Type} {p : β → Bool} {f : α → List β} {l : List α} {a b : α}
    (ha : a ∈ l) (hb : b ∈ l) (hne : a ≠ b) :
    (f a).countP p + (f b).countP p ≤ (l.flatMap f).countP p := by
  have hone : ∀ {x : α} {l : List α}, x ∈ l → (f x).countP p ≤ (l.flatMap f).countP p := fun hx =>
    (sublist_flatten_of_mem (mem_map.mpr ⟨_, hx, rfl⟩)).countP_le
  induction l with
  | nil => simp at ha
  | cons x l ih =>
    rw [flatMap_cons, countP_append]
    rcases mem_cons.mp ha with rfl | ha' <;> rcases mem_cons.mp hb with rfl | hb'
    · exact absurd rfl hne
    · exact Nat.add_le_add_left (hone hb') _
    · rw [Nat.add_comm]
      exact Nat.add_le_add_left (hone ha') _
    · exact Nat.le_add_left_of_le (ih ha' hb')

theorem countP_releases_freeing {r : Reg} {cleanup : List Cleanup}
    (h : ∀ e ∈ cleanup, e.destroy ∈ Catalog.releasing) :
    (freeing r cleanup).countP Instr.releases = cleanup.length := by
  induction cleanup generalizing r with
  | nil => rfl
  | cons e cleanup ih =>
    have he : e.destroy ∈ Catalog.releasing := h e mem_cons_self
    rw [freeing, countP_cons_of_neg (by simp [Instr.releases, Instr.callee?]),
      countP_cons_of_pos (by simp [Instr.releases, Instr.callee?, he]),
      ih fun e' he' => h e' (mem_cons_of_mem _ he'), length_cons]

theorem FreesAll.releasing {a : Assembly} {main : Func} {cleanup : List Cleanup}
    (h : FreesAll a main cleanup) : ∀ e ∈ cleanup, e.destroy ∈ Catalog.releasing := fun e he => by
  have hmem : e.destroy ∈ cleanup.map (·.destroy) := mem_map.mpr ⟨e, he, rfl⟩
  rw [← h.freed] at hmem
  simpa using (mem_filter.mp hmem).2

/-- Outside of the last block nothing is freed, and the program does not return. -/
theorem FreesAll.quiet {a : Assembly} {main : Func} {cleanup : List Cleanup}
    (h : FreesAll a main cleanup) (hmain : main ∈ a.functions) {b : Block} (hb : b ∈ main.blocks)
    (hlabel : b.label ≠ exitLabel) {i : Instr} (hi : i ∈ b.instrs) :
    i.releases = false ∧ i.isReturn = false := by
  obtain ⟨r, hexit⟩ := h.exit
  have hlast := mem_of_find?_eq_some hexit
  have hne : b ≠ ⟨exitLabel, freeing r cleanup ++ [.ret (some (.int .i32 0))]⟩ := fun heq =>
    hlabel (congrArg Block.label heq)
  have htotal : main.instrs.countP Instr.releases ≤ cleanup.length := by
    have hcount := congrArg List.length h.freed
    rw [← countP_eq_length_filter, length_map] at hcount
    have hcalls : main.calls.countP (fun c => decide (c ∈ Catalog.releasing)) =
        main.instrs.countP Instr.releases := by
      unfold Func.calls
      rw [countP_filterMap]
      refine countP_congr fun i _ => ?_
      cases hcallee : i.callee? <;> simp [Instr.releases, hcallee]
    rw [← hcount, ← hcalls]
    exact (sublist_flatten_of_mem (mem_map.mpr ⟨main, hmain, rfl⟩)).countP_le
  have hreleases := Nat.le_trans (countP_add_le_flatMap (p := Instr.releases) hb hlast hne) htotal
  have hreturns := countP_add_le_flatMap (p := Instr.isReturn) (f := Block.instrs) hb hlast hne
  rw [countP_append, countP_releases_freeing h.releasing] at hreleases
  rw [countP_append, show (main.blocks.flatMap Block.instrs).countP Instr.isReturn = 1 from
    h.returns] at hreturns
  have hreturn : ([.ret (some (.int .i32 0))] : List Instr).countP Instr.isReturn = 1 := rfl
  have hnone : b.instrs.countP Instr.releases = 0 ∧ b.instrs.countP Instr.isReturn = 0 := by omega
  refine ⟨?_, ?_⟩
  · simpa using countP_eq_zero.mp hnone.1 i hi
  · simpa using countP_eq_zero.mp hnone.2 i hi

/-! ## Runs -/

/-- What is to be freed for a register: what was returned last, or null. -/
def due (past : Past) (r : Reg) : Datum := (lastCalled past r).getD noRecord

/-- Every call has its result in its register, and in the global for it unless it is stored there
next. -/
structure Accounts (notes : List (Reg × Cleanup)) (c : Point) : Prop where
  regs : ∀ n ∈ notes, c.frame.regs n.1 = lastCalled c.frame.world n.1
  slots : ∀ n ∈ notes, c.frame.memory (.global n.2.slot) = some (due c.frame.world n.1) ∨
    c.code.head? = some (.store (.reg n.1 .ptr) (.global n.2.slot))

/-- What is freed for some calls, the last one first. -/
def paid (past : Past) (notes : List (Reg × Cleanup)) : List (String × Datum) :=
  (notes.map fun n => (n.2.destroy, due past n.1)).reverse

/-- Where a run is in the last block of a program. -/
inductive Exiting (notes : List (Reg × Cleanup)) (φ : Frame Past) : List Instr → Prop where
  /-- The calls `rest` are still to be accounted for. -/
  | load (paidFor rest : List (Reg × Cleanup)) (r : Reg) (split : notes = paidFor ++ rest)
      (freed : frees φ.world = paid φ.world paidFor) :
      Exiting notes φ (freeing r (rest.map (·.2)) ++ [.ret (some (.int .i32 0))])
  /-- An address has been read and is freed next. -/
  | free {paidFor rest : List (Reg × Cleanup)} {n : Reg × Cleanup} {r : Reg}
      (split : notes = paidFor ++ n :: rest) (freed : frees φ.world = paid φ.world paidFor)
      (loaded : φ.regs r = some (due φ.world n.1)) :
      Exiting notes φ (.call none .void n.2.destroy [.reg r .ptr] ::
        (freeing (r + 1) (rest.map (·.2)) ++ [.ret (some (.int .i32 0))]))

/-- Nothing is freed before the last block, and in the last block what has been read. -/
structure Settles (notes : List (Reg × Cleanup)) (c : Point) : Prop where
  before : c.label ≠ exitLabel → frees c.frame.world = []
  after : c.label = exitLabel → Exiting notes c.frame c.code

section

variable {S : Surroundings} {naming : Naming} {A : Access} {a : Assembly} {main : Func}
  {cleanup : List Cleanup} {notes : List (Reg × Cleanup)} {φ₀ : Frame Past} {c c' : Point}

theorem Notebook.exists_call (h : Notebook main notes) (hf : main.Linear) {n : Reg × Cleanup}
    (hn : n ∈ notes) {i : Instr} (hi : i ∈ main.instrs) (hdst : i.dst? = some n.1) :
    ∃ callee args, callee ∈ Catalog.owners.map (·.1) ∧ i = .call (some n.1) .ptr callee args := by
  obtain ⟨callee, args, howner, hcall⟩ := h.called n hn
  exact ⟨callee, args, howner, hf.defined i hi _ hcall n.1 hdst rfl⟩

theorem Notebook.eq_of_fst (h : Notebook main notes) {n n' : Reg × Cleanup} (hn : n ∈ notes)
    (hn' : n' ∈ notes) (heq : n.1 = n'.1) : n = n' :=
  inj_on_of_nodup_map h.registers hn hn' heq

theorem Accounts.store (h : Accounts notes c) (hnotes : Notebook main notes)
    (hA : A.Keeps naming main) (hφ : c.frame.Derived main) {n : Reg × Cleanup} (hn : n ∈ notes)
    {value ptr : Value} {d : Datum} (hi : .store value ptr ∈ main.instrs)
    (hd : c.frame.eval value = some d) (hplace : c.frame.place ptr = some (.global n.2.slot)) :
    due c.frame.world n.1 = d := by
  obtain rfl := hA.eq_global_of_place hφ hi hplace
  obtain rfl := hnotes.stored n hn value hi
  have hreg : c.frame.regs n.1 = some d := hd
  rw [due, ← h.regs n hn, hreg]
  rfl

/-- A step keeps the accounts. -/
theorem Accounts.next (h : Accounts notes c) (hnotes : Notebook main notes) (hf : main.Linear)
    (hA : A.Keeps naming main) (hprivate : ∀ n ∈ notes, ¬ S.elsewhere n.2.slot)
    (hbegin : φ₀.Begins main) (hc : Arises S main φ₀ c) (hnext : Next S main c c') :
    Accounts notes c' := by
  cases hnext with
  | br φ rest hb =>
    exact ⟨h.regs, fun n hn => .inl ((h.slots n hn).resolve_right (by simp))⟩
  | condBr φ rest word hb =>
    exact ⟨h.regs, fun n hn => .inl ((h.slots n hn).resolve_right (by simp))⟩
  | @exec φ φ' i label rest hdoes =>
    have hi := Arises.mem hc
    refine ⟨fun n hn => ?_, fun n hn => ?_⟩
    · by_cases hdst : i.dst? = some n.1
      · obtain ⟨callee, args, -, rfl⟩ := hnotes.exists_call hf hn hi hdst
        cases hdoes with
        | compute h => simp [Instr.isComputation] at h
        | call => simp [lastCalled, Frame.note, Frame.set]
      · show φ'.regs n.1 = lastCalled φ'.world n.1
        rw [hdoes.regs hdst, hdoes.lastCalled hdst]
        exact h.regs n hn
    · by_cases hdst : i.dst? = some n.1
      · -- The address is stored next.
        obtain ⟨callee, args, howner, rfl⟩ := hnotes.exists_call hf hn hi hdst
        obtain ⟨b, hb, -, before, hinstrs⟩ := hc.inside.resolve_left (by simp)
        obtain ⟨e, he, -, hstore⟩ := hnotes.noted b hb before _ _ _ _ _ hinstrs howner
        obtain rfl : e = n.2 := congrArg Prod.snd (hnotes.eq_of_fst he hn rfl)
        exact .inr hstore
      · -- What is due stays the same, and so does the global unless it is stored there.
        have hdue : due φ'.world n.1 = due φ.world n.1 := by
          rw [due, due, hdoes.lastCalled hdst]
        have hkept : (Address.global n.2.slot).IsKept S := .inr ⟨_, rfl, hprivate n hn⟩
        have hold : (∀ value ptr, i ≠ .store value ptr) →
            φ.memory (.global n.2.slot) = some (due φ.world n.1) := fun hne =>
          (h.slots n hn).resolve_right fun heq => hne _ _ (Option.some.inj heq)
        refine .inl ?_
        show φ'.memory (.global n.2.slot) = some (due φ'.world n.1)
        rw [hdue]
        cases hdoes with
        | alloca dst ty =>
          rw [← hold (by simp)]
          exact Frame.memory_write_of_ne (by simp)
        | load | loadAny => exact hold (by simp)
        | compute hcomputation =>
          exact hold fun _ _ heq => by simp [heq, Instr.isComputation] at hcomputation
        | callVoid _ _ _ spares => exact (spares.memory_eq hkept).trans (hold (by simp))
        | call _ _ _ _ spares => exact (spares.memory_eq hkept).trans (hold (by simp))
        | @store value ptr place d datum hplace =>
          by_cases heq : place = .global n.2.slot
          · subst heq
            rw [h.store hnotes hA (Arises.derived hf hbegin hc) hn hi datum hplace]
            exact Frame.memory_write
          · have hmemory : φ.memory (.global n.2.slot) = some (due φ.world n.1) := by
              refine (h.slots n hn).resolve_right fun hhead => heq ?_
              obtain ⟨-, rfl⟩ := Instr.store.inj (Option.some.inj hhead)
              exact (Func.Home.global _).place (Arises.derived hf hbegin hc) hplace
            rw [← hmemory]
            exact Frame.memory_write_of_ne (Ne.symm heq)

/-- The accounts are in order all through a run. -/
theorem Accounts.arises (hnotes : Notebook main notes) (hf : main.Linear)
    (hA : A.Keeps naming main) (hprivate : ∀ n ∈ notes, ¬ S.elsewhere n.2.slot)
    (hbegin : φ₀.Begins main) (hnull : ∀ n ∈ notes, φ₀.memory (.global n.2.slot) = some noRecord)
    (hc : Arises S main φ₀ c) : Accounts notes c := by
  induction hc with
  | refl =>
    refine ⟨fun n hn => ?_, fun n hn => .inl ?_⟩
    · obtain ⟨callee, args, -, hcall⟩ := hnotes.called n hn
      rw [Func.frame_start, hbegin.params n.1 (hf.params _ hcall n.1 rfl), hbegin.past]
      rfl
    · rw [Func.frame_start, hnull n hn, hbegin.past]
      rfl
  | tail hpath hstep ih => exact ih.next hnotes hf hA hprivate hbegin hpath hstep

/-! ## The end of a run -/

theorem frees_does {φ φ' : Frame Past} {i : Instr} (h : Does S φ i φ') (hi : i.releases = false) :
    frees φ'.world = frees φ.world := by
  cases h with
  | alloca | compute | load | loadAny | store => rfl
  | @callVoid args xs memory ret callee | @call args xs d memory dst ret callee =>
    have hcallee : callee ∉ Catalog.releasing := by
      simpa [Instr.releases, Instr.callee?] using hi
    cases xs <;> simp [frees, Frame.note, Frame.set, hcallee]

theorem paid_congr {past past' : Past} (h : ∀ r, lastCalled past' r = lastCalled past r)
    (notes : List (Reg × Cleanup)) : paid past' notes = paid past notes := by
  simp [paid, due, h]

/-- In the last block, what has been read is freed. -/
theorem Exiting.does {φ φ' : Frame Past} {i : Instr} {code rest : List Instr} {label : String}
    (h : Exiting notes φ code) (hcode : code = i :: rest)
    (haccounts : Accounts notes ⟨label, code, φ⟩)
    (hreleasing : ∀ n ∈ notes, n.2.destroy ∈ Catalog.releasing) (hdoes : Does S φ i φ') :
    Exiting notes φ' rest := by
  cases h with
  | @load paidFor left r split freed =>
    cases left with
    | nil =>
      obtain ⟨rfl, rfl⟩ := List.cons.inj hcode
      cases hdoes with
      | compute h => simp [Instr.isComputation] at h
    | cons n left =>
      obtain ⟨rfl, rfl⟩ := List.cons.inj hcode
      have hn : n ∈ notes := by simp [split]
      have hslot : φ.memory (.global n.2.slot) = some (due φ.world n.1) :=
        (haccounts.slots n hn).resolve_right (by simp [freeing])
      have hplace : ∀ {p}, φ.place (.global n.2.slot) = some p → p = .global n.2.slot := fun h =>
        (Option.some.inj h).symm
      cases hdoes with
      | compute h => simp [Instr.isComputation] at h
      | loadAny _ _ place empty =>
        rw [hplace place, hslot] at empty
        simp at empty
      | load _ _ place content =>
        rw [hplace place, hslot] at content
        obtain rfl := Option.some.inj content
        exact .free split (freed.trans (paid_congr (fun _ => rfl) _).symm) Frame.regs_set
  | @free paidFor left n r split freed loaded =>
    obtain ⟨rfl, rfl⟩ := List.cons.inj hcode
    have hn : n.2.destroy ∈ Catalog.releasing := hreleasing n (by simp [split])
    cases hdoes with
    | compute h => simp [Instr.isComputation] at h
    | @callVoid _ xs _ _ _ data =>
      obtain rfl : [due φ.world n.1] = xs := by
        have heval : φ.eval (.reg r .ptr) = some (due φ.world n.1) := loaded
        simpa [heval] using data
      refine .load (paidFor ++ [n]) left (r + 1) (by simp [split]) ?_
      have hfreed : frees (.called none n.2.destroy [due φ.world n.1] none :: φ.world) =
          (n.2.destroy, due φ.world n.1) :: frees φ.world := by
        simp [frees, hn]
      refine hfreed.trans (Eq.trans (b := paid φ.world (paidFor ++ [n])) ?_
        (paid_congr (fun _ => rfl) _).symm)
      rw [freed]
      simp [paid]

/-- A step keeps to what is freed. -/
theorem Settles.next (h : Settles notes c) (hmain : main ∈ a.functions)
    (hfrees : FreesAll a main cleanup) (hcleanup : notes.map (·.2) = cleanup)
    (haccounts : Accounts notes c) (hc : Arises S main φ₀ c) (hnext : Next S main c c') :
    Settles notes c' := by
  have hreleasing : ∀ n ∈ notes, n.2.destroy ∈ Catalog.releasing := fun n hn =>
    hfrees.releasing n.2 (hcleanup ▸ mem_map.mpr ⟨n, hn, rfl⟩)
  -- The last block does not go anywhere.
  have hends : ∀ {φ : Frame Past} {i rest}, Exiting notes φ (i :: rest) → i.successors = [] := by
    intro φ i rest hexiting
    generalize hcode : i :: rest = code at hexiting
    cases hexiting with
    | @load paidFor left r => cases left <;> obtain ⟨rfl, rfl⟩ := List.cons.inj hcode <;> rfl
    | free =>
      obtain ⟨rfl, rfl⟩ := List.cons.inj hcode
      rfl
  have hjump : ∀ {target b}, main.block? target = some b → c.label ≠ exitLabel →
      Settles notes ⟨target, b.instrs, c.frame⟩ := by
    intro target b hb hlabel
    refine ⟨fun _ => h.before hlabel, fun htarget => ?_⟩
    obtain ⟨r, hexit⟩ := hfrees.exit
    obtain rfl : target = exitLabel := htarget
    obtain rfl := Option.some.inj (hb.symm.trans hexit)
    have hload : Exiting notes c.frame (freeing r (notes.map (·.2)) ++ [.ret (some (.int .i32 0))]) :=
      .load [] notes r rfl (h.before hlabel)
    rwa [hcleanup] at hload
  cases hnext with
  | br φ rest hb =>
    exact hjump hb fun hlabel => by simpa [Instr.successors] using hends (h.after hlabel)
  | condBr φ rest word hb =>
    exact hjump hb fun hlabel => by simpa [Instr.successors] using hends (h.after hlabel)
  | @exec φ φ' i label rest hdoes =>
    refine ⟨fun hlabel => ?_, fun hlabel => (h.after hlabel).does rfl haccounts hreleasing hdoes⟩
    obtain ⟨b, hb, rfl, before, hinstrs⟩ := hc.inside.resolve_left (by simp)
    have hquiet := (hfrees.quiet hmain hb hlabel (i := i) (by simp [hinstrs])).1
    exact (frees_does hdoes hquiet).trans (h.before hlabel)

theorem FreesAll.frees_eq (hfrees : FreesAll a main cleanup) (hmain : main ∈ a.functions)
    (hfirst : main.labels.head? = some "entry") (hcleanup : notes.map (·.2) = cleanup)
    (hbegin : φ₀.Begins main) (haccounts : ∀ c, Arises S main φ₀ c → Accounts notes c)
    {label : String} {value : Option Value} {rest : List Instr} {φ : Frame Past}
    (hc : Arises S main φ₀ ⟨label, .ret value :: rest, φ⟩) : frees φ.world = paid φ.world notes := by
  have hsettles : ∀ c, Arises S main φ₀ c → Settles notes c := by
    intro c hc
    induction hc with
    | refl =>
      have hlabel : (main.start φ₀).label = "entry" := by
        unfold Func.start
        unfold Func.labels at hfirst
        split <;> simp_all
      refine ⟨fun _ => by rw [Func.frame_start, hbegin.past]; rfl, fun hexit => ?_⟩
      rw [hlabel] at hexit
      exact absurd hexit (by decide)
    | tail hpath hstep ih => exact ih.next hmain hfrees hcleanup (haccounts _ hpath) hpath hstep
  obtain ⟨b, hb, hlabel, before, hinstrs⟩ := hc.inside.resolve_left (by simp)
  have hexit : label = exitLabel := by
    by_contra hne
    have hreturn := (hfrees.quiet hmain hb (hlabel ▸ hne) (i := .ret value) (by simp [hinstrs])).2
    simp [Instr.isReturn] at hreturn
  have hexiting := (hsettles _ hc).after hexit
  generalize hcode : Point.code _ = code at hexiting
  cases hexiting with
  | free => simp at hcode
  | @load paidFor left r split freed =>
    cases left with
    | nil => simpa [split] using freed
    | cons n left => simp [freeing] at hcode

/-! ## Fresh addresses -/

theorem notMem_allocated {later earlier : Past} {dst : Option Reg} {callee : String}
    {xs : List Datum} {d : Datum} (howner : callee ∈ Catalog.owners.map (·.1))
    (hfresh : (allocated (later ++ .called dst callee xs (some d) :: earlier)).Nodup) :
    d ∉ allocated later ∧ d ∉ allocated earlier := by
  have hsplit : allocated (later ++ .called dst callee xs (some d) :: earlier) =
      allocated later ++ d :: allocated earlier := by
    simp only [allocated, filterMap_append, filterMap_cons, if_pos howner]
  rw [hsplit, nodup_append, nodup_cons] at hfresh
  exact ⟨fun hd => hfresh.2.2 d hd d mem_cons_self rfl, hfresh.2.1.1⟩

theorem mem_allocated {past : Past} {dst : Option Reg} {callee : String} {xs : List Datum} {d : Datum}
    (howner : callee ∈ Catalog.owners.map (·.1)) (h : .called dst callee xs (some d) ∈ past) :
    d ∈ allocated past :=
  mem_filterMap.mpr ⟨_, h, if_pos howner⟩

theorem Notebook.mem_allocated_of_lastCalled (hnotes : Notebook main notes) (hf : main.Linear)
    (hbegin : φ₀.Begins main) (hc : Arises S main φ₀ c) {n : Reg × Cleanup} (hn : n ∈ notes)
    {past : Past} (hpast : past ⊆ c.frame.world) {d : Datum} (h : lastCalled past n.1 = some d) :
    ∃ callee xs, callee ∈ Catalog.owners.map (·.1) ∧
      .called (some n.1) callee xs (some d) ∈ past := by
  obtain ⟨callee, xs, hcalled⟩ := mem_of_lastCalled h
  obtain ⟨ret, args, hi⟩ := hc.mem_of_called hbegin (hpast hcalled)
  obtain ⟨callee', args', howner, heq⟩ := hnotes.exists_call hf hn hi rfl
  obtain ⟨-, -, rfl, -⟩ := Instr.call.inj heq
  exact ⟨callee, xs, howner, hcalled⟩

/-- Where addresses are fresh, what is freed in the end is what each call returned last. -/
theorem Notebook.freesLatest (hnotes : Notebook main notes) (hf : main.Linear)
    (hbegin : φ₀.Begins main) (hc : Arises S main φ₀ c)
    (hfreed : frees c.frame.world = paid c.frame.world notes)
    (hfresh : (allocated c.frame.world).Nodup) (hnull : noRecord ∉ allocated c.frame.world) :
    FreesLatest c.frame.world := by
  intro later r callee xs d earlier destroy hpast hpair
  have howner : callee ∈ Catalog.owners.map (·.1) := mem_map.mpr ⟨_, hpair, rfl⟩
  have hcalled : .called (some r) callee xs (some d) ∈ c.frame.world := by simp [hpast]
  have hd : d ≠ noRecord := fun heq => hnull (heq ▸ mem_allocated howner hcalled)
  obtain ⟨hlater, hearlier⟩ := notMem_allocated howner (hpast ▸ hfresh)
  obtain ⟨ret, args, hi⟩ := hc.mem_of_called hbegin hcalled
  obtain ⟨b, hb, hib⟩ := mem_flatMap.mp hi
  obtain ⟨before, rest, hinstrs⟩ := append_of_mem hib
  obtain ⟨e, he, hpair', -⟩ := hnotes.noted b hb before r ret callee args rest hinstrs howner
  obtain rfl : destroy = e.destroy := by
    have hone : ∀ p ∈ Catalog.owners, ∀ q ∈ Catalog.owners, p.1 = q.1 → p.2 = q.2 := by decide
    exact hone _ hpair _ hpair' rfl
  -- Only the call itself is due this address, if it was not made again.
  have hdue : ∀ n ∈ notes, due c.frame.world n.1 = d ↔ n = (r, e) ∧ lastCalled later r = none := by
    intro n hn
    constructor
    · intro h
      cases hlast : lastCalled c.frame.world n.1 with
      | none =>
        rw [due, hlast] at h
        exact absurd h.symm hd
      | some d' =>
        obtain rfl : d' = d := by simpa [due, hlast] using h
        obtain ⟨callee', xs', howner', hcalled'⟩ :=
          hnotes.mem_allocated_of_lastCalled hf hbegin hc hn (List.Subset.refl _) hlast
        have hr : n.1 = r := by
          rw [hpast, mem_append, mem_cons] at hcalled'
          rcases hcalled' with h | h | h
          · exact absurd (mem_allocated howner' h) hlater
          · exact Option.some.inj (Event.called.inj h).1
          · exact absurd (mem_allocated howner' h) hearlier
        obtain rfl := hnotes.eq_of_fst hn he hr
        refine ⟨rfl, Option.eq_none_iff_forall_ne_some.mpr fun d'' hsome => hlater ?_⟩
        obtain ⟨callee'', xs'', howner'', hcalled''⟩ :=
          hnotes.mem_allocated_of_lastCalled hf hbegin hc hn (by simp [hpast]) hsome
        rw [hpast, lastCalled_append, hsome] at hlast
        obtain rfl : d'' = d' := by simpa using hlast
        exact mem_allocated howner'' hcalled''
    · rintro ⟨rfl, hnone⟩
      rw [due, hpast, lastCalled_append, hnone]
      simp [lastCalled]
  have hfilter : notes.filter (fun n => due c.frame.world n.1 = d) =
      notes.filter fun n => n = (r, e) ∧ lastCalled later r = none :=
    filter_congr fun n hn => decide_eq_decide.mpr (hdue n hn)
  have hmap : (paid c.frame.world notes).filter (·.2 = d) =
      ((notes.filter fun n => due c.frame.world n.1 = d).map fun n =>
        (n.2.destroy, due c.frame.world n.1)).reverse := by
    rw [paid, filter_reverse, filter_map]
    rfl
  rw [hfreed, hmap, hfilter]
  cases hlast : lastCalled later r with
  | some d' => simp
  | none =>
    have hone : notes.filter (fun n => decide (n = (r, e))) = [(r, e)] := by
      rw [filter_eq, count_eq_one_of_mem (hnotes.registers.of_map _) he]
      rfl
    simp [hone, (hdue _ he).mpr ⟨rfl, hlast⟩]

end

/-- When a program returns, the last address that a call for memory returned has been freed, once and
by the function that belongs to the call, and the addresses that it returned before have not. This
holds whichever branches were taken and however often loops were run, as long as each address is
fresh and the globals of the program are its own and null at first. -/
theorem generate_freesLatest {target : Target} {naming : Naming} {observed : List String}
    {statements : List Node} {u : Generated} (hmode : naming.mode = .program)
    (hnames : ∀ name ∈ Node.namesAll statements, Dotless name)
    (hu : generate target naming observed statements = .ok u) :
    ∃ main, u.assembly.function? "main" = some main ∧
      ∀ (S : Surroundings) (φ₀ : Frame Past),
        (∀ g ∈ u.assembly.globals, g.visibility = .hidden → ¬ S.elsewhere g.name) →
        (∀ g ∈ u.assembly.globals, g.init = some .null →
          φ₀.memory (.global g.name) = some noRecord) →
        φ₀.Begins main →
        ∀ label value rest φ, Arises S main φ₀ ⟨label, .ret value :: rest, φ⟩ →
          (allocated φ.world).Nodup → noRecord ∉ allocated φ.world → FreesLatest φ.world := by
  obtain ⟨main, others, hfunctions, hname, hfrees⟩ := generate_main hmode hnames hu
  have hmain : main ∈ u.assembly.functions := by simp [hfunctions]
  have hf := generate_linear hu main hmain
  obtain ⟨s, done, hentry, hfunctions', -⟩ := generate_done rfl hu
  obtain ⟨A, -, hkeeps, -⟩ := entryFunction_spec hentry
  obtain rfl : main = s.builder.func := (List.cons.inj (hfunctions.symm.trans hfunctions')).1
  obtain ⟨start, g, t, hcompletes, hfunc, -⟩ := (Stage.generate_functions hu).2 _ hmain
  obtain ⟨notes, hcleanup, hnotes⟩ := hfrees.exists_notebook hmain hf.distinct
  refine ⟨s.builder.func, by simp [Assembly.function?, hfunctions, hname], ?_⟩
  intro S φ₀ hprivate hinit hbegin label value rest φ hc hfresh hnull
  have hglobal : ∀ n ∈ notes, ⟨n.2.slot, .ptr, .hidden, some .null, false⟩ ∈ u.assembly.globals := by
    intro n hn
    have hmem := hfrees.globals n.2 (hcleanup ▸ mem_map.mpr ⟨n, hn, rfl⟩)
    exact (mem_filter.mp (hmem ▸ mem_singleton_self _)).1
  have haccounts : ∀ c, Arises S s.builder.func φ₀ c → Accounts notes c := fun c =>
    Accounts.arises hnotes hf hkeeps (fun n hn => hprivate _ (hglobal n hn) rfl) hbegin
      fun n hn => hinit _ (hglobal n hn) rfl
  exact hnotes.freesLatest hf hbegin hc
    (hfrees.frees_eq hmain (hfunc ▸ hcompletes.wellFormed.first) hcleanup hbegin haccounts hc)
    hfresh hnull

/-! ## Runs -/

/-- The function returns next, having freed and reserved memory as given. -/
def returnsHaving (freed : List (String × Datum)) (reserved : List Datum) (t : Machine.Traced Nat) :
    Bool :=
  match t.config.code with
  | .ret _ :: _ => frees t.past = freed && allocated t.past = reserved
  | _ => false

theorem exists_arises_ret {n : Nat} {freed : List (String × Datum)} {reserved : List Datum}
    {φ : Frame Nat} {f : Func} (h : runsTo n φ (returnsHaving freed reserved) f = true) :
    ∃ label value rest φ',
      Arises Machine.alone f (Machine.withPast φ []) ⟨label, .ret value :: rest, φ'⟩ ∧
      frees φ'.world = freed ∧ allocated φ'.world = reserved := by
  obtain ⟨⟨label, ⟨code, φ'⟩, past⟩, harises, ht⟩ := exists_arises h
  unfold returnsHaving at ht
  split at ht
  case h_2 => simp at ht
  case h_1 value rest hcode =>
    obtain rfl : code = _ := hcode
    simp only [Bool.and_eq_true, decide_eq_true_eq] at ht
    exact ⟨label, value, rest, _, harises, ht⟩

/-- A program that counts in a loop and makes a text in each turn, with a variable whose history is
kept. -/
def literalInLoop : List Node :=
  [.assignment "x" (.literal (.number .one)), .assignment "n" (.literal (.number .zero)),
    .loop (.binary "<" (.identifier "n") (.literal (.number ⟨2⟩)))
      [.assignment "s" (.literal (.text "on")), .assignment "x" (.identifier "n"),
        .assignment "n" (.binary "+" (.identifier "n") (.literal (.number ⟨1⟩)))]]

theorem exists_run_literalInLoop :
    ∃ u main, generate (.resolve none) { mode := .program } ["x"] literalInLoop = .ok u ∧
      u.assembly.function? "main" = some main ∧
      ∃ label value rest φ,
        Arises Machine.alone main (Machine.withPast (beginning [] noRecord) [])
          ⟨label, .ret value :: rest, φ⟩ ∧
        frees φ.world = [(Catalog.stringDestroy, .address (.heap 3)),
          (Catalog.boxDestroy, .address (.heap 0))] ∧
        allocated φ.world = [.address (.heap 3), .address (.heap 1), .address (.heap 0)] := by
  obtain ⟨u, hu, hrun⟩ := exists_generate (.resolve none) { mode := .program } ["x"] literalInLoop
    (fun u => (u.assembly.function? "main").any (runsTo 40 (beginning [] noRecord) (returnsHaving
      [(Catalog.stringDestroy, .address (.heap 3)), (Catalog.boxDestroy, .address (.heap 0))]
      [.address (.heap 3), .address (.heap 1), .address (.heap 0)]))) (by decide +kernel)
  obtain ⟨main, hmain, hrun⟩ := (Option.any_eq_true _ _).mp hrun
  exact ⟨u, main, hu, hmain, exists_arises_ret hrun⟩

/-- The text that is freed is the one that the loop made last. -/
theorem freesLatest_literalInLoop :
    ∃ u main, generate (.resolve none) { mode := .program } ["x"] literalInLoop = .ok u ∧
      (∀ name ∈ Node.namesAll literalInLoop, Dotless name) ∧
      u.assembly.function? "main" = some main ∧
      (Machine.withPast (beginning [] noRecord) []).Begins main ∧
      ∃ label value rest φ,
        Arises Machine.alone main (Machine.withPast (beginning [] noRecord) [])
          ⟨label, .ret value :: rest, φ⟩ ∧
        frees φ.world = [(Catalog.stringDestroy, .address (.heap 3)),
          (Catalog.boxDestroy, .address (.heap 0))] ∧
        (allocated φ.world).Nodup ∧ noRecord ∉ allocated φ.world ∧ FreesLatest φ.world := by
  obtain ⟨u, main, hu, hmain, label, value, rest, φ, harises, hfrees, hallocated⟩ :=
    exists_run_literalInLoop
  have hnames : ∀ name ∈ Node.namesAll literalInLoop, Dotless name := by
    unfold Dotless
    decide
  have hbegin : (Machine.withPast (beginning [] noRecord) []).Begins main :=
    begins_beginning (List.nil_subset _) (by simp)
  have hfresh : (allocated φ.world).Nodup := by
    rw [hallocated]
    decide
  have hnull : noRecord ∉ allocated φ.world := by
    rw [hallocated]
    decide
  obtain ⟨main', hmain', hlatest⟩ := generate_freesLatest rfl hnames hu
  obtain rfl := Option.some.inj (hmain.symm.trans hmain')
  exact ⟨u, main, hu, hnames, hmain, hbegin, label, value, rest, φ, harises, hfrees, hfresh, hnull,
    hlatest Machine.alone _ (fun _ _ _ => id) (fun _ _ _ => rfl) hbegin label value rest φ harises
      hfresh hnull⟩

/-- The text that the loop made first is never freed. -/
theorem leaks_literalInLoop :
    ∃ u main, generate (.resolve none) { mode := .program } ["x"] literalInLoop = .ok u ∧
      u.assembly.function? "main" = some main ∧
      ∃ label value rest φ,
        Arises Machine.alone main (Machine.withPast (beginning [] noRecord) [])
          ⟨label, .ret value :: rest, φ⟩ ∧
        (allocated φ.world).Nodup ∧ noRecord ∉ allocated φ.world ∧
        .address (.heap 1) ∈ allocated φ.world ∧
        ∀ destroy, (destroy, .address (.heap 1)) ∉ frees φ.world := by
  obtain ⟨u, main, hu, hmain, label, value, rest, φ, harises, hfrees, hallocated⟩ :=
    exists_run_literalInLoop
  refine ⟨u, main, hu, hmain, label, value, rest, φ, harises, ?_⟩
  rw [hfrees, hallocated]
  exact ⟨by decide, by decide, by decide, fun destroy => by simp⟩

end Lowering

end ScriptCompiler
