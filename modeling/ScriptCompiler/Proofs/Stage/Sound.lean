import Mathlib.Data.List.Basic
import Mathlib.Tactic.Tauto
import ScriptCompiler.Proofs.Stage.Basic

/-!
# Soundness of stages

A stage is *sound* when its layout is that of the function under construction, its current block is
open, its labels are told apart, and what it knows of registers, conversions and variables can be
relied on. Every step keeps a stage sound (`Step.sound`), and every move keeps what is known of
values (`Move.grows`): a value that can be read now can be read later in the same block.
-/

namespace ScriptCompiler.Lowering

open Ir List

/-- The result type of the function that is being lowered. -/
def resultType (ctx : Context) (s : State) : Ty :=
  match s.scope with
  | .function => .i64
  | .topLevel => if ctx.naming.isLibrary then .void else .i32

namespace Stage

variable {ctx : Context} {P : Lexicon} {g : Stage} {i : Instr} {v : Value}

/-! ## Layout -/

theorem modify_last {α : Type} (l : List α) (a : α) (f : α → α) :
    (l ++ [a]).modify l.length f = l ++ [f a] := by
  induction l with
  | nil => simp
  | cons b l ih => simp [ih]

theorem withHead_push (head : List Instr) (done : List Block) (label : String)
    (instrs : List Instr) (i : Instr) :
    (withHead head (done ++ [⟨label, instrs⟩])).modify done.length (·.push i) =
      withHead head (done ++ [⟨label, instrs ++ [i]⟩]) := by
  cases done with
  | nil => simp [withHead, Block.push]
  | cons b rest => simp [withHead, modify_last, Block.push]

theorem withHead_pushEntry (head : List Instr) (blocks : List Block) (i : Instr) :
    (withHead head blocks).modify 0
        (fun b => { b with instrs := b.instrs.insertIdx head.length i }) =
      withHead (head ++ [i]) blocks := by
  have hins : ∀ rest : List Instr, (head ++ rest).insertIdx head.length i = head ++ i :: rest := by
    intro rest
    induction head with
    | nil => simp
    | cons j head ih => simp [ih]
  cases blocks with
  | nil => simp [withHead]
  | cons b rest => simp [withHead, hins]

theorem withHead_append (head : List Instr) (done : List Block) (b b' : Block) :
    withHead head (done ++ [b]) ++ [b'] = withHead head (done ++ [b] ++ [b']) := by
  cases done with
  | nil => simp [withHead]
  | cons d rest => simp [withHead]

/-! ## What a move keeps -/

/-- From `g` to `g'` slots, globals and functions of the unit were added, and the function under
construction is the same. Every step is of this kind, whatever block it leads to. -/
structure Persists (g g' : Stage) : Prop where
  head : g.head <+: g'.head
  name : g'.func.name = g.func.name
  params : g'.func.params = g.func.params
  ret : g'.func.ret = g.func.ret
  mode : g'.state.scope = g.state.scope
  globals : g.globals ⊆ g'.globals
  functions : g'.state.assembly.functions = g.state.assembly.functions
  uses : g.state.externals.functions ⊆ g'.state.externals.functions
  routines : g.state.functions ⊆ g'.state.functions
  cleanup : g.state.cleanup <+: g'.state.cleanup
  next : g.next ≤ g'.next

/-- One stage comes before another in the same block. -/
structure Grows (g g' : Stage) : Prop extends Persists g g' where
  instrs : g.instrs <+: g'.instrs
  done : g'.done = g.done
  label : g'.label = g.label
  reserved : g'.reserved = g.reserved
  live : g'.live = g.live
  targets : g'.targets = g.targets
  loopEnds : g'.state.loopEnds = g.state.loopEnds
  labels : g'.state.labels = g.state.labels

theorem Persists.refl (g : Stage) : Persists g g :=
  ⟨prefix_rfl, rfl, rfl, rfl, rfl, List.Subset.refl _, rfl, List.Subset.refl _,
    List.Subset.refl _, prefix_rfl, Nat.le_refl _⟩

theorem Persists.trans {g g' g'' : Stage} (h : Persists g g') (h' : Persists g' g'') :
    Persists g g'' where
  head := h.head.trans h'.head
  name := h'.name.trans h.name
  params := h'.params.trans h.params
  ret := h'.ret.trans h.ret
  mode := h'.mode.trans h.mode
  globals := List.Subset.trans h.globals h'.globals
  functions := h'.functions.trans h.functions
  uses := List.Subset.trans h.uses h'.uses
  routines := List.Subset.trans h.routines h'.routines
  cleanup := h.cleanup.trans h'.cleanup
  next := Nat.le_trans h.next h'.next

theorem typing_append (a b : List Instr) : typing (a ++ b) = typing a ++ typing b := by
  simp [typing]

theorem typing_subset {a b : List Instr} (h : a <+: b) : typing a ⊆ typing b := by
  obtain ⟨c, rfl⟩ := h
  rw [typing_append]
  exact subset_append_left _ _

theorem mem_scope {p : Reg × Ty} :
    p ∈ g.scope ↔ p ∈ g.frame ∨ p ∈ g.live g.label ∨ p ∈ typing g.instrs := by
  simp [scope]

theorem mem_frame {p : Reg × Ty} : p ∈ g.frame ↔ p ∈ g.func.params ∨ p ∈ typing g.head := by
  simp [frame]

namespace Grows

variable {g g' g'' : Stage}

theorem refl (g : Stage) : Grows g g :=
  ⟨Persists.refl g, prefix_rfl, rfl, rfl, rfl, rfl, rfl, rfl, rfl⟩

theorem trans (h : Grows g g') (h' : Grows g' g'') : Grows g g'' where
  toPersists := h.toPersists.trans h'.toPersists
  instrs := h.instrs.trans h'.instrs
  done := h'.done.trans h.done
  label := h'.label.trans h.label
  reserved := h'.reserved.trans h.reserved
  live := h'.live.trans h.live
  targets := h'.targets.trans h.targets
  loopEnds := h'.loopEnds.trans h.loopEnds
  labels := h'.labels.trans h.labels

theorem frame (h : Grows g g') : g.frame ⊆ g'.frame := by
  intro p hp
  rw [mem_frame] at hp ⊢
  rw [h.params]
  exact hp.imp id fun hh => typing_subset h.head hh

theorem scope (h : Grows g g') : g.scope ⊆ g'.scope := by
  intro p hp
  rw [mem_scope] at hp ⊢
  rw [h.live, h.label]
  exact hp.imp (h.frame ·) (Or.imp id (typing_subset h.instrs ·))

theorem sane (h : g.globals ⊆ g'.globals) (hv : v.Sane g.globals) : v.Sane g'.globals := by
  unfold Value.Sane at hv ⊢
  split at hv
  all_goals simp_all
  obtain ⟨-, d, hd, hname⟩ := hv
  exact ⟨d, h hd, hname⟩

theorem has (h : Grows g g') (hv : g.Has v) : g'.Has v :=
  ⟨fun r hr => h.scope (hv.1 r hr), sane h.globals hv.2⟩

theorem holds (h : Grows g g') {v : Typed} (hv : g.Holds P v) : g'.Holds P v :=
  { hv with has := h.has hv.has }

end Grows

theorem isVariable_mono {P : String → Prop} {n : Naming} {globals globals' : List Global}
    {symbol : String} {ty : Ty} (h : IsVariable P n globals symbol ty) (hg : globals ⊆ globals') :
    IsVariable P n globals' symbol ty := by
  cases h with
  | own name hn mem => exact .own name hn (mem.imp fun d hd => ⟨hg hd.1, hd.2⟩)
  | exported name hp hn mem => exact .exported name hp hn (map_subset _ hg mem)

theorem Cell.mono {g' : Stage} {ty : Ty} (h : g.Cell ctx P v ty) (head : g.head ⊆ g'.head)
    (globals : g.globals ⊆ g'.globals) : g'.Cell ctx P v ty := by
  obtain ⟨hty, h⟩ := h
  refine ⟨hty, ?_⟩
  split at h
  · exact head h
  · exact isVariable_mono h globals
  · exact h

theorem isVariable_mem {P : String → Prop} {n : Naming} {globals : List Global} {symbol : String}
    {ty : Ty} (h : IsVariable P n globals symbol ty) : symbol ∈ globals.map (·.name) := by
  cases h with
  | own name h mem =>
    obtain ⟨d, hd, hname, -⟩ := mem
    exact mem_map.mpr ⟨d, hd, hname⟩
  | exported name hp h mem => exact mem

/-- The address of a variable can be read. -/
theorem Cell.has {ty : Ty} (h : g.Cell ctx P v ty) : g.Has v := by
  obtain ⟨hty, h⟩ := h
  split at h
  · rename_i r hr
    refine ⟨fun r' hr' => ?_, by simp [Value.Sane, hr]⟩
    rw [hr] at hr'
    obtain rfl : r = r' := by simpa using hr'
    rw [mem_scope, mem_frame]
    refine .inl (.inr (mem_filterMap.mpr ⟨_, h, ?_⟩))
    simp [Instr.definition?, Instr.dst?, Instr.resultType?, hty]
  · rename_i name hname
    refine ⟨fun r' hr' => by simp [hname] at hr', ?_⟩
    simp only [Value.Sane, hname]
    exact ⟨hty, isVariable_mem h⟩
  · exact h.elim

theorem Outside.has {ty : Ty} (h : g.Outside v ty) : g.Has v := by
  obtain ⟨symbol, -, rfl, -, d, hd, hname, -⟩ := h
  exact ⟨fun r hr => by simp [Value.global] at hr, rfl, mem_map.mpr ⟨d, hd, hname⟩⟩

namespace Grows

variable {ctx : Context} {g g' : Stage}

theorem cell (h : Grows g g') {ty : Ty} (hv : g.Cell ctx P v ty) : g'.Cell ctx P v ty :=
  hv.mono h.head.subset h.globals

theorem binds (h : Grows g g') {b : Binding} (hb : g.Binds ctx P b) : g'.Binds ctx P b :=
  { hb with cell := h.cell hb.cell }

end Grows

theorem useVariable_globals {e e' : Externals} {a a' : Assembly} {symbol : String}
    (h : e.useVariable a symbol = .ok (e', a')) :
    a.globals ⊆ a'.globals ∧ e.vars ⊆ e'.vars ∧ symbol ∈ e'.vars ∧ e'.functions = e.functions ∧
      a'.functions = a.functions ∧ a'.declarations = a.declarations ∧
      ∀ x ∈ e'.vars, x ∈ e.vars ∨ (x = symbol ∧ ∃ d ∈ a'.globals, d.name = x ∧ d.ty = .i64) := by
  unfold Externals.useVariable at h
  split at h
  · rename_i hmem
    simp only [Except.ok.injEq, Prod.mk.injEq] at h
    obtain ⟨rfl, rfl⟩ := h
    exact ⟨List.Subset.refl _, List.Subset.refl _, hmem, rfl, rfl, rfl, fun x hx => .inl hx⟩
  · split at h
    · simp at h
    · simp only [Except.ok.injEq, Prod.mk.injEq] at h
      obtain ⟨rfl, rfl⟩ := h
      refine ⟨by simp [Assembly.addGlobal], by simp, by simp, rfl, rfl, rfl, fun x hx => ?_⟩
      rcases mem_append.mp hx with hx | hx
      · exact .inl hx
      · rw [mem_singleton] at hx
        exact .inr ⟨hx, by simp [Assembly.addGlobal, hx]⟩

theorem mem_of_lookup {α β : Type} [BEq α] [LawfulBEq α] {l : List (α × β)} {a : α} {b : β}
    (h : l.lookup a = some b) : (a, b) ∈ l := by
  obtain ⟨before, after, rfl, -⟩ := lookup_eq_some_iff.mp h
  simp

/-- The globals that are there when an external function is used. -/
theorem useFunction_globals {e e' : Externals} {a a' : Assembly} {symbol : String}
    {asked arity : Nat} (h : e.useFunction a symbol asked = .ok (arity, e', a')) :
    a'.globals = a.globals ∧ e'.vars = e.vars ∧ e.functions ⊆ e'.functions ∧
      (symbol, arity) ∈ e'.functions ∧ a'.functions = a.functions := by
  unfold Externals.useFunction at h
  split at h
  · rename_i declared hlook
    simp only [Except.ok.injEq, Prod.mk.injEq] at h
    obtain ⟨rfl, rfl, rfl⟩ := h
    exact ⟨rfl, rfl, List.Subset.refl _, mem_of_lookup hlook, rfl⟩
  · split at h
    · simp at h
    · simp only [Except.ok.injEq, Prod.mk.injEq] at h
      obtain ⟨rfl, rfl, rfl⟩ := h
      refine ⟨?_, rfl, by simp, by simp, ?_⟩
      · unfold Assembly.declare; split <;> rfl
      · unfold Assembly.declare; split <;> rfl

/-- Binding a variable changes the variables of the scope and nothing else. -/
theorem bind_eq (s : State) (name : String) (b : Binding) :
    ∃ locals globals, s.bind name b = { s with locals, globals } ∧
      (∀ p ∈ locals, p ∈ s.locals ∨ (p = (name, b) ∧ s.scope = .function)) ∧
      ∀ p ∈ globals, p ∈ s.globals ∨ (p = (name, b) ∧ s.scope = .topLevel) := by
  have hset (t : Table Binding) : ∀ p ∈ Table.set t name b, p ∈ t ∨ p = (name, b) := by
    intro p hp
    simp only [Table.set, mem_cons, mem_filter] at hp
    tauto
  cases hs : s.scope with
  | function =>
    refine ⟨Table.set s.locals name b, s.globals, by simp [State.bind, hs], ?_, fun p hp => .inl hp⟩
    exact fun p hp => (hset _ p hp).imp id fun h => ⟨h, rfl⟩
  | topLevel =>
    refine ⟨s.locals, Table.set s.globals name b, by simp [State.bind, hs], fun p hp => .inl hp, ?_⟩
    exact fun p hp => (hset _ p hp).imp id fun h => ⟨h, rfl⟩

theorem definition_of_dst {r : Reg} (h : i.dst? = some r) :
    i.isTerminator = false ∧ ∀ p, i.definition? = some p → p.1 = r := by
  refine ⟨?_, fun p hp => ?_⟩
  · cases i <;> simp_all [Instr.dst?, Instr.isTerminator]
  · simp only [Instr.definition?, h, Option.bind_some, Option.map_eq_some_iff] at hp
    obtain ⟨ty, -, rfl⟩ := hp
    rfl

theorem successors_of_inner (h : i.isTerminator = false) : i.successors = [] := by
  cases i <;> simp_all [Instr.isTerminator, Instr.successors]

/-- Code that stays in the current block jumps nowhere. -/
theorem targets_eq_of_inner {g' : Stage} {more : List Instr} (hdone : g'.done = g.done)
    (hinstrs : g'.instrs = g.instrs ++ more) (hinner : ∀ i ∈ more, i.isTerminator = false) :
    g'.targets = g.targets := by
  have hmore : more.flatMap (·.successors) = [] :=
    flatMap_eq_nil_iff.mpr fun i hi => successors_of_inner (hinner i hi)
  simp [Stage.targets, body, hdone, hinstrs, hmore]

/-- What was known before a move is known after it. -/
theorem Move.grows {g' : Stage} (h : Move ctx P g g') : Grows g g' := by
  have hhead (more : List Instr) : g.head <+: g.head ++ more := prefix_append _ _
  have hglobals (d : Global) : g.globals ⊆ g.globals ++ [d] := subset_append_left _ _
  have hnext : g.next ≤ g.next + 1 := Nat.le_succ _
  cases h with
  | define i dst =>
    exact { Grows.refl g with
      instrs := prefix_append _ _, next := hnext
      targets := targets_eq_of_inner rfl rfl (by simpa using (definition_of_dst dst).1) }
  | convert op v target =>
    exact { Grows.refl g with
      instrs := prefix_append _ _, next := hnext
      targets := targets_eq_of_inner rfl rfl (by simp [Instr.isTerminator]) }
  | effect i dst inner =>
    exact { Grows.refl g with
      instrs := prefix_append _ _, targets := targets_eq_of_inner rfl rfl (by simpa using inner) }
  | slot ty => exact { Grows.refl g with head := hhead _, next := hnext }
  | nullSlot => exact { Grows.refl g with head := hhead _, next := hnext }
  | allocate e =>
    exact { Grows.refl g with
      instrs := prefix_append _ _, next := hnext
      targets := targets_eq_of_inner rfl rfl (by simp [Instr.isTerminator]) }
  | reserve e destroy args =>
    exact { Grows.refl g with
      instrs := (prefix_append _ _).trans (prefix_append _ _), next := hnext
      globals := hglobals _, cleanup := prefix_append _ _
      targets := targets_eq_of_inner rfl (append_assoc _ _ _) (by simp [Instr.isTerminator]) }
  | release entry =>
    exact { Grows.refl g with
      instrs := (prefix_append _ _).trans (prefix_append _ _), next := hnext
      targets := targets_eq_of_inner rfl (append_assoc _ _ _) (by simp [Instr.isTerminator]) }
  | constant text => exact { Grows.refl g with globals := hglobals _ }
  | storage name named storage init => exact { Grows.refl g with globals := hglobals _ }
  | exported name symbol => exact { Grows.refl g with globals := hglobals _ }
  | useVariable symbol e a _ h =>
    obtain ⟨hg, -, -, hu, hf, -⟩ := useVariable_globals h
    exact { Grows.refl g with
      globals := hg, functions := hf
      uses := fun x hx => (congrArg (x ∈ ·) hu).mpr hx }
  | useFunction symbol asked arity e a named h =>
    obtain ⟨hg, -, hu, -, hf⟩ := useFunction_globals h
    exact { Grows.refl g with
      globals := fun d hd => (congrArg (d ∈ ·) hg).mpr hd
      functions := hf
      uses := hu }
  | bind name b =>
    obtain ⟨locals, globals, hs, -⟩ := bind_eq g.state name b
    rw [hs]
    exact { Grows.refl g with }
  | note s same =>
    have hb : ({ g with state := s } : Stage).func = g.func := congrArg Builder.func same.builder
    exact { Grows.refl g with
      name := by rw [hb]
      params := by rw [hb]
      ret := by rw [hb]
      mode := same.scope
      loopEnds := same.loopEnds
      labels := same.labels
      globals := fun d hd => (congrArg (fun a => d ∈ a.globals) same.assembly).mpr hd
      functions := congrArg Assembly.functions same.assembly
      uses := fun x hx => (congrArg (fun e => x ∈ e.functions) same.externals).mpr hx
      routines := same.kept.subset
      cleanup := by
        show g.state.cleanup <+: s.cleanup
        exact same.cleanup ▸ prefix_rfl
      next := Nat.le_of_eq (congrArg Builder.nextReg same.builder).symm }

theorem Moves.grows {g' : Stage} (h : Moves ctx P g g') : Grows g g' := by
  induction h with
  | refl => exact Grows.refl g
  | tail _ h ih => exact ih.trans h.grows

/-! ## Sound stages -/

/-- A conversion that is on record can be undone wherever its result is in scope. -/
structure Converted (g : Stage) (c : Reg × CastOp × Value) : Prop where
  taken : c.1 < g.next
  apart : ∀ ty, (c.1, ty) ∉ g.frame
  sane : c.2.2.Sane g.globals
  scope : ∀ ty, (c.1, ty) ∈ g.scope → c.2.2.RegIn g.scope
  live : ∀ l ∈ g.reserved, ∀ ty, (c.1, ty) ∈ g.live l → c.2.2.RegIn (g.frame ++ g.live l)

/-- The stage describes the function under construction, and what it knows can be relied on. -/
structure Sound (ctx : Context) (P : Lexicon) (g : Stage) : Prop where
  layout : g.func.blocks = withHead g.head g.body
  current : g.state.builder.current = g.done.length
  entryInsert : g.state.builder.entryInsert = g.head.length
  inner : ∀ i ∈ g.head ++ g.instrs, i.isTerminator = false
  scope_lt : ∀ p ∈ g.scope, p.1 < g.next
  live_lt : ∀ l ∈ g.reserved, ∀ p ∈ g.live l, p.1 < g.next
  casts : ∀ c ∈ g.state.builder.casts, g.Converted c
  below : ∀ l ∈ g.labels ++ g.reserved, LabelBelow g.state.labels l
  fresh : ∀ l ∈ g.reserved, l ∉ g.labels
  targets : ∀ l ∈ g.targets, l ∈ g.reserved ∨ l ∈ g.labels.tail
  loopEnds : ∀ l ∈ g.state.loopEnds, l ∈ g.reserved
  globals : ∀ p ∈ g.state.globals, p.2.isModuleLevel ∨ g.state.scope = .topLevel → g.Binds ctx P p.2
  locals : ∀ p ∈ g.state.locals, g.state.scope = .function → g.Binds ctx P p.2
  routines : ∀ r ∈ g.state.functions, Fits ctx P r
  externals : ∀ x ∈ g.state.externals.vars, ∃ d ∈ g.globals, d.name = x ∧ d.ty = .i64
  cleanup : ∀ e ∈ g.state.cleanup, e.slot ∈ g.globals.map (·.name)
  ret : g.func.ret = resultType ctx g.state
  noted : P.noted ⊆ g.state.functions
  observed : ∀ T, P.thrift = some T → ctx.observed = T.observed
  early : ∀ T, P.thrift = some T → T.functions <+: g.state.functions

theorem regIn_mono {a b : Typing} (h : a ⊆ b) (hv : v.RegIn a) : v.RegIn b :=
  fun r hr => h (hv r hr)

/-- Instructions at the end of the head or of the current block keep a stage sound: they define the
next register or none, and a conversion that is put on record is that of an instruction in the
block. -/
theorem Sound.grow (hg : g.Sound ctx P) {head more instrs code : List Instr} {b : Builder}
    (hhead : head = g.head ++ more) (hinstrs : instrs = g.instrs ++ code)
    (hblocks : b.func.blocks = withHead head (g.done ++ [⟨g.label, instrs⟩]))
    (hparams : b.func.params = g.func.params) (hret : b.func.ret = g.func.ret)
    (hcurrent : b.current = g.state.builder.current) (hinsert : b.entryInsert = head.length)
    (hinner : ∀ i ∈ more ++ code, i.isTerminator = false) (hnext : g.next ≤ b.nextReg)
    (hdef : ∀ p ∈ typing more ++ typing code, p.1 = g.next ∧ g.next < b.nextReg)
    (hcasts : ∀ c ∈ b.casts, c ∈ g.state.builder.casts ∨
      (c.1 = g.next ∧ g.next < b.nextReg ∧ g.Has c.2.2 ∧ more = [])) :
    Sound ctx P ({ g with head := head, instrs := instrs }.build b) := by
  obtain ⟨g', hg'⟩ : ∃ g' : Stage, g' = ({ g with head := head, instrs := instrs }.build b) :=
    ⟨_, rfl⟩
  have hframe : ∀ p, p ∈ g'.frame ↔ p ∈ g.frame ∨ p ∈ typing more := by
    have hparams' : g'.func.params = g.func.params := by rw [hg']; exact hparams
    intro p
    rw [mem_frame, mem_frame, hparams', hg']
    simp [build, hhead, typing_append, or_assoc]
  have hscope : ∀ p, p ∈ g'.scope ↔ p ∈ g.scope ∨ p ∈ typing more ++ typing code := by
    intro p
    rw [mem_scope, hframe, mem_scope, hg']
    simp only [build, hinstrs, typing_append, mem_append]
    tauto
  have hsub : g.scope ⊆ g'.scope := fun p hp => (hscope p).mpr (.inl hp)
  have hbinds : ∀ d, g.Binds ctx P d → g'.Binds ctx P d := by
    intro d hd
    refine ⟨hd.held, hd.cell.mono ?_ ?_, hd.costs⟩ <;> rw [hg']
    · exact hhead ▸ subset_append_left _ _
    · exact List.Subset.refl _
  have hgone : ∀ {l ty}, l ∈ g.reserved → (g.next, ty) ∉ g.live l := fun hl hty =>
    absurd (hg.live_lt _ hl _ hty) (Nat.lt_irrefl _)
  rw [← hg']
  have hn : g'.next = b.nextReg := by rw [hg']; rfl
  have hlive : g'.live = g.live ∧ g'.reserved = g.reserved ∧ g'.globals = g.globals ∧
      g'.state.builder = b := by
    rw [hg']
    exact ⟨rfl, rfl, rfl, rfl⟩
  obtain ⟨hlive, hreserved, hglobals, hbuilder⟩ := hlive
  constructor
  case layout => rw [hg']; exact hblocks
  case current => rw [hg']; exact hcurrent.trans hg.current
  case entryInsert => rw [hg']; exact hinsert
  case inner =>
    intro j hj
    rw [hg'] at hj
    simp only [build, hhead, hinstrs, mem_append] at hj
    have hold := hg.inner j
    have hnew := hinner j
    rw [mem_append] at hold hnew
    tauto
  case scope_lt =>
    intro p hp
    rw [hn]
    rcases (hscope p).mp hp with hp | hp
    · exact Nat.lt_of_lt_of_le (hg.scope_lt p hp) hnext
    · obtain ⟨hreg, hlt⟩ := hdef p hp
      exact hreg ▸ hlt
  case live_lt =>
    rw [hlive, hreserved, hn]
    exact fun l hl p hp => Nat.lt_of_lt_of_le (hg.live_lt l hl p hp) hnext
  case casts =>
    intro c hc
    rw [hbuilder] at hc
    rcases hcasts c hc with hc | ⟨hr, hlt, hv, rfl⟩
    · have hold := hg.casts c hc
      have hnot : ∀ ty, (c.1, ty) ∉ typing more ++ typing code := fun ty hty =>
        Nat.ne_of_lt hold.taken (hdef _ hty).1
      refine ⟨by rw [hn]; exact Nat.lt_of_lt_of_le hold.taken hnext, fun ty hty => ?_,
        by rw [hglobals]; exact hold.sane, fun ty hty => ?_, fun l hl ty hty => ?_⟩
      · exact ((hframe _).mp hty).elim (hold.apart ty) fun h => hnot ty (mem_append_left _ h)
      · exact regIn_mono hsub (hold.scope ty (((hscope _).mp hty).resolve_right (hnot ty)))
      · rw [hlive] at hty ⊢
        refine regIn_mono (fun p hp => ?_) (hold.live l (hreserved ▸ hl) ty hty)
        rw [mem_append] at hp ⊢
        exact hp.imp_left fun h => (hframe p).mpr (.inl h)
    · -- The new register is in no typing that is known so far.
      refine ⟨by rw [hn, hr]; exact hlt, fun ty hty => ?_, by rw [hglobals]; exact hv.2,
        fun ty _ => regIn_mono hsub hv.1, fun l hl ty hty => ?_⟩
      · have hty : (g.next, ty) ∈ g.frame := by simpa [typing, hr] using (hframe _).mp hty
        exact absurd (hg.scope_lt _ (mem_scope.mpr (.inl hty))) (by simp)
      · rw [hr, hlive] at hty
        exact absurd hty (hgone (hreserved ▸ hl))
  case below => rw [hg']; simpa [labels, body, build] using hg.below
  case fresh => rw [hg']; simpa [labels, body, build] using hg.fresh
  case targets =>
    have htargets : g'.targets = g.targets :=
      targets_eq_of_inner (by rw [hg']; rfl) (by rw [hg']; exact hinstrs)
        fun i hi => hinner i (mem_append_right _ hi)
    rw [htargets, hg']
    simpa [labels, body, build] using hg.targets
  case loopEnds => rw [hg']; exact hg.loopEnds
  case globals =>
    intro p hp hm
    rw [hg'] at hp hm
    exact hbinds _ (hg.globals p hp hm)
  case locals =>
    intro p hp hm
    rw [hg'] at hp hm
    exact hbinds _ (hg.locals p hp hm)
  case routines => rw [hg']; exact hg.routines
  case externals => rw [hg']; exact hg.externals
  case cleanup => rw [hg']; exact hg.cleanup
  case ret => rw [hg']; exact hret.trans hg.ret
  case noted => rw [hg']; exact hg.noted
  case observed => exact hg.observed
  case early => rw [hg']; exact hg.early

/-- An instruction at the end of the current block keeps a stage sound. -/
theorem Sound.push (hg : g.Sound ctx P) {b : Builder}
    (hfunc : b.func = (g.state.builder.push i).func)
    (hcurrent : b.current = g.state.builder.current)
    (hinsert : b.entryInsert = g.state.builder.entryInsert) (hinner : i.isTerminator = false)
    (hnext : g.next ≤ b.nextReg)
    (hdef : ∀ p, i.definition? = some p → p.1 = g.next ∧ g.next < b.nextReg)
    (hcasts : ∀ c ∈ b.casts, c ∈ g.state.builder.casts ∨
      (c.1 = g.next ∧ g.next < b.nextReg ∧ g.Has c.2.2)) :
    Sound ctx P ({ g with instrs := g.instrs ++ [i] }.build b) := by
  refine hg.grow (append_nil _).symm rfl ?_ (by rw [hfunc]; rfl) (by rw [hfunc]; rfl) hcurrent
    (hinsert.trans hg.entryInsert) (by simpa using hinner) hnext (fun p hp => hdef p ?_)
    fun c hc => (hcasts c hc).imp_right fun ⟨hr, hlt, hv⟩ => ⟨hr, hlt, hv, rfl⟩
  · have h := withHead_push g.head g.done g.label g.instrs i
    rw [← body, ← hg.layout, ← hg.current] at h
    rw [hfunc]
    exact h
  · simpa [typing] using hp

/-- A change of the state outside the function under construction keeps a stage sound, when globals
and external variables are only added and the new variables and functions are as they should be. -/
theorem Sound.ofState (hg : g.Sound ctx P) {s : State} (hbuilder : s.builder = g.state.builder)
    (hlabels : s.labels = g.state.labels) (hloops : s.loopEnds = g.state.loopEnds)
    (hmode : s.scope = g.state.scope) (hglobals : g.globals ⊆ s.assembly.globals)
    (hnew : ∀ x ∈ s.externals.vars, x ∈ g.state.externals.vars ∨
      ∃ d ∈ s.assembly.globals, d.name = x ∧ d.ty = .i64)
    (htop : ∀ p ∈ s.globals, p ∈ g.state.globals ∨ g.Binds ctx P p.2)
    (hlocal : ∀ p ∈ s.locals, p ∈ g.state.locals ∨ g.Binds ctx P p.2)
    (hkept : g.state.functions <+: s.functions)
    (hroutines : ∀ r ∈ s.functions, r ∈ g.state.functions ∨ Fits ctx P r)
    (hcleanup : ∀ e ∈ s.cleanup, e ∈ g.state.cleanup ∨
      e.slot ∈ s.assembly.globals.map (·.name)) : Sound ctx P { g with state := s } := by
  have hfunc : ({ g with state := s } : Stage).func = g.func := congrArg Builder.func hbuilder
  have hnext : ({ g with state := s } : Stage).next = g.next := congrArg Builder.nextReg hbuilder
  have hframe : ({ g with state := s } : Stage).frame = g.frame := by
    rw [frame, frame, hfunc]
  have hscope : ({ g with state := s } : Stage).scope = g.scope := by
    rw [scope, scope, hframe]
  have hbinds : ∀ d, g.Binds ctx P d → ({ g with state := s } : Stage).Binds ctx P d := fun d hd =>
    { hd with cell := hd.cell.mono (List.Subset.refl _) hglobals }
  constructor
  case layout => rw [hfunc]; exact hg.layout
  case current => exact (congrArg Builder.current hbuilder).trans hg.current
  case entryInsert => exact (congrArg Builder.entryInsert hbuilder).trans hg.entryInsert
  case inner => exact hg.inner
  case scope_lt => rw [hscope, hnext]; exact hg.scope_lt
  case live_lt => rw [hnext]; exact hg.live_lt
  case casts =>
    intro c hc
    have hold := hg.casts c (congrArg Builder.casts hbuilder ▸ hc)
    exact ⟨hnext ▸ hold.taken, hframe ▸ hold.apart, Grows.sane hglobals hold.sane,
      hscope ▸ hold.scope, hframe ▸ hold.live⟩
  case below =>
    show ∀ l ∈ _, LabelBelow s.labels l
    rw [hlabels]
    exact hg.below
  case fresh => exact hg.fresh
  case targets => exact hg.targets
  case loopEnds =>
    show ∀ l ∈ s.loopEnds, _
    rw [hloops]
    exact hg.loopEnds
  case globals =>
    intro p hp hm
    change _ ∨ s.scope = _ at hm
    rw [hmode] at hm
    exact (htop p hp).elim (fun h => hbinds _ (hg.globals p h hm)) (hbinds _)
  case locals =>
    intro p hp hm
    change s.scope = _ at hm
    rw [hmode] at hm
    exact (hlocal p hp).elim (fun h => hbinds _ (hg.locals p h hm)) (hbinds _)
  case routines =>
    intro r hr
    exact (hroutines r hr).elim (hg.routines r) id
  case externals =>
    intro x hx
    rcases hnew x hx with hx | hx
    · obtain ⟨d, hd, h⟩ := hg.externals x hx
      exact ⟨d, hglobals hd, h⟩
    · exact hx
  case cleanup =>
    intro e he
    exact (hcleanup e he).elim (fun h => map_subset _ hglobals (hg.cleanup e h)) id
  case ret =>
    rw [hfunc, hg.ret, resultType, resultType]
    show _ = match s.scope with | .function => _ | .topLevel => _
    rw [hmode]
  case noted => exact List.Subset.trans hg.noted hkept.subset
  case observed => exact hg.observed
  case early => exact fun T hT => (hg.early T hT).trans hkept

theorem definition_of_none (h : i.dst? = none) : i.definition? = none := by
  simp [Instr.definition?, h]

section

variable {ctx : Context} {P : Lexicon} {g g' : Stage}

theorem Sound.define (hg : g.Sound ctx P) (h : i.dst? = some g.next) :
    (g.define i).Sound ctx P := by
  obtain ⟨hinner, hdef⟩ := definition_of_dst h
  exact hg.push rfl rfl rfl hinner (Nat.le_succ _) (fun p hp => ⟨hdef p hp, Nat.lt_succ_self _⟩)
    fun c hc => .inl hc

theorem Sound.convert (hg : g.Sound ctx P) {op : CastOp} (target : Ty) (h : g.Has v) :
    (g.convert op v target).Sound ctx P := by
  refine hg.push rfl rfl rfl rfl (Nat.le_succ _) (fun p hp => ⟨?_, Nat.lt_succ_self _⟩) fun c hc => ?_
  · exact (definition_of_dst rfl).2 p hp
  · rcases mem_cons.mp hc with rfl | hc
    · exact .inr ⟨rfl, Nat.lt_succ_self _, h⟩
    · exact .inl hc

theorem Sound.effect (hg : g.Sound ctx P) (h : i.dst? = none) (hinner : i.isTerminator = false) :
    (g.effect i).Sound ctx P :=
  hg.push rfl rfl rfl hinner (Nat.le_refl _)
    (fun p hp => by rw [definition_of_none h] at hp; simp at hp) fun c hc => .inl hc

theorem Sound.slot (hg : g.Sound ctx P) (ty : Ty) : (g.slot ty).Sound ctx P := by
  refine hg.grow rfl (append_nil _).symm ?_ rfl rfl rfl ?_ (by simp [Instr.isTerminator])
    (Nat.le_succ _) (fun p hp => ?_) fun c hc => .inl hc
  · have h := withHead_pushEntry g.head g.body (.alloca g.next ty)
    rw [← hg.layout, ← hg.entryInsert] at h
    exact h
  · simp [Builder.pushEntry, taken, hg.entryInsert]
  · obtain rfl : p = (g.next, .ptr) := mem_singleton.mp hp
    exact ⟨rfl, Nat.lt_succ_self _⟩

theorem Sound.nullSlot (hg : g.Sound ctx P) (ty : Ty) : (g.nullSlot ty).Sound ctx P := by
  have hinsert : (g.taken.pushEntry (.alloca g.next ty)).entryInsert = (g.slot ty).head.length := by
    simp [Builder.pushEntry, taken, Stage.slot, build, hg.entryInsert]
  refine hg.grow rfl (append_nil _).symm ?_ rfl rfl rfl ?_ (by simp [Instr.isTerminator])
    (Nat.le_succ _) (fun p hp => ?_) fun c hc => .inl hc
  · have h := withHead_pushEntry (g.slot ty).head g.body (.store .null (.reg g.next .ptr))
    have hl := (hg.slot ty).layout
    change _ = withHead (g.slot ty).head g.body at hl
    rw [← hl, ← hinsert] at h
    have happ : g.head ++ [Instr.alloca g.next ty, .store .null (.reg g.next .ptr)] =
        (g.slot ty).head ++ [Instr.store .null (.reg g.next .ptr)] := by
      simp [Stage.slot, build]
    rw [happ]
    exact h
  · simp [Builder.pushEntry, taken, hg.entryInsert]
  · obtain rfl : p = (g.next, .ptr) := mem_singleton.mp hp
    exact ⟨rfl, Nat.lt_succ_self _⟩

theorem Sound.withGlobals (hg : g.Sound ctx P) {a : Assembly} (h : g.globals ⊆ a.globals)
    {strings : Nat} {cleanup : List Cleanup}
    (hcleanup : ∀ e ∈ cleanup, e ∈ g.state.cleanup ∨ e.slot ∈ a.globals.map (·.name)) :
    Sound ctx P { g with state := { g.state with assembly := a, strings, cleanup } } :=
  hg.ofState rfl rfl rfl rfl h (fun _ hx => .inl hx) (fun _ hp => .inl hp)
    (fun _ hp => .inl hp) prefix_rfl (fun _ hr => .inl hr) hcleanup

/-- A move keeps a stage sound. -/
theorem Move.sound (h : Move ctx P g g') (hg : g.Sound ctx P) : g'.Sound ctx P := by
  have hadd (d : Global) : g.globals ⊆ (g.state.assembly.addGlobal d).globals :=
    subset_append_left _ _
  cases h with
  | define i dst => exact hg.define dst
  | convert op v target has => exact hg.convert target has
  | effect i dst inner => exact hg.effect dst inner
  | slot ty => exact hg.slot ty
  | nullSlot => exact hg.nullSlot _
  | allocate e destroy args => exact hg.define rfl
  | reserve e destroy args =>
    have hd : (g.allocate e.name args).Sound ctx P := hg.define rfl
    have hs : ((g.allocate e.name args).declare
        { name := g.cleanupSlot, ty := .ptr, visibility := .hidden, init := some .null }).Sound
          ctx P := hd.withGlobals (hadd _) fun _ he => .inl he
    have hstore := hs.effect (i := .store (.reg g.next .ptr) (.global g.cleanupSlot)) rfl rfl
    refine hstore.withGlobals (List.Subset.refl _) fun c hc => ?_
    rcases mem_append.mp hc with hc | hc
    · exact .inl hc
    · obtain rfl := mem_singleton.mp hc
      exact .inr (mem_map.mpr ⟨_, mem_append_right _ mem_cons_self, rfl⟩)
  | release entry =>
    exact (hg.define (i := .load g.next .ptr (.global entry.slot)) rfl).effect rfl rfl
  | constant text => exact hg.withGlobals (hadd _) fun _ he => .inl he
  | storage name named storage init => exact hg.withGlobals (hadd _) fun _ he => .inl he
  | exported name symbol => exact hg.withGlobals (hadd _) fun _ he => .inl he
  | useVariable symbol e a _ h =>
    obtain ⟨hglobals, -, -, -, -, -, hnew⟩ := useVariable_globals h
    exact hg.ofState rfl rfl rfl rfl hglobals
      (fun x hx => (hnew x hx).imp id fun h => h.2) (fun _ hp => .inl hp) (fun _ hp => .inl hp)
      prefix_rfl (fun _ hr => .inl hr) fun _ he => .inl he
  | useFunction symbol asked arity e a named h =>
    obtain ⟨hglobals, hvars, -⟩ := useFunction_globals h
    exact hg.ofState rfl rfl rfl rfl (fun d hd => (congrArg (d ∈ ·) hglobals).mpr hd)
      (fun x hx => .inl ((congrArg (x ∈ ·) hvars).mp hx)) (fun _ hp => .inl hp)
      (fun _ hp => .inl hp) prefix_rfl (fun _ hr => .inl hr) fun _ he => .inl he
  | bind name b binds =>
    obtain ⟨locals, globals, hs, hlocals, hglobals⟩ := bind_eq g.state name b
    rw [hs]
    refine hg.ofState rfl rfl rfl rfl (List.Subset.refl _)
      (fun _ hx => .inl hx) (fun p hp => ?_) (fun p hp => ?_) prefix_rfl
      (fun _ hr => .inl hr) fun _ he => .inl he
    · rcases hglobals p hp with h | ⟨rfl, -⟩
      · exact .inl h
      · exact .inr binds
    · rcases hlocals p hp with h | ⟨rfl, -⟩
      · exact .inl h
      · exact .inr binds
  | note s same =>
    exact hg.ofState same.builder same.labels same.loopEnds same.scope
      (fun d hd => (congrArg (fun a => d ∈ a.globals) same.assembly).mpr hd)
      (fun x hx => .inl ((congrArg (fun e => x ∈ e.vars) same.externals).mp hx))
      (fun p hp => .inl (same.globals ▸ hp)) (fun p hp => .inl (same.locals ▸ hp)) same.kept same.added
      fun e he => .inl (same.cleanup ▸ he)

theorem Sound.label_ne (hg : g.Sound ctx P) (stem : String) {l : String}
    (hl : l ∈ g.labels ++ g.reserved) : l ≠ stem ++ "_" ++ toString g.state.labels :=
  (hg.below l hl).ne stem

theorem label_mem (g : Stage) : g.label ∈ g.labels := by simp [labels, body]

theorem Sound.scope_withLabel (hg : g.Sound ctx P) (stem : String) :
    (g.withLabel stem).scope = g.scope := by
  have h : (g.withLabel stem).live g.label = g.live g.label :=
    if_neg (hg.label_ne stem (mem_append_left _ g.label_mem))
  unfold scope
  rw [show (g.withLabel stem).label = g.label from rfl, h]
  rfl

theorem Sound.withLabel (hg : g.Sound ctx P) (stem : String) : (g.withLabel stem).Sound ctx P := by
  have hlive : ∀ l ∈ g.labels ++ g.reserved, (g.withLabel stem).live l = g.live l := fun l hl =>
    if_neg (hg.label_ne stem hl)
  have hnew : (g.withLabel stem).live (stem ++ "_" ++ toString g.state.labels) = [] := if_pos rfl
  have hscope := hg.scope_withLabel stem
  exact { hg with
    scope_lt := by rw [hscope]; exact hg.scope_lt
    live_lt := by
      intro l hl p hp
      rcases mem_cons.mp hl with rfl | hl
      · rw [hnew] at hp
        simp at hp
      · rw [hlive l (mem_append_right _ hl)] at hp
        exact hg.live_lt l hl p hp
    casts := by
      intro c hc
      have hold := hg.casts c hc
      refine ⟨hold.taken, hold.apart, hold.sane, hscope ▸ hold.scope, fun l hl ty hty => ?_⟩
      rcases mem_cons.mp hl with rfl | hl
      · rw [hnew] at hty
        simp at hty
      · rw [hlive l (mem_append_right _ hl)] at hty ⊢
        exact hold.live l hl ty hty
    below := by
      intro l hl
      have hl' : l = stem ++ "_" ++ toString g.state.labels ∨ l ∈ g.labels ++ g.reserved := by
        rcases mem_append.mp hl with h | h
        · exact .inr (mem_append_left _ h)
        · exact (mem_cons.mp h).imp id (mem_append_right _)
      rcases hl' with rfl | hl
      · exact LabelBelow.next stem _
      · exact (hg.below l hl).mono (Nat.le_succ _)
    fresh := by
      intro l hl hmem
      rcases mem_cons.mp hl with rfl | hl
      · exact hg.label_ne stem (mem_append_left _ hmem) rfl
      · exact hg.fresh l hl hmem
    targets := fun l hl => (hg.targets l hl).imp (mem_cons_of_mem _) id
    loopEnds := fun l hl => mem_cons_of_mem _ (hg.loopEnds l hl)
    globals := fun p hp hs => { hg.globals p hp hs with }
    locals := fun p hp hs => { hg.locals p hp hs with } }

theorem Sound.jump (hg : g.Sound ctx P) {t : Instr} {label : String} {live : String → Typing}
    {reserved : List String} (h : Jumps ctx g t label live reserved) :
    (g.jump t label live reserved).Sound ctx P := by
  have hscope : ∀ p, p ∈ (g.jump t label live reserved).scope ↔ p ∈ g.frame ++ live label := by
    intro p
    rw [mem_scope, mem_append]
    show p ∈ g.frame ∨ p ∈ live label ∨ p ∈ typing [] ↔ _
    simp [typing]
  have hframe : g.frame ⊆ g.scope := fun p hp => mem_scope.mpr (.inl hp)
  -- What a label that is not in use yet may read is known now.
  have hlive : ∀ l ∈ g.reserved, ∀ p ∈ live l, p.1 < g.next := by
    intro l hl p hp
    rcases h.settled l with hs | ⟨-, hs | ⟨-, hs⟩⟩
    · exact hg.live_lt l hl p (hs ▸ hp)
    · rw [hs] at hp
      simp at hp
    · exact hg.scope_lt p (hs ▸ hp)
  have hcast : ∀ c ∈ g.state.builder.casts, ∀ l ∈ g.reserved, ∀ ty, (c.1, ty) ∈ live l →
      c.2.2.RegIn (g.frame ++ live l) := by
    intro c hc l hl ty hty
    have hold := hg.casts c hc
    rcases h.settled l with hs | ⟨-, hs | ⟨-, hs⟩⟩
    · rw [hs] at hty ⊢
      exact hold.live l hl ty hty
    · rw [hs] at hty
      simp at hty
    · rw [hs] at hty ⊢
      exact regIn_mono (subset_append_right _ _) (hold.scope ty hty)
  have hlabels : (g.jump t label live reserved).labels = g.labels ++ [label] := by
    simp [labels, body, Stage.jump]
  constructor
  case layout =>
    have hpush := withHead_push g.head g.done g.label g.instrs t
    rw [← body, ← hg.layout, ← hg.current] at hpush
    show (g.state.builder.push t).func.blocks ++ [⟨label, []⟩] = _
    have hpush' : (g.state.builder.push t).func.blocks = _ := hpush
    rw [hpush', withHead_append]
    rfl
  case current =>
    show g.state.builder.current + 1 = (g.done ++ [_]).length
    rw [hg.current]
    simp
  case entryInsert => exact hg.entryInsert
  case inner => exact fun i hi => hg.inner i (by simpa [Stage.jump] using Or.inl hi)
  case scope_lt =>
    intro p hp
    rcases mem_append.mp ((hscope p).mp hp) with hp | hp
    · exact hg.scope_lt p (hframe hp)
    · exact hlive label h.handedOut p hp
  case live_lt => exact fun l hl => hlive l ((h.remaining l).mp hl).1
  case casts =>
    intro c hc
    have hold := hg.casts c hc
    refine ⟨hold.taken, hold.apart, hold.sane, fun ty hty => ?_, fun l hl => ?_⟩
    · rcases mem_append.mp ((hscope _).mp hty) with hty | hty
      · exact absurd hty (hold.apart ty)
      · exact regIn_mono (fun p hp => (hscope p).mpr hp) (hcast c hc label h.handedOut ty hty)
    · exact hcast c hc l ((h.remaining l).mp hl).1
  case below =>
    intro l hl
    rw [hlabels, append_assoc, mem_append] at hl
    refine hg.below l (mem_append.mpr (hl.imp id fun hl => ?_))
    rcases mem_cons.mp hl with rfl | hl
    · exact h.handedOut
    · exact ((h.remaining l).mp hl).1
  case fresh =>
    intro l hl hmem
    obtain ⟨hr, hne⟩ := (h.remaining l).mp hl
    rw [hlabels, mem_append] at hmem
    rcases hmem with hmem | hmem
    · exact hg.fresh l hr hmem
    · exact hne (by simpa using hmem)
  case targets =>
    have htargets : (g.jump t label live reserved).targets = g.targets ++ t.successors := by
      simp [Stage.targets, body, Stage.jump]
    have htail : (g.jump t label live reserved).labels.tail = g.labels.tail ++ [label] := by
      rw [hlabels, tail_append_of_ne_nil (ne_nil_of_mem g.label_mem)]
    intro l hl
    rw [htargets, mem_append] at hl
    rw [htail, mem_append, mem_singleton]
    rcases hl.elim (hg.targets l) (h.targets l) with hr | hr
    · by_cases heq : l = label
      · exact .inr (.inr heq)
      · exact .inl ((h.remaining l).mpr ⟨hr, heq⟩)
    · exact .inr (.inl hr)
  case loopEnds =>
    intro l hl
    exact (h.remaining l).mpr ⟨hg.loopEnds l hl, fun heq => h.closed (heq ▸ hl)⟩
  case globals => exact fun p hp hs => { hg.globals p hp hs with }
  case locals => exact fun p hp hs => { hg.locals p hp hs with }
  case routines => exact hg.routines
  case externals => exact hg.externals
  case cleanup => exact hg.cleanup
  case ret => exact hg.ret
  case noted => exact hg.noted
  case observed => exact hg.observed
  case early => exact hg.early

/-- A step keeps a stage sound. -/
theorem Step.sound (h : Step ctx P g g') (hg : g.Sound ctx P) : g'.Sound ctx P := by
  cases h with
  | move h => exact h.sound hg
  | label stem => exact hg.withLabel stem
  | jump h => exact hg.jump h
  | enterLoop label h =>
    exact { hg with
      casts := fun c hc => { hg.casts c hc with }
      globals := fun p hp hs => { hg.globals p hp hs with }
      locals := fun p hp hs => { hg.locals p hp hs with }
      loopEnds := fun l hl => (mem_cons.mp hl).elim (fun he => he ▸ h) (hg.loopEnds l) }
  | leaveLoop =>
    exact { hg with
      casts := fun c hc => { hg.casts c hc with }
      globals := fun p hp hs => { hg.globals p hp hs with }
      locals := fun p hp hs => { hg.locals p hp hs with }
      loopEnds := fun l hl => hg.loopEnds l (mem_of_mem_tail hl) }

theorem Steps.sound (h : Steps ctx P g g') (hg : g.Sound ctx P) : g'.Sound ctx P := by
  induction h with
  | refl => exact hg
  | tail _ h ih => exact h.sound ih

end

end Stage

end ScriptCompiler.Lowering
