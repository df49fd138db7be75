import ScriptCompiler.Proofs.Stage.Unit

/-!
# The code of a stage

`Writes` is all that a move adds to the code: stack slots at the head of the function and
instructions at the end of the current block, which read what is in scope and define the next
register at most. From it follows what holds of the code as a whole (`Written`): types and globals
are right, every register is defined once, and every block reads the slots and parameters, the
registers that it defines itself, and those that `live` promises it. The promise is kept on every
jump (`edges`).
-/

namespace ScriptCompiler

open List

namespace Ir

/-- Each instruction reads registers that are known before it, at the types they have. -/
def Scoped (known : Typing) : List Instr → Prop
  | [] => True
  | i :: rest => (∀ v ∈ i.operands, v.RegIn known) ∧ Scoped (known ++ i.definition?.toList) rest

/-- The registers that instructions define, in order. -/
def registers (instrs : List Instr) : List Reg := instrs.filterMap Instr.dst?

theorem typing_cons (i : Instr) (rest : List Instr) :
    typing (i :: rest) = i.definition?.toList ++ typing rest := by
  simp only [typing, filterMap_cons]
  cases i.definition? <;> rfl

theorem scoped_append {known : Typing} {a b : List Instr} :
    Scoped known (a ++ b) ↔ Scoped known a ∧ Scoped (known ++ typing a) b := by
  induction a generalizing known with
  | nil => simp [Scoped, typing]
  | cons i a ih => simp [Scoped, ih, typing_cons, and_assoc]

theorem Scoped.mono {known more : Typing} {instrs : List Instr} (h : Scoped known instrs)
    (hsub : known ⊆ more) : Scoped more instrs := by
  induction instrs generalizing known more with
  | nil => trivial
  | cons i rest ih =>
    refine ⟨fun v hv => Lowering.Stage.regIn_mono hsub (h.1 v hv), ih h.2 ?_⟩
    exact append_subset.mpr ⟨subset_append_of_subset_left _ hsub,
      subset_append_right _ _⟩

theorem scoped_singleton {known : Typing} {i : Instr} :
    Scoped known [i] ↔ ∀ v ∈ i.operands, v.RegIn known := by
  simp [Scoped]

theorem definition_isSome {i : Instr} {r : Reg} (h : i.dst? = some r) :
    ∃ ty, i.resultType? = some ty ∧ i.definition? = some (r, ty) := by
  cases i with
  | call dst ret callee args =>
    obtain rfl : dst = some r := h
    exact ⟨ret, rfl, rfl⟩
  | _ => simp_all [Instr.dst?, Instr.resultType?, Instr.definition?]

theorem map_fst_typing (instrs : List Instr) : (typing instrs).map Prod.fst = registers instrs := by
  simp only [typing, registers, map_filterMap]
  refine filterMap_congr fun i _ => ?_
  cases hdst : i.dst? with
  | none => simp [Instr.definition?, hdst]
  | some r =>
    obtain ⟨ty, -, h⟩ := definition_isSome hdst
    simp [h]

theorem registers_append (a b : List Instr) : registers (a ++ b) = registers a ++ registers b := by
  simp [registers]

/-- Every register is defined by one instruction. -/
def DefinedOnce (code : List Instr) : Prop :=
  ∀ i ∈ code, ∀ j ∈ code, ∀ r, i.dst? = some r → j.dst? = some r → i = j

theorem definedOnce_of_nodup {code : List Instr} (h : (registers code).Nodup) :
    DefinedOnce code := by
  induction code with
  | nil => simp [DefinedOnce]
  | cons k code ih =>
    have hfirst : ∀ j ∈ code, ∀ r, k.dst? = some r → j.dst? ≠ some r := by
      intro j hj r hk hr
      rw [registers, filterMap_cons_some hk] at h
      exact (nodup_cons.mp h).1 (mem_filterMap.mpr ⟨j, hj, hr⟩)
    have hrest : DefinedOnce code :=
      ih (h.sublist ((sublist_cons_self k code).filterMap Instr.dst?))
    intro i hi j hj r hir hjr
    rcases mem_cons.mp hi with rfl | hi' <;> rcases mem_cons.mp hj with rfl | hj'
    · rfl
    · exact absurd hjr (hfirst j hj' r hir)
    · exact absurd hir (hfirst i hi' r hjr)
    · exact hrest i hi' j hj' r hir hjr

end Ir

namespace Lowering

open Ir

namespace Stage

/-- The instructions of the blocks, without the head. -/
def bodyCode (g : Stage) : List Instr := g.body.flatMap (·.instrs)

/-- All instructions in the order of the text. -/
def code (g : Stage) : List Instr := g.head ++ g.bodyCode

/-- From `g` to `g'` stack slots and instructions at the end of the current block are added. -/
structure Writes (g g' : Stage) (slots code : List Instr) : Prop where
  head : g'.head = g.head ++ slots
  instrs : g'.instrs = g.instrs ++ code
  types : ∀ i ∈ slots ++ code, i.expected? g.func.ret = none
  globals : ∀ i ∈ slots ++ code, ∀ v ∈ i.operands, v.Sane g'.globals
  slotScope : Scoped [] slots
  scope : Scoped g.scope code
  fresh : registers (slots ++ code) = [] ∨
    registers (slots ++ code) = [g.next] ∧ g.next < g'.next

/-- What holds of the blocks that are written. -/
structure Shaped (g : Stage) : Prop where
  first : g.labels.head? = some "entry"
  distinct : g.labels.Nodup
  /-- Complete blocks end in their one terminator. -/
  closed : ∀ b ∈ g.done, ∃ inner t, b.instrs = inner ++ [t] ∧ t.isTerminator = true ∧
    ∀ i ∈ inner, i.isTerminator = false
  /-- Something jumps to every block but the first, unless it is dead. -/
  entered : ∀ l ∈ g.labels.tail, l ∈ g.targets ∨ IsDead l

/-- What holds of the code that is written. -/
structure Written (g : Stage) : Prop where
  types : ∀ i ∈ g.code, i.expected? g.func.ret = none
  globals : ∀ i ∈ g.code, ∀ v ∈ i.operands, v.Sane g.globals
  /-- Registers are numbered behind the parameters, and each is defined once. -/
  params : g.func.paramRegs.Nodup ∧ ∀ r ∈ g.func.paramRegs, r < g.next
  bounds : ∀ r ∈ registers g.code, r ∉ g.func.paramRegs ∧ r < g.next
  distinct : (registers g.code).Nodup
  slots : Scoped [] g.head
  blocks : ∀ b ∈ g.body, Scoped (g.frame ++ g.live b.label) b.instrs
  /-- What a block may read is known at the end of every block that leads to it. -/
  edges : ∀ b ∈ g.body, ∀ i ∈ b.instrs, ∀ l ∈ i.successors,
    g.live l ⊆ g.frame ++ g.live b.label ++ typing b.instrs
  /-- What a new block may read is defined further up. -/
  earlier : ∀ l, l = g.label ∨ l ∈ g.reserved → g.live l ⊆ g.frame ++ typing g.bodyCode
  order : Scoped g.frame g.bodyCode
  first : g.live "entry" = []

section

variable {ctx : Context} {P : Lexicon} {g g' : Stage} {slots more : List Instr}

theorem Writes.nil (hhead : g'.head = g.head) (hinstrs : g'.instrs = g.instrs) :
    Writes g g' [] [] where
  head := by simp [hhead]
  instrs := by simp [hinstrs]
  types := by simp
  globals := by simp
  slotScope := trivial
  scope := trivial
  fresh := .inl rfl

/-- One instruction is written. -/
theorem Writes.one {i : Instr} (hhead : g'.head = g.head) (hinstrs : g'.instrs = g.instrs ++ [i])
    (hglobals : g'.globals = g.globals) (hops : ∀ v ∈ i.operands, g.Has v)
    (htypes : i.expected? g.func.ret = none)
    (hdst : i.dst? = none ∨ i.dst? = some g.next ∧ g.next < g'.next) : Writes g g' [] [i] where
  head := by simp [hhead]
  instrs := hinstrs
  types := by simpa using htypes
  globals := by
    rw [hglobals]
    simpa using fun v hv => (hops v hv).2
  slotScope := trivial
  scope := scoped_singleton.mpr fun v hv => (hops v hv).1
  fresh := by
    rcases hdst with h | ⟨h, hlt⟩
    · exact .inl (by simp [registers, h])
    · exact .inr ⟨by simp [registers, h], hlt⟩

/-- What a move writes. -/
theorem Move.writes (h : Move ctx P g g') (hg : g.Sound ctx P) :
    ∃ slots code, Writes g g' slots code := by
  have hlt : g.next < g.next + 1 := Nat.lt_succ_self _
  cases h with
  | define i dst admits =>
    exact ⟨_, _, .one rfl rfl rfl admits.operands admits.types (.inr ⟨dst, hlt⟩)⟩
  | convert op v target has fits =>
    refine ⟨_, _, .one rfl rfl rfl ?_ ?_ (.inr ⟨rfl, hlt⟩)⟩
    · simpa [Instr.operands] using has
    · simp [Instr.expected?, fits]
  | effect i dst inner admits =>
    exact ⟨_, _, .one rfl rfl rfl admits.operands admits.types (.inl dst)⟩
  | slot ty =>
    refine ⟨[.alloca g.next ty], [], rfl, ?_, ?_, ?_, ?_, trivial, .inr ⟨rfl, hlt⟩⟩
    · exact (append_nil _).symm
    · simp [Instr.expected?]
    · simp [Instr.operands]
    · simp [scoped_singleton, Instr.operands]
  | nullSlot =>
    refine ⟨[.alloca g.next .ptr, .store .null (.reg g.next .ptr)], [], rfl, ?_, ?_, ?_, ?_,
      trivial, .inr ⟨rfl, hlt⟩⟩
    · exact (append_nil _).symm
    · simp [Instr.expected?, Value.reg]
    · simp [Instr.operands, Value.Sane, Value.null, Value.reg]
    · simp [Scoped, Instr.operands, Value.RegIn, Value.null, Value.reg, Instr.definition?,
        Instr.dst?, Instr.resultType?]
  | allocate e destroy args mem owner has types =>
    exact ⟨_, _, .one rfl rfl rfl has rfl (.inr ⟨rfl, hlt⟩)⟩
  | reserve e destroy args mem owner has types =>
    refine ⟨[], [.call (some g.next) .ptr e.name args,
      .store (.reg g.next .ptr) (.global g.cleanupSlot)], ?_, ?_, ?_, ?_, trivial, ?_,
      .inr ⟨rfl, hlt⟩⟩
    · exact (append_nil _).symm
    · exact append_assoc _ _ _
    · simp [Instr.expected?, Value.global]
    · have hslot : (Value.global g.cleanupSlot).Sane (g.reserve e.name args destroy).globals :=
        ⟨rfl, mem_map.mpr ⟨_, mem_append_right _ mem_cons_self, rfl⟩⟩
      have hargs : ∀ v ∈ args, v.Sane (g.reserve e.name args destroy).globals := fun v hv =>
        Grows.sane (Move.reserve (P := P) e destroy args mem owner has types ‹_› ‹_›).grows.globals
          (has v hv).2
      simp only [nil_append, forall_mem_cons, not_mem_nil, IsEmpty.forall_iff,
        implies_true, and_true, Instr.operands]
      exact ⟨hargs, trivial, hslot⟩
    · refine ⟨fun v hv => (has v hv).1, ?_⟩
      simp [scoped_singleton, Instr.operands, Value.RegIn, Value.reg, Value.global,
        Instr.definition?, Instr.dst?, Instr.resultType?]
  | release entry mem last tracked =>
    refine ⟨[], [.load g.next .ptr (.global entry.slot),
      .call none .void entry.destroy [.reg g.next .ptr]], ?_, ?_, ?_, ?_, trivial, ?_,
      .inr ⟨rfl, hlt⟩⟩
    · exact (append_nil _).symm
    · exact append_assoc _ _ _
    · simp [Instr.expected?, Value.global]
    · have hslot : (Value.global entry.slot).Sane g.globals := ⟨rfl, hg.cleanup entry mem⟩
      simp only [nil_append, forall_mem_cons, not_mem_nil, IsEmpty.forall_iff,
        implies_true, and_true, Instr.operands]
      exact ⟨hslot, trivial⟩
    · simp [Scoped, Instr.operands, Value.RegIn, Value.reg, Value.global, Instr.definition?,
        Instr.dst?, Instr.resultType?]
  | constant text => exact ⟨_, _, .nil rfl rfl⟩
  | storage name named storage init => exact ⟨_, _, .nil rfl rfl⟩
  | exported name symbol named h absent => exact ⟨_, _, .nil rfl rfl⟩
  | useVariable symbol e a named h => exact ⟨_, _, .nil rfl rfl⟩
  | useFunction symbol asked arity e a named h => exact ⟨_, _, .nil rfl rfl⟩
  | bind name b binds => exact ⟨_, _, .nil rfl rfl⟩
  | note s same => exact ⟨_, _, .nil rfl rfl⟩

/-! ## Blocks -/

theorem labels_jump (g : Stage) (t : Instr) (label : String) (live : String → Typing)
    (reserved : List String) : (g.jump t label live reserved).labels = g.labels ++ [label] := by
  simp [labels, body, Stage.jump]

theorem Grows.labels_eq (h : Grows g g') : g'.labels = g.labels := by
  simp [Stage.labels, body, h.done, h.label]

theorem Shaped.grow (h : g.Shaped) (hgrow : Grows g g') : g'.Shaped where
  first := by rw [hgrow.labels_eq]; exact h.first
  distinct := by rw [hgrow.labels_eq]; exact h.distinct
  closed := by rw [hgrow.done]; exact h.closed
  entered := by
    rw [hgrow.labels_eq]
    exact fun l hl => hgrow.targets ▸ h.entered l hl

theorem Shaped.jump (h : g.Shaped) (hg : g.Sound ctx P) {t : Instr} {label : String}
    {live : String → Typing} {reserved : List String} (hj : Jumps ctx g t label live reserved) :
    (g.jump t label live reserved).Shaped where
  first := by
    rw [labels_jump, List.head?_append, h.first]
    rfl
  distinct := by
    rw [labels_jump]
    refine nodup_append.mpr ⟨h.distinct, by simp, fun a ha b hb heq => ?_⟩
    rw [mem_singleton] at hb
    exact hg.fresh label hj.handedOut (hb ▸ heq ▸ ha)
  closed := by
    intro b hb
    rcases mem_append.mp hb with hb | hb
    · exact h.closed b hb
    · obtain rfl := mem_singleton.mp hb
      exact ⟨g.instrs, t, rfl, hj.terminator, fun i hi => hg.inner i (mem_append_right _ hi)⟩
  entered := by
    intro l hl
    rw [labels_jump, tail_append_of_ne_nil (ne_nil_of_mem g.label_mem), mem_append,
      mem_singleton] at hl
    rw [targets_jump, mem_append]
    rcases hl with hl | rfl
    · exact (h.entered l hl).imp .inl id
    · exact or_assoc.mpr hj.entered

theorem Step.shaped (h : Step ctx P g g') (hg : g.Sound ctx P) (hs : g.Shaped) : g'.Shaped := by
  cases h with
  | move h => exact hs.grow h.grows
  | label stem => exact { hs with }
  | jump h => exact hs.jump hg h
  | enterLoop label h => exact { hs with }
  | leaveLoop => exact { hs with }

/-! ## Code as a whole -/

theorem bodyCode_eq (g : Stage) : g.bodyCode = g.done.flatMap (·.instrs) ++ g.instrs := by
  simp [bodyCode, body]

theorem Written.scope_subset (h : g.Written) : g.scope ⊆ g.frame ++ typing g.bodyCode := by
  intro p hp
  rcases mem_scope.mp hp with hp | hp | hp
  · exact mem_append_left _ hp
  · exact h.earlier g.label (.inl rfl) hp
  · rw [bodyCode_eq, typing_append]
    exact mem_append_right _ (mem_append_right _ hp)

theorem frame_writes (hgrow : Grows g g') (hw : Writes g g' slots more) :
    g'.frame = g.frame ++ typing slots := by
  rw [frame, frame, hgrow.params, hw.head, typing_append, ← append_assoc]

/-- Code that is added in the current block keeps the code as it should be. -/
theorem Written.grow (h : g.Written) (hgrow : Grows g g') (hw : Writes g g' slots more)
    (hinner : ∀ i ∈ more, i.successors = []) : g'.Written := by
  have hframe := frame_writes hgrow hw
  have hbody : g'.bodyCode = g.bodyCode ++ more := by
    rw [bodyCode_eq, bodyCode_eq, hgrow.done, hw.instrs, append_assoc]
  have hcode : ∀ i, i ∈ g'.code ↔ i ∈ g.code ∨ i ∈ slots ++ more := by
    intro i
    simp only [code, hw.head, hbody, mem_append]
    tauto
  have hregs : (registers g'.code).Perm (registers g.code ++ registers (slots ++ more)) := by
    simp only [code, hw.head, hbody, registers_append, append_assoc]
    refine List.Perm.append_left _ ?_
    rw [← append_assoc, ← append_assoc]
    exact perm_append_comm.append_right _
  have hnew : ∀ r ∈ registers (slots ++ more), r = g.next ∧ g.next < g'.next := by
    intro r hr
    rcases hw.fresh with h | ⟨h, hlt⟩
    · simp [h] at hr
    · rw [h, mem_singleton] at hr
      exact ⟨hr, hlt⟩
  have hsub : g.frame ⊆ g'.frame := hgrow.frame
  have hparams : g'.func.paramRegs = g.func.paramRegs := congrArg (map Prod.fst) hgrow.params
  constructor
  case types =>
    rw [hgrow.ret]
    exact fun i hi => ((hcode i).mp hi).elim (h.types i) (hw.types i)
  case globals =>
    exact fun i hi v hv => ((hcode i).mp hi).elim
      (fun hi => Grows.sane hgrow.globals (h.globals i hi v hv)) fun hi => hw.globals i hi v hv
  case params =>
    rw [hparams]
    exact h.params.imp id fun hlt r hr => Nat.lt_of_lt_of_le (hlt r hr) hgrow.next
  case bounds =>
    intro r hr
    rw [hparams]
    rcases mem_append.mp (hregs.mem_iff.mp hr) with hr | hr
    · exact ⟨(h.bounds r hr).1, Nat.lt_of_lt_of_le (h.bounds r hr).2 hgrow.next⟩
    · obtain ⟨rfl, hlt⟩ := hnew r hr
      exact ⟨fun hparam => Nat.lt_irrefl _ (h.params.2 _ hparam), hlt⟩
  case distinct =>
    refine hregs.nodup_iff.mpr (nodup_append.mpr ⟨h.distinct, ?_, fun a ha b hb heq => ?_⟩)
    · rcases hw.fresh with h | ⟨h, -⟩ <;> simp [h]
    · have hlt := (h.bounds a ha).2
      rw [heq, (hnew b hb).1] at hlt
      exact Nat.lt_irrefl _ hlt
  case slots =>
    rw [hw.head, scoped_append]
    exact ⟨h.slots, hw.slotScope.mono (nil_subset _)⟩
  case blocks =>
    intro b hb
    rw [hgrow.live]
    rw [body, hgrow.done, hgrow.label, hw.instrs] at hb
    have hmono : ∀ l, g.frame ++ g.live l ⊆ g'.frame ++ g.live l := fun l =>
      append_subset.mpr ⟨subset_append_of_subset_left _ hsub,
        subset_append_right _ _⟩
    rcases mem_append.mp hb with hb | hb
    · exact (h.blocks b (mem_append_left _ hb)).mono (hmono _)
    · obtain rfl := mem_singleton.mp hb
      have hcurrent := h.blocks ⟨g.label, g.instrs⟩ (mem_append_right _ mem_cons_self)
      refine (scoped_append.mpr ⟨hcurrent, hw.scope⟩).mono (hmono _)
  case edges =>
    intro b hb i hi l hl
    rw [hgrow.live]
    rw [body, hgrow.done, hgrow.label, hw.instrs] at hb
    have hmono : ∀ a b, g.frame ++ a ++ b ⊆ g'.frame ++ a ++ b := fun a b =>
      append_subset.mpr ⟨subset_append_of_subset_left _ (append_subset.mpr
        ⟨subset_append_of_subset_left _ hsub, subset_append_right _ _⟩),
        subset_append_right _ _⟩
    rcases mem_append.mp hb with hb | hb
    · exact List.Subset.trans (h.edges b (mem_append_left _ hb) i hi l hl) (hmono _ _)
    · obtain rfl := mem_singleton.mp hb
      rcases mem_append.mp hi with hi | hi
      · have hold := h.edges ⟨g.label, g.instrs⟩ (mem_append_right _ mem_cons_self) i hi
          l hl
        refine List.Subset.trans (List.Subset.trans hold (hmono _ _)) ?_
        rw [typing_append, ← append_assoc]
        exact subset_append_left _ _
      · rw [hinner i hi] at hl
        simp at hl
  case earlier =>
    intro l hl
    rw [hgrow.label, hgrow.reserved] at hl
    rw [hgrow.live, hbody, typing_append, ← append_assoc]
    refine subset_append_of_subset_left _ (List.Subset.trans (h.earlier l hl) ?_)
    exact append_subset.mpr ⟨subset_append_of_subset_left _ hsub,
      subset_append_right _ _⟩
  case order =>
    have hold : Scoped g.frame (g.bodyCode ++ more) :=
      scoped_append.mpr ⟨h.order, hw.scope.mono h.scope_subset⟩
    rw [hbody]
    exact hold.mono hsub
  case first => rw [hgrow.live]; exact h.first

theorem mem_targets {b : Block} {i : Instr} {l : String} (hb : b ∈ g.body) (hi : i ∈ b.instrs)
    (hl : l ∈ i.successors) : l ∈ g.targets :=
  mem_flatMap.mpr ⟨i, mem_flatMap.mpr ⟨b, hb, hi⟩, hl⟩

theorem label_mem_labels {b : Block} (hb : b ∈ g.body) : b.label ∈ g.labels :=
  mem_map.mpr ⟨b, hb, rfl⟩

/-- A label that is handed out changes no promise. -/
theorem Written.withLabel (h : g.Written) (hg : g.Sound ctx P) (stem : String) :
    (g.withLabel stem).Written := by
  have hlive : ∀ l ∈ g.labels ++ g.reserved, (g.withLabel stem).live l = g.live l := fun l hl =>
    if_neg (hg.label_ne stem hl)
  have hblock : ∀ b ∈ g.body, (g.withLabel stem).live b.label = g.live b.label := fun b hb =>
    hlive _ (mem_append_left _ (label_mem_labels hb))
  refine { h with blocks := ?_, edges := ?_, earlier := ?_, first := ?_ }
  · intro b hb
    rw [hblock b hb]
    exact h.blocks b hb
  · intro b hb i hi l hl
    have htarget : l ∈ g.labels ++ g.reserved := by
      rcases hg.targets l (mem_targets hb hi hl) with hl | hl
      · exact mem_append_right _ hl
      · exact mem_append_left _ (mem_of_mem_tail hl)
    rw [hblock b hb, hlive l htarget]
    exact h.edges b hb i hi l hl
  · intro l hl
    by_cases heq : l = stem ++ "_" ++ toString g.state.labels
    · rw [heq]
      simp [Stage.withLabel]
    · have hlive' : (g.withLabel stem).live l = g.live l := if_neg heq
      rw [hlive']
      exact h.earlier l (hl.imp id fun hl => (mem_cons.mp hl).resolve_left heq)
  · have hlive' : (g.withLabel stem).live "entry" = g.live "entry" :=
      if_neg (label_ne (by decide)).symm
    exact hlive'.trans h.first

/-- The current block ends in a terminator, and another begins. -/
theorem Written.jump (h : g.Written) (hg : g.Sound ctx P) {t : Instr} {label : String}
    {live : String → Typing} {reserved : List String} (hj : Jumps ctx g t label live reserved)
    (hs : g.Shaped) : (g.jump t label live reserved).Written := by
  -- The blocks that are there keep what they may read.
  have hlive : ∀ l ∈ g.labels, live l = g.live l := fun l hl =>
    (hj.settled l).resolve_right fun hr => hg.fresh l hr.1 hl
  have hdst : t.dst? = none := by
    have := hj.terminator
    cases t <;> simp_all [Instr.isTerminator, Instr.dst?]
  have hdef : typing [t] = [] := by simp [typing, definition_of_none hdst]
  have hbody : (g.jump t label live reserved).bodyCode = g.bodyCode ++ [t] := by
    simp [bodyCode, body, Stage.jump]
  have hcode : ∀ i, i ∈ (g.jump t label live reserved).code ↔ i ∈ g.code ∨ i = t := by
    intro i
    show i ∈ g.head ++ (g.jump t label live reserved).bodyCode ↔ _
    rw [hbody, code]
    simp [or_assoc]
  have hregs : registers (g.jump t label live reserved).code = registers g.code := by
    show registers (g.head ++ (g.jump t label live reserved).bodyCode) = _
    rw [hbody, ← append_assoc, registers_append]
    simp [registers, hdst, code]
  have hblocks : ∀ b ∈ (g.jump t label live reserved).body,
      b ∈ g.done ∨ b = ⟨g.label, g.instrs ++ [t]⟩ ∨ b = ⟨label, []⟩ := by
    intro b hb
    simpa [body, Stage.jump, or_assoc] using hb
  have hcurrent := h.blocks ⟨g.label, g.instrs⟩ (mem_append_right _ mem_cons_self)
  have hlabel := hlive g.label g.label_mem
  constructor
  case types =>
    intro i hi
    rcases (hcode i).mp hi with hi | rfl
    · exact h.types i hi
    · exact hj.types
  case globals =>
    intro i hi v hv
    rcases (hcode i).mp hi with hi | rfl
    · exact h.globals i hi v hv
    · exact (hj.operands v hv).2
  case params => exact h.params
  case bounds => rw [hregs]; exact h.bounds
  case distinct => rw [hregs]; exact h.distinct
  case slots => exact h.slots
  case blocks =>
    intro b hb
    show Scoped (g.frame ++ live b.label) b.instrs
    rcases hblocks b hb with hb | rfl | rfl
    · have hmem : b ∈ g.body := mem_append_left _ hb
      rw [hlive _ (label_mem_labels hmem)]
      exact h.blocks b hmem
    · rw [hlabel]
      exact scoped_append.mpr ⟨hcurrent, scoped_singleton.mpr fun v hv => (hj.operands v hv).1⟩
    · trivial
  case edges =>
    intro b hb i hi l hl
    show live l ⊆ g.frame ++ live b.label ++ typing b.instrs
    rcases hblocks b hb with hb | rfl | rfl
    · have hmem : b ∈ g.body := mem_append_left _ hb
      have hold := h.edges b hmem i hi l hl
      rw [hlive _ (label_mem_labels hmem)]
      rcases hj.settled l with hs | ⟨-, hs | ⟨hs, -⟩⟩
      · rw [hs]; exact hold
      · rw [hs]; exact nil_subset _
      · exact absurd (mem_targets hmem hi hl) hs
    · rw [hlabel, typing_append, hdef, append_nil]
      rcases mem_append.mp hi with hi | hi
      · rw [successors_of_inner (hg.inner i (mem_append_right _ hi))] at hl
        simp at hl
      · obtain rfl := mem_singleton.mp hi
        exact fun p hp => hj.known l hl p hp
    · simp at hi
  case earlier =>
    intro l hl
    show live l ⊆ g.frame ++ typing (g.jump t label live reserved).bodyCode
    rw [hbody, typing_append, hdef, append_nil]
    have hr : l ∈ g.reserved := hl.elim (fun hl => hl ▸ hj.handedOut) fun hl =>
      ((hj.remaining l).mp hl).1
    rcases hj.settled l with hs | ⟨-, hs | ⟨-, hs⟩⟩
    · rw [hs]; exact h.earlier l (.inr hr)
    · rw [hs]; exact nil_subset _
    · rw [hs]; exact h.scope_subset
  case order =>
    show Scoped g.frame (g.jump t label live reserved).bodyCode
    rw [hbody]
    refine scoped_append.mpr ⟨h.order, scoped_singleton.mpr fun v hv => ?_⟩
    exact regIn_mono h.scope_subset (hj.operands v hv).1
  case first =>
    show live "entry" = []
    rw [hlive _ (mem_of_head? hs.first)]
    exact h.first

/-- Steps keep the code as it should be. -/
theorem Step.written (h : Step ctx P g g') (hg : g.Sound ctx P) (hs : g.Shaped)
    (hw : g.Written) : g'.Written := by
  cases h with
  | move h =>
    obtain ⟨slots, more, hwrites⟩ := h.writes hg
    refine hw.grow h.grows hwrites fun i hi => successors_of_inner ?_
    refine (h.sound hg).inner i (mem_append_right _ ?_)
    rw [hwrites.instrs]
    exact mem_append_right _ hi
  | label stem => exact hw.withLabel hg stem
  | jump h => exact hw.jump hg h hs
  | enterLoop label h => exact { hw with }
  | leaveLoop => exact { hw with }

theorem Fresh.shaped (h : g.Fresh) : g.Shaped where
  first := by simp [labels, body, h.done, h.label]
  distinct := by simp [labels, body, h.done]
  closed := by simp [h.done]
  entered := by simp [labels, body, h.done]

theorem Fresh.written (h : g.Fresh) : g.Written := by
  have hbody : g.bodyCode = [] := by simp [bodyCode, body, h.done, h.instrs]
  have hcode : g.code = [] := by simp [code, h.head, hbody]
  constructor
  case types => simp [hcode]
  case globals => simp [hcode]
  case params => simp [h.params, nodup_range]
  case bounds => simp [hcode, registers]
  case distinct => simp [hcode, registers]
  case slots => simp [h.head, Scoped]
  case blocks => simp [body, h.done, h.instrs, Scoped]
  case edges => simp [body, h.done, h.instrs]
  case earlier => simp [h.live]
  case order => simp [hbody, Scoped]
  case first => simp [h.live]

theorem Steps.written (h : Steps ctx P g g') (hfresh : g.Fresh) (hg : g.Sound ctx P) :
    g'.Shaped ∧ g'.Written := by
  induction h with
  | refl => exact ⟨hfresh.shaped, hfresh.written⟩
  | tail hsteps h ih =>
    have hsound := Steps.sound hsteps hg
    exact ⟨h.shaped hsound ih.1, h.written hsound ih.1 ih.2⟩

/-! ## Complete functions -/

theorem map_label_withHead (head : List Instr) (blocks : List Block) :
    (withHead head blocks).map (·.label) = blocks.map (·.label) := by
  cases blocks <;> simp [withHead]

theorem flatMap_withHead (head : List Instr) {blocks : List Block} (h : blocks ≠ []) :
    (withHead head blocks).flatMap (·.instrs) = head ++ blocks.flatMap (·.instrs) := by
  cases blocks with
  | nil => exact absurd rfl h
  | cons b rest => simp [withHead]

theorem mem_withHead {head : List Instr} {blocks : List Block} {b : Block}
    (h : b ∈ withHead head blocks) :
    b ∈ blocks ∨ ∃ b' ∈ blocks, blocks.head? = some b' ∧
      b = { b' with instrs := head ++ b'.instrs } := by
  cases blocks with
  | nil => simp [withHead] at h
  | cons b' rest =>
    rcases mem_cons.mp h with rfl | h
    · exact .inr ⟨b', mem_cons_self, rfl, rfl⟩
    · exact .inl (mem_cons_of_mem _ h)

namespace Completes

variable {start : Stage} {t : Instr}

theorem targets_eq (h : Completes ctx P start g t) : (g.effect t).targets = g.targets := by
  obtain ⟨v, rfl⟩ := h.returns
  simp [Stage.targets, body, Stage.effect, build, Instr.successors]

theorem grows (h : Completes ctx P start g t) : Grows g (g.effect t) :=
  { Grows.refl g with instrs := prefix_append _ _, targets := h.targets_eq }

theorem isTerminator (h : Completes ctx P start g t) : t.isTerminator = true := by
  obtain ⟨v, rfl⟩ := h.returns
  rfl

theorem writes (h : Completes ctx P start g t) : Writes g (g.effect t) [] [t] := by
  refine .one rfl rfl rfl h.operands h.types (.inl ?_)
  obtain ⟨v, rfl⟩ := h.returns
  rfl

theorem shaped (h : Completes ctx P start g t) : (g.effect t).Shaped :=
  (Steps.written h.steps h.fresh h.origin).1.grow h.grows

theorem written (h : Completes ctx P start g t) : (g.effect t).Written := by
  refine (Steps.written h.steps h.fresh h.origin).2.grow h.grows h.writes fun i hi => ?_
  obtain ⟨v, rfl⟩ := h.returns
  obtain rfl := mem_singleton.mp hi
  rfl

theorem blocks (h : Completes ctx P start g t) :
    (g.complete t).blocks = withHead g.head (g.effect t).body := by
  have hpush := withHead_push g.head g.done g.label g.instrs t
  rw [← body, ← h.sound.layout, ← h.sound.current] at hpush
  exact hpush

theorem labels (h : Completes ctx P start g t) : (g.complete t).labels = (g.effect t).labels := by
  rw [Func.labels, h.blocks, map_label_withHead]
  rfl

theorem instrs (h : Completes ctx P start g t) : (g.complete t).instrs = (g.effect t).code := by
  rw [Func.instrs, h.blocks, flatMap_withHead _ (by simp [body])]
  rfl

theorem targets (h : Completes ctx P start g t) {l : String} :
    l ∈ (g.complete t).targets ↔ l ∈ (g.effect t).targets := by
  have hhead : g.head.flatMap Instr.successors = [] := flatMap_eq_nil_iff.mpr fun i hi =>
    successors_of_inner (h.sound.inner i (mem_append_left _ hi))
  rw [Func.targets, h.instrs, code, flatMap_append]
  show l ∈ g.head.flatMap Instr.successors ++ _ ↔ _
  rw [hhead]
  rfl

end Completes

end

end Stage

end Lowering

end ScriptCompiler
