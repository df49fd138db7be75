import ScriptCompiler.Proofs.Stage.Expr

/-!
# Changes of blocks

A statement leaves its block only to labels that it hands out itself, to the end of the loop around
it, or to the end of the program. `Opens extra ends g g'` says what happened to labels between two
stages: those in `extra` are handed out and still unused, and the loops that end in `ends` are open.
A whole statement opens nothing (`Keeps`). Whatever is added leads forward: it jumps to no block that
was there.
-/

namespace ScriptCompiler.Lowering

open Ir List

namespace Stage

/-- From `g` to `g'` the labels `extra` were handed out and are unused, the loops that end in `ends`
were begun, and all else that concerns labels is as it was. -/
structure Opens (extra ends : List String) (g g' : Stage) : Prop where
  reserved : ∀ l, l ∈ g'.reserved ↔ l ∈ g.reserved ∨ l ∈ extra
  nodup : extra.Nodup
  fresh : ∀ l ∈ extra, l ∉ g.labels ∧ l ∉ g.reserved
  live : ∀ l, l ∈ g.labels ∨ l ∈ g.reserved → g'.live l = g.live l
  labels : g.labels <+: g'.labels
  forward : ∃ more, g'.targets = g.targets ++ more ∧ ∀ l ∈ more, l ∉ g.labels
  loopEnds : g'.state.loopEnds = ends ++ g.state.loopEnds
  mode : g'.state.scope = g.state.scope

/-- From `g` to `g'` all that concerns labels is as it was. -/
abbrev Keeps (g g' : Stage) : Prop := Opens [] [] g g'

/-- The places that a statement may leave to expect no values of earlier blocks: the ends of the
loops around it, and the end of a program. -/
structure Ready (ctx : Context) (g : Stage) : Prop where
  loops : ∀ l ∈ g.state.loopEnds, l ∈ g.reserved ∧ g.live l = []
  exit : Tracks ctx g.state → exitLabel ∈ g.reserved ∧ g.live exitLabel = []

/-- What can be read in one stage can be read in another, in whatever block. -/
structure Sees (ctx : Context) (P : Lexicon) (g g' : Stage) : Prop where
  has : ∀ v, g.Has v → g'.Has v
  cell : ∀ v ty, g.Cell ctx P v ty → g'.Cell ctx P v ty

section

variable {ctx : Context} {P : Lexicon} {g g' g'' : Stage} {extra ends : List String}

theorem Keeps.refl (g : Stage) : Keeps g g where
  reserved := by simp
  nodup := nodup_nil
  fresh := by simp
  live := fun _ _ => rfl
  labels := prefix_rfl
  forward := ⟨[], by simp⟩
  loopEnds := rfl
  mode := rfl

/-- What happens to labels in two stretches, one after the other. -/
theorem Opens.trans {more later : List String} (h : Opens extra ends g g')
    (h' : Opens more later g' g'') : Opens (extra ++ more) (later ++ ends) g g'' where
  reserved := fun l => by rw [h'.reserved, h.reserved, mem_append, or_assoc]
  nodup := nodup_append.mpr ⟨h.nodup, h'.nodup, fun l hl k hk heq =>
    (h'.fresh k hk).2 ((h.reserved k).mpr (.inr (heq ▸ hl)))⟩
  fresh := fun l hl => (mem_append.mp hl).elim (h.fresh l) fun hl =>
    ⟨fun hmem => (h'.fresh l hl).1 (h.labels.subset hmem),
      fun hmem => (h'.fresh l hl).2 ((h.reserved l).mpr (.inl hmem))⟩
  live := fun l hl => by
    rw [h'.live l (hl.imp (fun hl => h.labels.subset hl) fun hl => (h.reserved l).mpr (.inl hl)),
      h.live l hl]
  labels := h.labels.trans h'.labels
  forward := by
    obtain ⟨added, htargets, hadded⟩ := h.forward
    obtain ⟨added', htargets', hadded'⟩ := h'.forward
    exact ⟨added ++ added', by rw [htargets', htargets, append_assoc], forall_mem_append.mpr
      ⟨hadded, fun l hl hmem => hadded' l hl (h.labels.subset hmem)⟩⟩
  loopEnds := by rw [h'.loopEnds, h.loopEnds, append_assoc]
  mode := h'.mode.trans h.mode

theorem Opens.keeps (h : Opens extra ends g g') (h' : Keeps g' g'') : Opens extra ends g g'' := by
  simpa using h.trans h'

theorem Opens.targets (h : Opens extra ends g g') : g.targets ⊆ g'.targets := by
  obtain ⟨more, htargets, -⟩ := h.forward
  exact htargets ▸ subset_append_left _ _

/-- A stretch that stays in its block opens nothing. -/
theorem Grows.keeps (h : Grows g g') : Keeps g g' where
  reserved := by simp [h.reserved]
  nodup := nodup_nil
  fresh := by simp
  live := fun l _ => by rw [h.live]
  labels := by
    rw [Stage.labels, Stage.labels, body, body, h.done, h.label]
    simp
  forward := ⟨[], by simp [h.targets]⟩
  loopEnds := h.loopEnds
  mode := h.mode

theorem Ready.opens (h : g.Ready ctx) (h' : Opens extra ends g g')
    (hends : ∀ l ∈ ends, l ∈ g'.reserved ∧ g'.live l = []) : g'.Ready ctx where
  loops := fun l hl => by
    rw [h'.loopEnds, mem_append] at hl
    refine hl.elim (hends l) fun hl => ⟨(h'.reserved l).mpr (.inl (h.loops l hl).1), ?_⟩
    rw [h'.live l (.inr (h.loops l hl).1), (h.loops l hl).2]
  exit := fun ht => by
    have hexit := h.exit ⟨h'.mode ▸ ht.1, ht.2⟩
    exact ⟨(h'.reserved _).mpr (.inl hexit.1), (h'.live _ (.inr hexit.1)).trans hexit.2⟩

theorem Ready.keeps (h : g.Ready ctx) (h' : Keeps g g') : g'.Ready ctx :=
  h.opens h' (by simp)

theorem Grows.sees (h : Grows g g') : Sees ctx P g g' :=
  ⟨fun _ => h.has, fun _ _ => h.cell⟩

theorem Sees.trans (h : Sees ctx P g g') (h' : Sees ctx P g' g'') : Sees ctx P g g'' :=
  ⟨fun v hv => h'.has v (h.has v hv), fun v ty hv => h'.cell v ty (h.cell v ty hv)⟩

theorem Sees.hasType (h : Sees ctx P g g') {v : Value} {ty : Ty} (hv : g.HasType v ty) :
    g'.HasType v ty :=
  ⟨h.has v hv.1, hv.2⟩

theorem Sees.holds (h : Sees ctx P g g') {v : Typed} (hv : g.Holds P v) : g'.Holds P v :=
  { hv with has := h.has _ hv.has }

theorem Step.persists (h : Step ctx P g g') : Persists g g' := by
  cases h with
  | move h => exact h.grows.toPersists
  | label stem => exact { Persists.refl g with }
  | jump h => exact { Persists.refl g with }
  | enterLoop label h => exact { Persists.refl g with }
  | leaveLoop => exact { Persists.refl g with }

theorem Steps.persists (h : Steps ctx P g g') : Persists g g' := by
  induction h with
  | refl => exact Persists.refl g
  | tail _ h ih => exact ih.trans h.persists

theorem Steps.cell (h : Steps ctx P g g') {v : Value} {ty : Ty} (hv : g.Cell ctx P v ty) :
    g'.Cell ctx P v ty :=
  hv.mono h.persists.head.subset h.persists.globals

theorem Steps.sees (h : Steps ctx P g g') (hlive : g'.live g'.label = g.scope) :
    Sees ctx P g g' where
  has := fun _ hv => ⟨regIn_mono (fun _ hp => mem_scope.mpr (.inr (.inl (hlive ▸ hp)))) hv.1,
    Grows.sane h.persists.globals hv.2⟩
  cell := fun _ _ hv => h.cell hv

/-! ## Labels -/

/-- A label that is handed out is new. -/
theorem Opens.withLabel (h : Opens extra ends g g') (hg : g'.Sound ctx P) (stem : String) :
    Opens (extra ++ [stem ++ "_" ++ toString g'.state.labels]) ends g (g'.withLabel stem) := by
  have hnew := fun l hl => hg.label_ne stem (l := l) hl
  have hstep : Opens [stem ++ "_" ++ toString g'.state.labels] [] g' (g'.withLabel stem) := {
    reserved := fun l => by simp [Stage.withLabel, or_comm]
    nodup := by simp
    fresh := fun l hl => by
      rw [mem_singleton] at hl
      exact ⟨fun hmem => hnew l (mem_append_left _ hmem) hl,
        fun hmem => hnew l (mem_append_right _ hmem) hl⟩
    live := fun l hl => if_neg (hnew l (mem_append.mpr hl))
    labels := prefix_rfl
    forward := ⟨[], by simp [Stage.withLabel, Stage.targets, body]⟩
    loopEnds := rfl
    mode := rfl }
  exact h.trans hstep

theorem runs_freshLabel {β : Type} {stem : String} {f : String → Lower β} {R : Stage → β → Prop}
    (k : Runs ctx P (g.withLabel stem) (f (stem ++ "_" ++ toString g.state.labels)) R) :
    Runs ctx P g (freshLabel stem >>= f) R := by
  have hstep : Step ctx P g (g.withLabel stem) := .label stem
  refine (hstep.runs (Q := fun g' l => g' = g.withLabel stem ∧
    l = stem ++ "_" ++ toString g.state.labels) rfl ⟨rfl, rfl⟩).bind ?_
  rintro _ _ - ⟨rfl, rfl⟩
  exact k

/-- The label that is handed out after `skip` others. -/
def newLabel (g : Stage) (stem : String) (skip : Nat) : String :=
  stem ++ "_" ++ toString (g.state.labels + skip)

/-- Three labels are handed out. -/
def withLabels (g : Stage) (a b c : String) : Stage :=
  ((g.withLabel a).withLabel b).withLabel c

theorem runs_threeLabels {β : Type} {a b c : String} {f : String → String → String → Lower β}
    {R : Stage → β → Prop}
    (k : Opens [g.newLabel a 0, g.newLabel b 1, g.newLabel c 2] [] g (g.withLabels a b c) →
      (∀ l ∈ [g.newLabel a 0, g.newLabel b 1, g.newLabel c 2], (g.withLabels a b c).live l = []) →
      Sees ctx P g (g.withLabels a b c) →
      Runs ctx P (g.withLabels a b c) (f (g.newLabel a 0) (g.newLabel b 1) (g.newLabel c 2)) R) :
    Runs ctx P g (do
      let la ← freshLabel a
      let lb ← freshLabel b
      let lc ← freshLabel c
      f la lb lc) R := by
  refine Leads.sound fun hg => runs_freshLabel (runs_freshLabel (runs_freshLabel ?_))
  have hg1 := hg.withLabel a
  have hg2 := hg1.withLabel b
  have hopens := (((Keeps.refl g).withLabel hg a).withLabel hg1 b).withLabel hg2 c
  refine k hopens ?_ ⟨fun v hv => ⟨?_, hv.2⟩, fun v ty hv => ?_⟩
  · intro l hl
    simp only [mem_cons, not_mem_nil, or_false] at hl
    rcases hl with rfl | rfl | rfl <;> simp [Stage.withLabel, withLabels, newLabel]
  · rw [withLabels, hg2.scope_withLabel, hg1.scope_withLabel, hg.scope_withLabel]
    exact hv.1
  · exact hv.mono (List.Subset.refl _) (List.Subset.refl _)

theorem Sound.targets_eq (hg : g.Sound ctx P) :
    g.targets = (g.done.flatMap (·.instrs)).flatMap Instr.successors := by
  have hinstrs : g.instrs.flatMap Instr.successors = [] :=
    flatMap_eq_nil_iff.mpr fun i hi =>
      successors_of_inner (hg.inner i (mem_append_right _ hi))
  simp [Stage.targets, body, hinstrs]

/-! ## Jumps -/

/-- A jump after which every label may read what it could. -/
def goto (g : Stage) (t : Instr) (label : String) : Stage :=
  g.jump t label g.live (g.reserved.filter (· ≠ label))

/-- What holds of such a jump. -/
abbrev Gotos (ctx : Context) (g : Stage) (t : Instr) (label : String) : Prop :=
  Jumps ctx g t label g.live (g.reserved.filter (· ≠ label))

theorem jumps_goto {t : Instr} {label : String} (hterm : t.isTerminator = true)
    (hops : ∀ v ∈ t.operands, g.Has v) (htypes : t.expected? g.func.ret = none)
    (hreturns : ∀ v, t = .ret v → ¬ Tracks ctx g.state)
    (htargets : ∀ l ∈ t.successors, (l ∈ g.reserved ∨ l ∈ g.labels.tail) ∧ g.live l = [])
    (hlabel : label ∈ g.reserved)
    (hentered : label ∈ g.targets ∨ label ∈ t.successors ∨ IsDead label)
    (hclosed : label ∉ g.state.loopEnds) : Gotos ctx g t label where
  terminator := hterm
  operands := hops
  types := htypes
  returns := hreturns
  targets := fun l hl => (htargets l hl).1
  known := fun l hl p hp => by
    rw [(htargets l hl).2] at hp
    simp at hp
  settled := fun _ => .inl rfl
  handedOut := hlabel
  entered := hentered
  closed := hclosed
  remaining := by simp

/-- The first of two labels that are both entered from here with all that is in scope begins a
block. -/
theorem jumps_branch {flag : Value} {yes no : String} (hflag : g.HasType flag .bool)
    (hyes : yes ∈ g.reserved) (hno : no ∈ g.reserved) (hyes' : yes ∉ g.targets)
    (hno' : no ∉ g.targets) (hclosed : yes ∉ g.state.loopEnds) :
    Jumps ctx g (.condBr flag yes no) yes
      (fun l => if l = yes ∨ l = no then g.scope else g.live l)
      (g.reserved.filter (· ≠ yes)) where
  terminator := rfl
  operands := by simpa [Instr.operands] using hflag.1
  types := by simp [Instr.expected?, hflag.2]
  returns := fun v h => by simp at h
  targets := fun l hl => .inl (by
    simp only [Instr.successors, mem_cons, not_mem_nil, or_false] at hl
    rcases hl with rfl | rfl
    · exact hyes
    · exact hno)
  known := fun l hl p hp => by
    simp only [Instr.successors, mem_cons, not_mem_nil, or_false] at hl
    rwa [if_pos hl] at hp
  settled := fun l => by
    by_cases h : l = yes ∨ l = no
    · refine .inr ⟨?_, .inr ⟨?_, if_pos h⟩⟩
      · rcases h with rfl | rfl
        · exact hyes
        · exact hno
      · rcases h with rfl | rfl
        · exact hyes'
        · exact hno'
    · exact .inl (if_neg h)
  handedOut := hyes
  entered := .inr (.inl (by simp [Instr.successors]))
  closed := hclosed
  remaining := by simp

theorem targets_jump (g : Stage) (t : Instr) (label : String) (live : String → Typing)
    (reserved : List String) : (g.jump t label live reserved).targets = g.targets ++ t.successors := by
  simp [Stage.targets, body, Stage.jump]

/-- The first of the labels that are handed out begins a block. -/
theorem Opens.jump {t : Instr} {label : String} {live : String → Typing} {reserved : List String}
    (h : Opens (label :: extra) ends g g') (hj : Jumps ctx g' t label live reserved)
    (hlive : ∀ l, l ∈ g.labels ∨ l ∈ g.reserved → live l = g'.live l)
    (hforward : ∀ l ∈ t.successors, l ∉ g.labels) :
    Opens extra ends g (g'.jump t label live reserved) where
  reserved := fun l => by
    have hne : l ∈ g.reserved → l ≠ label := fun hl heq =>
      (h.fresh label mem_cons_self).2 (heq ▸ hl)
    have hout : l ∈ extra → l ≠ label := fun hl heq => (nodup_cons.mp h.nodup).1 (heq ▸ hl)
    show l ∈ reserved ↔ _
    rw [hj.remaining, h.reserved, mem_cons]
    tauto
  nodup := (nodup_cons.mp h.nodup).2
  fresh := fun l hl => h.fresh l (mem_cons_of_mem _ hl)
  live := fun l hl => (hlive l hl).trans (h.live l hl)
  labels := by
    refine h.labels.trans ?_
    simp [Stage.labels, body, Stage.jump]
  forward := by
    obtain ⟨added, htargets, hadded⟩ := h.forward
    refine ⟨added ++ t.successors, ?_, forall_mem_append.mpr ⟨hadded, hforward⟩⟩
    rw [targets_jump, htargets, append_assoc]
  loopEnds := h.loopEnds
  mode := h.mode

theorem Opens.notMem_loopEnds (h : Opens extra [] g g') (hg : g.Sound ctx P) {l : String}
    (hl : l ∈ extra) : l ∉ g'.state.loopEnds := by
  rw [h.loopEnds]
  exact fun hmem => (h.fresh l hl).2 (hg.loopEnds l hmem)

theorem mem_targets_jump {t : Instr} {label l : String} {live : String → Typing}
    {reserved : List String} (h : l ∈ t.successors) :
    l ∈ (g.jump t label live reserved).targets := by
  rw [targets_jump]
  exact mem_append_right _ h

theorem positionAtEnd_appendBlock {b : Builder} {label : String}
    (h : label ∉ b.func.blocks.map (·.label)) :
    (b.appendBlock label).positionAtEnd label =
      .ok { b.appendBlock label with current := b.func.blocks.length } := by
  have hfind : (b.func.blocks ++ [(⟨label, []⟩ : Block)]).findIdx? (fun x => x.label = label) =
      some b.func.blocks.length := by
    rw [List.findIdx?_append, List.findIdx?_eq_none_iff.mpr]
    · simp
    · intro x hx
      have hne : x.label ≠ label := fun heq => h (mem_map.mpr ⟨x, hx, heq⟩)
      simpa using hne
  unfold Builder.positionAtEnd Builder.appendBlock
  dsimp only
  rw [hfind]

theorem run_openBlock (hg : g.Sound ctx P) {t : Instr} {label : String} {live : String → Typing}
    {reserved : List String} (hlabel : label ∉ g.labels) :
    openBlock label ctx (g.effect t).state = .ok ((), (g.jump t label live reserved).state) := by
  have hpush := withHead_push g.head g.done g.label g.instrs t
  rw [← body, ← hg.layout, ← hg.current] at hpush
  have hblocks : (g.state.builder.push t).func.blocks = withHead g.head (g.effect t).body := hpush
  have hlabels : (g.state.builder.push t).func.blocks.map (·.label) = g.labels := by
    rw [hblocks, Stage.labels]
    cases hdone : g.done <;> simp [withHead, body, hdone, effect, build]
  have hlength : (g.state.builder.push t).func.blocks.length = g.state.builder.current + 1 := by
    rw [← length_map (·.label), hlabels, hg.current]
    simp [Stage.labels, body]
  have hpos := positionAtEnd_appendBlock (b := g.state.builder.push t) (hlabels ▸ hlabel)
  show (liftM (((g.state.builder.push t).appendBlock label).positionAtEnd label) >>= fun builder =>
    modify fun s => { s with builder } : Lower Unit) ctx _ = _
  rw [hpos, hlength]
  rfl

theorem runs_jump {t : Instr} {label : String} {live : String → Typing} {reserved : List String}
    (h : Jumps ctx g t label live reserved) :
    Runs ctx P g (do Emit.push t; openBlock label) fun g' _ => g' = g.jump t label live reserved :=
  Leads.sound fun hg => (Step.jump h).runs (run_openBlock hg (hg.fresh label h.handedOut)) rfl

/-- The current block is not complete before it is left. -/
theorem Sound.isTerminated (hg : g.Sound ctx P) : g.state.builder.isTerminated = false := by
  have hblock : ∃ b, g.state.builder.currentBlock? = some b ∧
      ∀ i ∈ b.instrs, i.isTerminator = false := by
    rw [Builder.currentBlock?, hg.current]
    show ∃ b, g.func.blocks[g.done.length]? = some b ∧ _
    rw [hg.layout, body]
    cases hdone : g.done with
    | nil => exact ⟨_, rfl, hg.inner⟩
    | cons d rest =>
      exact ⟨⟨g.label, g.instrs⟩, by simp [withHead], fun i hi => hg.inner i (by simp [hi])⟩
  obtain ⟨b, hb, hinner⟩ := hblock
  rw [Builder.isTerminated, hb]
  cases hlast : b.instrs.getLast? with
  | none => simp [Block.isTerminated, Block.terminator?, hlast]
  | some i =>
    simp [Block.isTerminated, Block.terminator?, hlast, hinner i (mem_of_getLast? hlast)]

theorem Sound.run_unlessTerminated (hg : g.Sound ctx P) (m : Lower Unit) :
    (do unless ← Lowering.isTerminated do m : Lower Unit) ctx g.state = m ctx g.state := by
  show (if g.state.builder.isTerminated = true then pure () else m : Lower Unit) ctx g.state = _
  rw [hg.isTerminated]
  rfl

/-- A block ends by going on to `join`, and a new one is begun. -/
theorem runs_leave {leave : Lower Unit} {label join : String}
    (hleave : g.Sound ctx P → leave ctx g.state = emit (Emit.br join) ctx g.state)
    (hjoin : join ∈ g.reserved ∨ join ∈ g.labels.tail) (hlive : g.live join = [])
    (hlabel : label ∈ g.reserved) (hentered : label ∈ g.targets ∨ label = join)
    (hclosed : label ∉ g.state.loopEnds) :
    Runs ctx P g (do leave; openBlock label) fun g' _ =>
      g' = g.goto (.br join) label ∧ Gotos ctx g (.br join) label := by
  refine Leads.sound fun hg => ?_
  have hj : Gotos ctx g (.br join) label := by
    refine jumps_goto rfl (by simp [Instr.operands]) rfl (by simp) ?_ hlabel ?_ hclosed
    · simpa [Instr.successors] using ⟨hjoin, hlive⟩
    · exact hentered.imp id fun h => .inl (by simp [Instr.successors, h])
  refine (Step.jump hj).runs (a := ()) ?_ ⟨rfl, hj⟩
  exact (run_bind_ok (hleave hg)).trans (run_openBlock hg (hg.fresh label hlabel))

theorem runs_branch {flag : Value} {yes no join : String} (hg : g.Sound ctx P)
    (hopens : Opens [yes, no, join] [] g g') (hdone : g'.done = g.done)
    (hjoin : g'.live join = []) (hflag : g'.HasType flag .bool) :
    Runs ctx P g' (do Emit.condBr flag yes no; openBlock yes) fun g1 _ =>
      (∃ live reserved, (∀ l, l ∈ reserved ↔ l ∈ g'.reserved ∧ l ≠ yes) ∧
        g1 = g'.jump (.condBr flag yes no) yes live reserved) ∧
        Opens [no, join] [] g g1 ∧ Sees ctx P g' g1 ∧ g1.live no = g'.scope ∧ g1.live join = [] ∧
        no ∈ g1.targets := by
  refine Leads.sound fun hg' => ?_
  -- Nothing jumps to the new labels yet.
  have hunused : ∀ l ∈ [yes, no, join], l ∉ g'.targets := by
    intro l hl hmem
    rw [hg'.targets_eq, hdone, ← hg.targets_eq] at hmem
    rcases hg.targets l hmem with h | h
    · exact (hopens.fresh l hl).2 h
    · exact (hopens.fresh l hl).1 (mem_of_mem_tail h)
  have hreserved : ∀ l ∈ [yes, no, join], l ∈ g'.reserved := fun l hl =>
    (hopens.reserved l).mpr (.inr hl)
  obtain ⟨⟨-, hne⟩, hne'⟩ : (yes ≠ no ∧ yes ≠ join) ∧ no ≠ join := by
    simpa using hopens.nodup
  have hj : Jumps ctx g' (.condBr flag yes no) yes _ _ :=
    jumps_branch hflag (hreserved yes (by simp)) (hreserved no (by simp))
      (hunused yes (by simp)) (hunused no (by simp)) (hopens.notMem_loopEnds hg (by simp))
  have hold : ∀ l, l ∈ g.labels ∨ l ∈ g.reserved →
      (if l = yes ∨ l = no then g'.scope else g'.live l) = g'.live l := by
    intro l hl
    refine if_neg ?_
    rintro (rfl | rfl)
    · exact hl.elim (hopens.fresh l (by simp)).1 (hopens.fresh l (by simp)).2
    · exact hl.elim (hopens.fresh l (by simp)).1 (hopens.fresh l (by simp)).2
  refine Leads.mono (runs_jump hj) ?_
  rintro g1 - hs rfl
  refine ⟨⟨_, _, hj.remaining, rfl⟩, hopens.jump hj hold
    fun l hl => (hopens.fresh l (mem_append_left [join] hl)).1, Steps.sees hs (if_pos (.inl rfl)),
    if_pos (.inr rfl), ?_, mem_targets_jump (by simp [Instr.successors])⟩
  exact (if_neg (by rintro (h | h) <;> [exact hne h.symm; exact hne' h.symm])).trans hjoin

/-- No relation is asked for. -/
abbrev Any : Stage → Stage → Prop := fun _ _ => True

/-- From `g` a test leads into one of two stretches, which `First` and `Second` relate and which have
the labels `yes` and `no`, and both go on to `g'`, at the label `join`. -/
def Branches (First Second : Stage → Stage → Prop) (flag : Value) (yes no join : String)
    (g g' : Stage) : Prop :=
  ∃ live reserved g₁ g₂, (∀ l, l ∈ reserved ↔ l ∈ g.reserved ∧ l ≠ yes) ∧
    First (g.jump (.condBr flag yes no) yes live reserved) g₁ ∧
    Second (g₁.goto (.br join) no) g₂ ∧ g' = g₂.goto (.br join) join

/-- Two ways from a test to one place. Each way sees all that the test saw, and `leave` goes on to
the place where they meet. -/
theorem runs_diamond {First Second : Stage → Stage → Prop} {flag : Value} {yes no join : String}
    {first second : Lower Unit} (leave : Lower Unit) (hg : g.Sound ctx P) (hready : g.Ready ctx)
    (hopens : Opens [yes, no, join] [] g g') (hdone : g'.done = g.done)
    (hjoin : g'.live join = []) (hflag : g'.HasType flag .bool)
    (hleave : ∀ g1 : Stage, g1.Sound ctx P →
      leave ctx g1.state = emit (Emit.br join) ctx g1.state)
    (hfirst : ∀ g1, Steps ctx P g' g1 → Sees ctx P g' g1 → g1.Ready ctx →
      Runs ctx P g1 first fun g2 _ => Keeps g1 g2 ∧ First g1 g2)
    (hsecond : ∀ g1, Steps ctx P g' g1 → Sees ctx P g' g1 → g1.Ready ctx →
      Runs ctx P g1 second fun g2 _ => Keeps g1 g2 ∧ Second g1 g2) :
    Runs ctx P g' (do
      Emit.condBr flag yes no
      openBlock yes
      first
      leave
      openBlock no
      second
      leave
      openBlock join) fun g2 _ => Keeps g g2 ∧ Branches First Second flag yes no join g' g2 := by
  refine Leads.seq (runs_branch hg hopens hdone hjoin hflag) ?_
  rintro g1 hs1 ⟨⟨live, reserved, hremaining, hg1⟩, hopens1, hsees1, hno1, hjoin1, htarget1⟩
  refine Leads.bind (hfirst g1 hs1 hsees1 (hready.opens hopens1 (by simp))) fun g2 _ hs2 h2 => ?_
  obtain ⟨hkeeps2, hfirst2⟩ := h2
  have hopens2 := hopens1.keeps hkeeps2
  have hreserved1 : ∀ l ∈ [no, join], l ∈ g1.reserved := fun l hl =>
    (hopens1.reserved l).mpr (.inr hl)
  have hreserved2 : ∀ l ∈ [no, join], l ∈ g2.reserved := fun l hl =>
    (hopens2.reserved l).mpr (.inr hl)
  have hlive2 : ∀ l ∈ [no, join], g2.live l = g1.live l := fun l hl =>
    hkeeps2.live l (.inr (hreserved1 l hl))
  have hjoin2 : g2.live join = [] := (hlive2 join (by simp)).trans hjoin1
  refine Leads.seq (runs_leave (hleave g2) (.inl (hreserved2 join (by simp))) hjoin2
    (hreserved2 no (by simp)) (.inl (hkeeps2.targets htarget1))
    (hopens2.notMem_loopEnds hg (by simp))) ?_
  rintro g3 hs3 ⟨rfl, hj3⟩
  have hforward : ∀ l ∈ (Instr.br join).successors, l ∉ g.labels := by
    simpa [Instr.successors] using (hopens.fresh join (by simp)).1
  have hopens3 := hopens2.jump hj3 (fun _ _ => rfl) hforward
  have hsees3 : Sees ctx P g' (g2.goto (.br join) no) :=
    Steps.sees ((hs1.trans hs2).trans hs3) ((hlive2 no (by simp)).trans hno1)
  refine Leads.bind (hsecond _ ((hs1.trans hs2).trans hs3) hsees3
    (hready.opens hopens3 (by simp))) fun g4 _ _ h4 => ?_
  obtain ⟨hkeeps4, hsecond4⟩ := h4
  have hopens4 := hopens3.keeps hkeeps4
  have hreserved4 : join ∈ g4.reserved := (hopens4.reserved join).mpr (.inr (by simp))
  have hjoin4 : g4.live join = [] :=
    (hkeeps4.live join (.inr ((hopens3.reserved join).mpr (.inr (by simp))))).trans hjoin2
  refine Leads.mono (runs_leave (hleave g4) (.inl hreserved4) hjoin4 hreserved4 (.inr rfl)
    (hopens4.notMem_loopEnds hg (by simp))) ?_
  rintro g5 - - ⟨rfl, hj5⟩
  refine ⟨hopens4.jump hj5 (fun _ _ => rfl) hforward, live, reserved, g2, g4, hremaining, ?_,
    hsecond4, rfl⟩
  rwa [hg1] at hfirst2

end

end Stage

end ScriptCompiler.Lowering
