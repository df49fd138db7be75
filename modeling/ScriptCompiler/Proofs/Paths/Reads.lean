import ScriptCompiler.Proofs.Dominance
import ScriptCompiler.Proofs.Paths.Lookup

/-!
# Where a variable is made

In a function whose text reads no name ahead, some place of the code comes before a variable is made,
such that the code behind it leads to new blocks only, defines registers that were not in use there,
and does not read the name from outside (`Cuts`). Statements that follow are such code, since the name
is assigned further up then (`Cuts.block`), and so is a loop that keeps the rules as a whole
(`Cuts.statement`). So there is such a place in every text (`cuts_block`).
-/

namespace ScriptCompiler.Lowering

open Ir List
open Numeric (assigned assignedAll)
open Access (Local Makes PerformsAt SameTables sameTables_expr sameTables_test)

namespace Stage

/-- What may stand behind a place of the code: it leads to new blocks, defines new registers, and does
not read `x` from outside. -/
structure Behind (ctx : Context) (names : List String) (x : String) (cut : Stage) (i : Instr) :
    Prop where
  leads : ∀ l ∈ i.successors, l ∉ cut.labels
  defines : ∀ r, i.dst? = some r → cut.next ≤ r
  spares : ¬ ReadsOutside ctx.naming names x i

/-- The stage `cut` comes before the variable `x` is made, and all code from there on may stand behind
it. -/
structure Cuts (ctx : Context) (names : List String) (x : String)
    (start cut g : Stage) : Prop where
  steps : Steps ctx .any start cut
  prolongs : Prolongs cut g
  next : cut.next ≤ g.next
  slot : ∀ b, g.state.own.lookup x = some b → ∃ r, b.slot = .reg r .ptr ∧ cut.next ≤ r
  adds : Adds (Behind ctx names x cut) cut g

/-- What is known of the stage in which a function begins, and of the names that it reads. -/
structure Begins (ctx : Context) (names : List String) (x : String) (start : Stage) : Prop where
  fresh : start.Fresh
  sound : start.Sound ctx .any
  dotless : Dotless x
  names : ∀ name ∈ names, Dotless name

/-- A stretch of the lowering, from a stage that is reached from `start`. -/
structure Stretch (ctx : Context) (start : Stage) (m : Lower Unit) (g g' : Stage) : Prop where
  origin : Steps ctx .any start g
  steps : Steps ctx .any g g'
  keeps : Keeps g g'
  run : m ctx g.state = .ok ((), g'.state)

section

variable {ctx : Context} {P : Lexicon} {names bound new : List String} {x : String}
  {start cut g g' : Stage} {m : Lower Unit} {i : Instr} {D : Rules} {noted : List Routine}
  {made : List (String × Binding)} {s s' : State}

theorem Sound.instrs_eq (hg : g.Sound ctx P) : g.func.instrs = g.code := by
  rw [Func.instrs, hg.layout, flatMap_withHead _ (by simp [body])]
  rfl

theorem Written.operand_lt (h : g.Written) (hi : i ∈ g.bodyCode) {r : Reg} {ty : Ty}
    (hr : .reg r ty ∈ i.operands) : r < g.next := by
  obtain ⟨above, below, hcode⟩ := append_of_mem hi
  have hscoped := h.order
  rw [hcode] at hscoped
  have hdefined : ∀ {instrs : List Instr}, instrs ⊆ g.code → (r, ty) ∈ typing instrs → r < g.next := by
    intro instrs hsub hmem
    obtain ⟨j, hj, hdst, -⟩ := mem_typing hmem
    exact (h.bounds r (mem_filterMap.mpr ⟨j, hsub hj, hdst⟩)).2
  rcases mem_append.mp (hscoped.at _ hr r rfl) with hframe | habove
  · rcases mem_frame.mp hframe with hparam | hhead
    · exact h.params.2 r (mem_map.mpr ⟨_, hparam, rfl⟩)
    · exact hdefined (subset_append_left _ _) hhead
  · refine hdefined (subset_append_of_subset_right _ ?_) habove
    rw [hcode]
    exact subset_append_left _ _

theorem Step.head_null (h : Step ctx P g g') {value ptr : Value}
    (hg : .store value ptr ∈ g.head → value = .null) :
    .store value ptr ∈ g'.head → value = .null := by
  cases h with
  | label | jump | enterLoop | leaveLoop => exact hg
  | move h =>
    cases h with
    | slot ty =>
      intro hmem
      exact (mem_append.mp hmem).elim hg (by simp)
    | nullSlot =>
      intro hmem
      refine (mem_append.mp hmem).elim hg fun hnew => ?_
      simp only [mem_cons, reduceCtorEq, Instr.store.injEq, not_mem_nil, or_false,
        false_or] at hnew
      exact hnew.1
    | _ => exact hg

theorem Steps.head_null (h : Steps ctx P g g') (hg : g.Fresh) {value ptr : Value} :
    .store value ptr ∈ g'.head → value = .null := by
  induction h with
  | refl => simp [hg.head]
  | tail _ hstep ih => exact hstep.head_null ih

/-- Where it does not matter where addresses go, there is always a place for the next instruction. -/
theorem Sound.hosts {A : Access} (hg : g.Sound ctx P) (honce : DefinedOnce A.code)
    (hconfines : ¬ A.confines) : A.Hosts g.state.builder := by
  have hlayout : g.state.builder.func.blocks = withHead g.head g.body := hg.layout
  refine ⟨honce, fun block hblock => ?_, ?_, fun _ _ hconfined => hconfines hconfined.1⟩
  · rw [hg.entryInsert]
    rw [hlayout] at hblock
    cases hbody : g.body with
    | nil => simp [hbody, withHead] at hblock
    | cons first rest =>
      obtain rfl : { first with instrs := g.head ++ first.instrs } = block := by
        simpa [hbody, withHead] using hblock
      simp
  · have hlength : (withHead g.head g.body).length = g.body.length := by
      simpa using congrArg List.length (map_label_withHead g.head g.body)
    rw [hlayout, hlength, hg.current, body]
    simp

theorem Behind.before (h : Behind ctx names x g i) (hlabels : cut.labels ⊆ g.labels)
    (hnext : cut.next ≤ g.next) : Behind ctx names x cut i where
  leads := fun l hl hmem => h.leads l hl (hlabels hmem)
  defines := fun r hr => Nat.le_trans hnext (h.defines r hr)
  spares := h.spares

theorem slot_of_makes (hmakes : Makes ctx noted s s' made) (hscope : s.scope = .function) {n : Nat}
    (hn : n ≤ s.builder.nextReg)
    (h : ∀ b, s.own.lookup x = some b → ∃ r, b.slot = .reg r .ptr ∧ n ≤ r) :
    ∀ b, s'.own.lookup x = some b → ∃ r, b.slot = .reg r .ptr ∧ n ≤ r := by
  intro b hb
  obtain ⟨b₀, hfrom, -, hslot⟩ := hmakes.own x b hb
  rw [hslot]
  rcases hfrom with hold | hmem
  · exact h b₀ hold
  · rcases hmakes.new _ hmem with ⟨r, hr, hle, -⟩ | ⟨htop, -⟩
    · exact ⟨r, hr, Nat.le_trans hn hle⟩
    · simp [hscope] at htop

namespace Stretch

theorem definedOnce (h : Stretch ctx start m g g') (hstart : Begins ctx names x start) :
    DefinedOnce g'.func.instrs := by
  have hsteps := h.origin.trans h.steps
  rw [(Steps.sound hsteps hstart.sound).instrs_eq]
  exact definedOnce_of_nodup (Steps.written hsteps hstart.fresh hstart.sound).2.distinct

/-- A stretch whose code does not read the name from outside. -/
theorem adds (h : Stretch ctx start m g g') (hstart : Begins ctx names x start)
    (hinside : (Access.inside ctx.naming names x g'.func.instrs).Hosts g.state.builder →
      ∀ i ∈ g'.func.instrs, i ∈ g.func.instrs ∨ ¬ ReadsOutside ctx.naming names x i) :
    Adds (Behind ctx names x g) g g' := by
  have hg := Steps.sound h.origin hstart.sound
  have hg' := Steps.sound h.steps hg
  obtain ⟨added, hcode, hadded⟩ := Steps.adds_fresh h.steps hg
  refine ⟨added, hcode, fun i hi => ⟨h.keeps.leads hcode hi, hadded i hi, fun hreads => ?_⟩⟩
  have hmem : i ∈ g'.func.instrs := by
    rw [hg'.instrs_eq, code, hcode]
    simp [hi]
  have hhosts := hg.hosts (A := .inside ctx.naming names x g'.func.instrs)
    (h.definedOnce hstart) id
  refine (hinside hhosts i hmem).elim (fun hold => ?_) fun hnot => hnot hreads
  -- A load that was there defines a register that was in use.
  obtain ⟨dst, ty, symbol, rfl, -⟩ := hreads
  rw [hg.instrs_eq] at hold
  have hlt := ((Steps.written h.origin hstart.fresh hstart.sound).2.bounds dst
    (mem_filterMap.mpr ⟨_, hold, rfl⟩)).2
  exact absurd (hadded _ hi dst rfl) (Nat.not_le.mpr hlt)

theorem spares (h : Stretch ctx start m g g') (hstart : Begins ctx names x start)
    (hlocal : Local ctx.naming bound g.state)
    (hm : PerformsAt ctx .function ((Rules.assignedFirst x).among names) noted (fun _ => True)
      bound new m g.state) : Adds (Behind ctx names x g) g g' :=
  h.adds hstart fun hhosts _ =>
    hlocal.inside hstart.dotless hstart.names hm trivial hhosts h.run

end Stretch

theorem Runs.stretch {Q : Stage → Prop} (hsteps : Steps ctx .any start g)
    (h : Runs ctx .any g m fun g' _ => Keeps g g' ∧ Q g') :
    Runs ctx .any g m fun g' _ => Stretch ctx start m g g' ∧ Q g' :=
  h.ran.mono fun _ _ hs hr => ⟨⟨hsteps, hs, hr.2.2.2.1, hr.1⟩, hr.2.2.2.2⟩

namespace Cuts

theorem extend (h : Cuts ctx names x start cut g) (hstretch : Stretch ctx start m g g')
    (hadds : Adds (Behind ctx names x g) g g') (hmakes : Makes ctx noted g.state g'.state made)
    (hscope : g.state.scope = .function) : Cuts ctx names x start cut g' where
  steps := h.steps
  prolongs := h.prolongs.trans (Steps.prolongs hstretch.steps)
  next := Nat.le_trans h.next (Steps.persists hstretch.steps).next
  slot := slot_of_makes hmakes hscope h.next h.slot
  adds := h.adds.trans (hadds.mono fun _ hi => hi.before h.prolongs.labels_subset h.next)

/-- So it does when a jump to a new block comes behind it. -/
theorem jump (h : Cuts ctx names x start cut g) {target label : String} {live : String → Typing}
    {reserved : List String} (htarget : target ∉ g.labels) :
    Cuts ctx names x start cut (g.jump (.br target) label live reserved) where
  steps := h.steps
  prolongs := h.prolongs.trans prolongs_jump
  next := h.next
  slot := h.slot
  adds := by
    refine h.adds.trans ⟨[.br target], by simp [bodyCode, body, Stage.jump], ?_⟩
    simp only [mem_singleton, forall_eq]
    refine ⟨?_, by simp [Instr.dst?], by simp [ReadsOutside]⟩
    simpa [Instr.successors] using fun hmem => htarget (h.prolongs.labels_subset hmem)

/-- The code of a first assignment, behind that of the value. -/
theorem assignment {v : Typed} (hstart : Begins ctx names x start)
    (h : Stretch ctx start (assign x v) g g') (hlocal : Local ctx.naming bound g.state)
    (hname : x ∉ bound) (hv : v.kind.Fits v.value.ty) :
    Cuts ctx names x start g g' := by
  have hm : Access.Performs ctx .function .unrestricted [] (fun _ => False) bound [x]
      (assign x v) :=
    Access.performs_assign (fun _ hfalse => hfalse.elim) fun _ _ hfalse => hfalse.elim
  obtain ⟨made, hmakes, -⟩ := hlocal.performs (hm g.state) h.run
  refine ⟨h.origin, Steps.prolongs h.steps, (Steps.persists h.steps).next,
    slot_of_makes hmakes hlocal.scope (Nat.le_refl _) fun b hb => ?_,
    h.adds hstart fun hhosts _ =>
      hlocal.assign_inside hstart.dotless hstart.names hname hv hhosts h.run⟩
  simp [hlocal.toReady.none_of_notMem hname] at hb

/-- The code of a loop that does not read the name from outside. -/
theorem statement {node : Node} (hstart : Begins ctx names x start)
    (h : Stretch ctx start (stmt node) g g') (hlocal : Local ctx.naming bound g.state)
    (hname : x ∉ bound) (hreads : node.reads ⊆ names)
    (hkeeps : (Rules.assignedFirst x).keeps [] node = true) :
    Cuts ctx names x start g g' := by
  have hm : Access.Performs ctx .function ((Rules.assignedFirst x).among names) _ (fun _ => True)
      bound (assigned node) (stmt node) :=
    Access.performs_stmt node bound (keeps_among node [] bound (by simp) hreads fun _ => hkeeps)
  obtain ⟨made, hmakes, -⟩ := hlocal.performs (hm g.state) h.run
  refine ⟨h.origin, Steps.prolongs h.steps, (Steps.persists h.steps).next,
    slot_of_makes hmakes hlocal.scope (Nat.le_refl _) fun b hb => ?_,
    h.spares hstart hlocal (hm g.state)⟩
  simp [hlocal.toReady.none_of_notMem hname] at hb

/-- Statements behind the place where the name is assigned first. -/
theorem block {nodes : List Node} (h : Cuts ctx names x start cut g)
    (hstart : Begins ctx names x start)
    (hstretch : Stretch ctx start (Lowering.block nodes) g g')
    (hlocal : Local ctx.naming bound g.state) (hname : x ∈ bound)
    (hreads : Node.readsAll nodes ⊆ names) : Cuts ctx names x start cut g' := by
  have hm : Access.Performs ctx .function ((Rules.assignedFirst x).among names) _ (fun _ => True)
      bound (assignedAll nodes) (Lowering.block nodes) :=
    Access.performs_block nodes bound
      (keepsAll_among nodes bound bound id hreads fun hnot => absurd hname hnot)
  obtain ⟨made, hmakes, -⟩ := hlocal.performs (hm g.state) hstretch.run
  exact h.extend hstretch (hstretch.spares hstart hlocal (hm g.state)) hmakes hlocal.scope

end Cuts

/-! ## The place where a name is assigned first -/

/-- Where the name is not a variable yet and is assigned, some place of the code comes before it. -/
def Separates (ctx : Context) (names : List String) (x : String)
    (start : Stage) (bound new : List String) (g g' : Stage) : Prop :=
  Local ctx.naming bound g.state → x ∉ bound → x ∈ new → ∃ cut, Cuts ctx names x start cut g'

theorem newLabel_ne (g : Stage) (stem stem' : String) {k k' : Nat} (h : k < k') :
    g.newLabel stem k ≠ g.newLabel stem' k' :=
  ((LabelBelow.next stem (g.state.labels + k)).mono (by omega)).ne stem'

theorem local_stmt {node : Node} (hlocal : Local ctx.naming bound s)
    (hrun : stmt node ctx s = .ok ((), s')) : Local ctx.naming (bound ++ assigned node) s' := by
  have hm : Access.Performs ctx .function .unrestricted _ (fun _ => True) bound (assigned node)
      (stmt node) := Access.performs_stmt node bound (permits_unrestricted.keeps node bound)
  obtain ⟨made, -, hlocal'⟩ := hlocal.performs (hm s) hrun
  exact hlocal'

theorem local_block {nodes : List Node} (hlocal : Local ctx.naming bound s)
    (hrun : Lowering.block nodes ctx s = .ok ((), s')) :
    Local ctx.naming (bound ++ assignedAll nodes) s' := by
  have hm : Access.Performs ctx .function .unrestricted _ (fun _ => True) bound (assignedAll nodes)
      (Lowering.block nodes) :=
    Access.performs_block nodes bound (permits_unrestricted.keepsAll nodes bound)
  obtain ⟨made, -, hlocal'⟩ := hlocal.performs (hm s) hrun
  exact hlocal'

theorem Chooses.separates {condition : Node} {thenBlock elseBlock : List Node}
    (hstart : Begins ctx names x start) (hreads : Node.readsAll elseBlock ⊆ names)
    (h : Chooses ctx .any (expr condition)
      (fun h h' => Stretch ctx start (block thenBlock) h h' ∧
        Separates ctx names x start bound (assignedAll thenBlock) h h')
      (fun h h' => Stretch ctx start (block elseBlock) h h' ∧
        Separates ctx names x start (bound ++ assignedAll thenBlock) (assignedAll elseBlock)
          h h') g g') :
    Separates ctx names x start bound (assignedAll thenBlock ++ assignedAll elseBlock) g g' := by
  intro hlocal hname hmem
  obtain ⟨_, _, _, flag, g₁, htests, rfl, rfl, rfl, live, reserved, h₁, h₂, hreserved,
    ⟨hfirst, hthen⟩, ⟨hsecond, helse⟩, rfl⟩ := h
  -- The place where the two parts meet is no block yet.
  have hjoin : g₁.newLabel "if_merge" 2 ∈ h₁.reserved := by
    refine (hfirst.keeps.reserved _).mpr (.inl ((hreserved _).mpr ⟨?_, ?_⟩))
    · exact mem_cons_self
    · exact (newLabel_ne g₁ _ _ (by decide)).symm
  have hjoin' : g₁.newLabel "if_merge" 2 ∈ h₂.reserved := by
    refine (hsecond.keeps.reserved _).mpr (.inl (mem_filter.mpr ⟨hjoin, ?_⟩))
    exact decide_eq_true (newLabel_ne g₁ _ _ (by decide)).symm
  have hsound : ∀ {m h h'}, Stretch ctx start m h h' → h'.Sound ctx .any := fun hstretch =>
    Steps.sound (hstretch.origin.trans hstretch.steps) hstart.sound
  have hnew := (hsound hfirst).fresh _ hjoin
  have hnew' := (hsound hsecond).fresh _ hjoin'
  have htest : Local ctx.naming bound ((g₁.withLabels "if_then" "if_else" "if_merge").jump
      (.condBr flag (g₁.newLabel "if_then" 0) (g₁.newLabel "if_else" 1)) (g₁.newLabel "if_then" 0)
      live reserved).state :=
    hlocal.same ((sameTables_test htests.run).trans ⟨rfl, rfl, rfl, rfl, rfl, rfl⟩)
  have hlocal₁ : Local ctx.naming (bound ++ assignedAll thenBlock)
      (h₁.goto (.br (g₁.newLabel "if_merge" 2)) (g₁.newLabel "if_else" 1)).state :=
    (local_block htest hfirst.run).same ⟨rfl, rfl, rfl, rfl, rfl, rfl⟩
  by_cases hmem₁ : x ∈ assignedAll thenBlock
  · obtain ⟨cut, hcut⟩ := hthen htest hname hmem₁
    have hbound : x ∈ bound ++ assignedAll thenBlock := mem_append_right _ hmem₁
    exact ⟨cut, ((hcut.jump hnew).block hstart hsecond hlocal₁ hbound hreads).jump hnew'⟩
  · obtain ⟨cut, hcut⟩ := helse hlocal₁
      (fun hbound => (mem_append.mp hbound).elim hname hmem₁)
      ((mem_append.mp hmem).resolve_left hmem₁)
    exact ⟨cut, hcut.jump hnew'⟩

mutual

theorem cuts_stmt (hstart : Begins ctx names x start) : (node : Node) → node.reads ⊆ names →
    ∀ bound g, (x ∉ bound → readsAhead x node = false) → Steps ctx .any start g → g.Ready ctx →
    Runs ctx .any g (stmt node) fun g' _ => Keeps g g' ∧
      Separates ctx names x start bound (assigned node) g g'
  | .assignment name value, hreads, bound, g, _, hsteps, hready => by
    rw [stmt]
    refine Leads.bind (evaluates_any value g).stays.steps
      fun g1 v hs1 h1 => ?_
    obtain ⟨hran, hholds⟩ := h1
    refine Leads.mono (Runs.stretch (Q := fun _ => True) (hsteps.trans hs1)
      ((runs_assign (P := .any) trivial trivial (fun _ => rfl) (hready.keeps hran.grows.keeps)
        hholds).mono fun _ _ _ h => ⟨h, trivial⟩)) fun g2 _ _ h2 => ?_
    obtain ⟨hstretch, -⟩ := h2
    refine ⟨hran.grows.keeps.keeps hstretch.keeps, fun hlocal hname hmem => ?_⟩
    obtain rfl : x = name := by simpa [assigned] using hmem
    exact ⟨g1, Cuts.assignment hstart hstretch (hlocal.same (sameTables_expr hran.run)) hname
      hholds.2⟩
  | .conditional condition thenBlock elseBlock, hreads, bound, g, h, hsteps, hready => by
    simp only [Node.reads, append_subset] at hreads
    simp only [readsAhead, Bool.or_eq_false_iff, Bool.and_eq_false_iff, decide_eq_false_iff_not,
      not_not] at h
    rw [stmt, assigned]
    refine (runs_conditional hready (evaluates_any condition)
      (fun g1 hs1 hready1 => (Runs.stretch (hsteps.trans hs1) (cuts_block hstart thenBlock
        hreads.1.2 bound g1 (fun hx => (h hx).1) (hsteps.trans hs1) hready1)).mono
          fun _ _ _ h => ⟨h.1.keeps, h⟩)
      (fun g1 hs1 hready1 => (Runs.stretch (hsteps.trans hs1) (cuts_block hstart elseBlock
        hreads.2 (bound ++ assignedAll thenBlock) g1 (fun hx => ?_) (hsteps.trans hs1)
        hready1)).mono fun _ _ _ h => ⟨h.1.keeps, h⟩)).mono fun g' _ _ hR => ?_
    · rw [mem_append, not_or] at hx
      exact (h hx.1).2.resolve_left hx.2
    · exact ⟨hR.1, hR.2.separates hstart hreads.2⟩
  | .loop condition body, hreads, bound, g, h, hsteps, hready => by
    refine Leads.mono (Runs.stretch hsteps (performs_any (.loop condition body) g hready))
      fun g' _ _ hR => ⟨hR.1.keeps, fun hlocal hname hmem => ⟨g, ?_⟩⟩
    refine Cuts.statement hstart hR.1 hlocal hname hreads ?_
    have hmem : x ∈ assignedAll body := by simpa [assigned] using hmem
    simpa [readsAhead, hmem] using h hname
  | .functionDef name params body, _, _, g, _, _, hready
  | .structDef _ _, _, _, g, _, _, hready | .indexedAssignment _ _ _, _, _, g, _, _, hready
  | .ret _, _, _, g, _, _, hready | .breakLoop, _, _, g, _, _, hready
  | .importModule _, _, _, g, _, _, hready | .literal _, _, _, g, _, _, hready
  | .identifier _, _, _, g, _, _, hready | .binary _ _ _, _, _, g, _, _, hready
  | .unary _ _, _, _, g, _, _, hready | .listLiteral _, _, _, g, _, _, hready
  | .index _ _, _, _, g, _, _, hready | .memberAccess _ _, _, _, g, _, _, hready
  | .structLiteral _ _, _, _, g, _, _, hready | .interrogative _ _, _, _, g, _, _, hready
  | .relation _ _, _, _, g, _, _, hready =>
    Leads.mono (performs_any _ g hready) fun _ _ _ hR =>
      ⟨hR.1, fun _ _ hmem => by simp [assigned] at hmem⟩

theorem cuts_block (hstart : Begins ctx names x start) : (nodes : List Node) →
    Node.readsAll nodes ⊆ names → ∀ bound g, (x ∉ bound → readsAheadAll x nodes = false) →
    Steps ctx .any start g → g.Ready ctx →
    Runs ctx .any g (Lowering.block nodes) fun g' _ => Keeps g g' ∧
      Separates ctx names x start bound (assignedAll nodes) g g'
  | [], _, _, g, _, _, _ => by
    rw [Lowering.block]
    exact Leads.pure ⟨Keeps.refl g, fun _ _ hmem => by simp [assignedAll] at hmem⟩
  | node :: rest, hreads, bound, g, h, hsteps, hready => by
    simp only [Node.readsAll, append_subset] at hreads
    simp only [readsAheadAll, Bool.or_eq_false_iff, Bool.and_eq_false_iff,
      decide_eq_false_iff_not, not_not] at h
    rw [Lowering.block, assignedAll]
    refine Leads.bind (Runs.stretch hsteps (cuts_stmt hstart node hreads.1 bound g
      (fun hx => (h hx).1) hsteps hready)) fun g1 _ hs1 h1 => ?_
    obtain ⟨hfirst, hseparates⟩ := h1
    refine Leads.mono (Runs.stretch (hsteps.trans hs1) (cuts_block hstart rest hreads.2
      (bound ++ assigned node) g1 (fun hx => ?_) (hsteps.trans hs1)
      (hready.keeps hfirst.keeps))) fun g' _ _ h2 => ?_
    · rw [mem_append, not_or] at hx
      exact (h hx.1).2.resolve_left hx.2
    obtain ⟨hrest, hseparates'⟩ := h2
    refine ⟨hfirst.keeps.keeps hrest.keeps, fun hlocal hname hmem => ?_⟩
    have hlocal₁ := local_stmt hlocal hfirst.run
    by_cases hmem₁ : x ∈ assigned node
    · obtain ⟨cut, hcut⟩ := hseparates hlocal hname hmem₁
      exact ⟨cut, hcut.block hstart hrest hlocal₁ (mem_append_right _ hmem₁) hreads.2⟩
    · exact hseparates' hlocal₁ (fun hbound => (mem_append.mp hbound).elim hname hmem₁)
        ((mem_append.mp hmem).resolve_left hmem₁)

end

end

end Stage

end ScriptCompiler.Lowering
