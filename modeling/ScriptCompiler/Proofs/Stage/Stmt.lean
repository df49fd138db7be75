import ScriptCompiler.Proofs.Numeric.Source
import ScriptCompiler.Proofs.Stage.Assign

/-!
# Statements in stages

The lowering of a statement proceeds by steps and leaves all that concerns labels as it was: what it
hands out it uses, and the loops that it begins it ends. The last theorem says so of every tree, by
recursion, from one lemma for each form. The lemmas also say which blocks a form consists of
(`Branches`, `Loops`, `dead`), by a relation between the stages that it leads from and to, for
statements about the meaning of the code.
-/

namespace ScriptCompiler.Lowering

open Ir List
open Numeric (assigned assignedAll)

namespace Stage

/-- The step proceeds by steps of stages, wherever it is run, and opens nothing. What it leads from
and what it leads to are related by `R`. -/
def Performs (ctx : Context) (P : Lexicon) (R : Stage → Stage → Prop) (m : Lower Unit) :
    Prop :=
  ∀ g, g.Ready ctx → Runs ctx P g m fun g' _ => Keeps g g' ∧ R g g'

/-- Control goes elsewhere by `t`, and code goes on in a block where it never comes. -/
def dead (g : Stage) (t : Instr) : Stage :=
  (g.withLabel "dead").goto t ("dead" ++ "_" ++ toString g.state.labels)

/-- An optional step is run and stays in the current block. -/
def RanOption (ctx : Context) (P : Lexicon) (value : Option (Lower Typed)) (g : Stage)
    (v : Option Typed) (g' : Stage) : Prop :=
  match value with
  | none => v = none ∧ g' = g
  | some m => ∃ w, v = some w ∧ Ran ctx P m g w g'

/-- A test is computed in the current block. -/
abbrev Tests (ctx : Context) (P : Lexicon) (condition : Lower Typed) (flag : Value)
    (g g' : Stage) : Prop :=
  Ran ctx P (do perform (toBoolean (← condition))) g flag g'

/-- From `g` a test leads into one of two stretches, which `First` and `Second` relate, and both go
on to `g'`. -/
def Chooses (ctx : Context) (P : Lexicon) (condition : Lower Typed)
    (First Second : Stage → Stage → Prop) (g g' : Stage) : Prop :=
  ∃ yes no join flag g₁, Tests ctx P condition flag g g₁ ∧ yes = g₁.newLabel "if_then" 0 ∧
    no = g₁.newLabel "if_else" 1 ∧ join = g₁.newLabel "if_merge" 2 ∧
    Branches First Second flag yes no join (g₁.withLabels "if_then" "if_else" "if_merge") g'

/-- From `g` control goes on to a test in a block of its own, from there to a stretch that `Body`
relates, which comes back to the test, or else to `g'`. -/
def Loops (ctx : Context) (P : Lexicon) (condition : Lower Typed)
    (Body : Stage → Stage → Prop) (g g' : Stage) : Prop :=
  ∃ test again done flag g₁ g₂, test = g.newLabel "loop_cond" 0 ∧
    again = g.newLabel "loop_body" 1 ∧ done = g.newLabel "loop_end" 2 ∧
    Tests ctx P condition flag
      ((g.withLabels "loop_cond" "loop_body" "loop_end").goto (.br test) test) g₁ ∧
    Body ((g₁.goto (.condBr flag again done) again).withLoop done) g₂ ∧
    g' = g₂.withoutLoop.goto (.br test) done

section

variable {ctx : Context} {P : Lexicon} {g g' : Stage} {extra ends : List String}

theorem Performs.mono {R R' : Stage → Stage → Prop} {m : Lower Unit} (h : Performs ctx P R m)
    (k : ∀ g g', R g g' → R' g g') : Performs ctx P R' m :=
  fun g hready => (h g hready).mono fun g' _ _ hR => ⟨hR.1, k g g' hR.2⟩

theorem Performs.ran {R : Stage → Stage → Prop} {m : Lower Unit} (h : Performs ctx P R m) :
    Performs ctx P (fun g g' => m ctx g.state = .ok ((), g'.state) ∧ g.Sound ctx P ∧
      g'.Sound ctx P ∧ R g g') m :=
  fun g hready => (h g hready).ran.mono fun _ _ _ hR =>
    ⟨hR.2.2.2.1, hR.1, hR.2.1, hR.2.2.1, hR.2.2.2.2⟩

theorem performs_of_lowers {m : Lower Unit} (h : ∀ g, Lowers ctx P g m fun _ _ => True) :
    Performs ctx P (fun g g' => Ran ctx P m g () g') m :=
  fun g _ => ((h g).stays.mono fun _ _ hm hr => ⟨hm.keeps, hr.1⟩).steps

/-! ## Leaving -/

/-- Control goes elsewhere, and code goes on where it never comes. -/
theorem runs_dead {t : Instr} (hterm : t.isTerminator = true) (hops : ∀ v ∈ t.operands, g.Has v)
    (htypes : t.expected? g.func.ret = none) (hreturns : ∀ v, t = .ret v → ¬ Tracks ctx g.state)
    (htargets : ∀ l ∈ t.successors, l ∈ g.reserved ∧ g.live l = []) :
    Runs ctx P g (do Emit.push t; openDeadBlock) fun g' _ => Keeps g g' ∧ g' = g.dead t := by
  refine Leads.sound fun hg => ?_
  have hg1 := hg.withLabel "dead"
  have hopens := (Keeps.refl g).withLabel hg "dead"
  have hlabel : "dead" ++ "_" ++ toString g.state.labels ∈ (g.withLabel "dead").reserved :=
    mem_cons_self
  have hj : Gotos ctx (g.withLabel "dead") t ("dead" ++ "_" ++ toString g.state.labels) := by
    refine jumps_goto hterm (fun v hv => ?_) htypes hreturns (fun l hl => ?_) hlabel
      (.inr (.inr ⟨_, rfl⟩)) (hopens.notMem_loopEnds hg (by simp))
    · exact ⟨hg.scope_withLabel "dead" ▸ (hops v hv).1, (hops v hv).2⟩
    · obtain ⟨hr, hlive⟩ := htargets l hl
      exact ⟨.inl (mem_cons_of_mem _ hr), (hopens.live l (.inr hr)).trans hlive⟩
  have hrun : (do Emit.push t; openDeadBlock : Lower Unit) ctx g.state =
      openBlock ("dead" ++ "_" ++ toString g.state.labels) ctx
        ((g.withLabel "dead").effect t).state := rfl
  refine Leads.run ((Relation.ReflTransGen.single (.label "dead")).tail (.jump hj))
    (fun _ => hg1.jump hj) (hrun.trans (run_openBlock hg1 (hg1.fresh _ hlabel)))
    ⟨hopens.jump hj (fun _ _ => rfl) fun l hl => hg.fresh l (htargets l hl).1, rfl⟩

theorem Sound.ret_function (hg : g.Sound ctx P) (h : g.state.scope = .function) :
    g.func.ret = .i64 := by
  rw [hg.ret, resultType, h]

theorem runs_return {word : Value} (hscope : g.state.scope = .function)
    (hword : g.HasType word .i64) :
    Runs ctx P g (do Emit.ret (some word); openDeadBlock) fun g' _ =>
      Keeps g g' ∧ g' = g.dead (.ret (some word)) := by
  refine Leads.sound fun hg => runs_dead rfl ?_ ?_ ?_ ?_
  · simpa [Instr.operands] using hword.1
  · simp [Instr.expected?, hword.2, hg.ret_function hscope]
  · exact fun _ _ ht => by simp [Tracks, hscope] at ht
  · simp [Instr.successors]

/-- Control leaves from `g` with a value that is computed: a function returns its word. -/
def LeavesWith (ctx : Context) (P : Lexicon) (value : Option Typed) (g g' : Stage) : Prop :=
  match g.state.scope with
  | .topLevel => g' = g.dead (if ctx.naming.isLibrary then .ret none else .br exitLabel)
  | .function =>
    match value with
    | none => g' = g.dead (.ret (some (.word 0)))
    | some v => ∃ word g₁, Ran ctx P (do
        let v ← byValue v
        pack v) g word g₁ ∧ g' = g₁.dead (.ret (some word))

theorem runs_leaveWith {value : Option Typed} (hready : g.Ready ctx)
    (hv : ∀ v, value = some v → g.Holds P v) :
    Runs ctx P g (leaveWith value) fun g' _ => Keeps g g' ∧ LeavesWith ctx P value g g' := by
  unfold leaveWith
  refine Leads.get_bind ?_
  unfold LeavesWith
  dsimp only
  split
  case h_1 hscope =>
    split
    case h_1 v =>
      have hword : Lowers ctx P g (do
          let v ← byValue v
          pack v) fun g' word => g'.HasType word .i64 :=
        (emits_byValue (hv v rfl)).lifted.bind fun _ w _ hw => (emits_pack hw).lifted
      have hleave : Runs ctx P g ((do
          let v ← byValue v
          pack v : Lower Value) >>= fun word => do
            Emit.ret (some word)
            openDeadBlock) fun g' _ => Keeps g g' ∧ ∃ word g₁, Ran ctx P (do
              let v ← byValue v
              pack v) g word g₁ ∧ g' = g₁.dead (.ret (some word)) := by
        refine Lowers.runs_bind hword.stays fun g1 word hm1 h1 => ?_
        exact Leads.mono (runs_return (hm1.mode.trans hscope) h1.2) fun _ _ _ h =>
          ⟨hm1.keeps.keeps h.1, word, g1, h1.1, h.2⟩
      simpa only [bind_assoc, hscope] using hleave
    case h_2 =>
      simp only [hscope]
      exact runs_return hscope (hasType_int g rfl _)
  case h_2 hscope =>
    refine Leads.read_bind ?_
    simp only [hscope]
    split
    case isTrue hlib =>
      have hnot : ¬ Tracks ctx g.state := fun ht => by simp [Tracks, hlib] at ht
      refine Leads.sound fun hg => runs_dead rfl ?_ ?_ (fun _ _ => hnot) ?_
      · simp [Instr.operands]
      · simp [Instr.expected?, hg.ret, resultType, hscope, hlib]
      · simp [Instr.successors]
    case isFalse hlib =>
      have hexit := hready.exit ⟨hscope, by simpa using hlib⟩
      exact runs_dead rfl (by simp [Instr.operands]) rfl (by simp)
        (by simpa [Instr.successors] using hexit)

/-- From `g` the function, the program or the initializer is left, after a value is computed if there
is one. -/
def Returns (ctx : Context) (P : Lexicon) (value : Option (Lower Typed)) (g g' : Stage) :
    Prop :=
  ∃ v g₁, RanOption ctx P value g v g₁ ∧ LeavesWith ctx P v g₁ g'

theorem performs_leave {value : Option (Lower Typed)}
    (h : ∀ m, value = some m → Evaluates ctx P m) :
    Performs ctx P (Returns ctx P value) (leave value) := by
  intro g hready
  unfold leave
  cases value with
  | none =>
    refine Leads.bind (Leads.pure (Q := fun g' v => g' = g ∧ v = none) ⟨rfl, rfl⟩) ?_
    rintro _ _ - ⟨rfl, rfl⟩
    refine Leads.mono (runs_leaveWith hready fun v hv => (Option.some_ne_none v hv.symm).elim) ?_
    exact fun _ _ _ hk => ⟨hk.1, none, _, ⟨rfl, rfl⟩, hk.2⟩
  | some m =>
    have hvalue : Lowers ctx P g (some <$> m) fun g' v =>
        (∀ w, v = some w → g'.Holds P w) ∧ RanOption ctx P (some m) g v g' :=
      Leads.map ((h m rfl g).stays.mono fun _ v _ hv =>
        ⟨fun w hw => Option.some.inj hw ▸ hv.2, v, rfl, hv.1⟩)
    refine Lowers.runs_bind hvalue fun g1 v hm1 hv => ?_
    exact Leads.mono (runs_leaveWith (hready.keeps hm1.keeps) hv.1) fun _ _ _ hk =>
      ⟨hm1.keeps.keeps hk.1, v, g1, hv.2, hk.2⟩

/-- From `g` the innermost loop is left. -/
def Breaks (g g' : Stage) : Prop :=
  ∃ label, g.state.loopEnds.head? = some label ∧ g' = g.dead (.br label)

theorem performs_leaveLoop : Performs ctx P Breaks leaveLoop := by
  intro g hready
  unfold leaveLoop
  refine Leads.get_bind ?_
  split
  case h_2 => exact Leads.throw rfl
  case h_1 loopEnd _ hends =>
    have hloop := hready.loops loopEnd (by simp [hends])
    exact Leads.mono (runs_dead rfl (by simp [Instr.operands]) rfl (by simp)
      (by simpa [Instr.successors] using hloop)) fun _ _ _ h =>
        ⟨h.1, loopEnd, by simp [hends], h.2⟩

/-! ## Branches and loops -/

theorem lowers_test {condition : Lower Typed} (hc : Evaluates ctx P condition) :
    Lowers ctx P g (do perform (toBoolean (← condition))) fun g' flag =>
      g'.HasType flag .bool ∧ Tests ctx P condition flag g g' := by
  have htest : Lowers ctx P g (do perform (toBoolean (← condition))) fun g' flag =>
      g'.HasType flag .bool :=
    Lowers.bind (hc g) fun g1 v _ hv => lowers_toBoolean hv
  exact htest.stays.mono fun _ _ _ h => ⟨h.2, h.1⟩

theorem runs_conditional {First Second : Stage → Stage → Prop} {condition : Lower Typed}
    {thenBlock elseBlock : Lower Unit} (hready : g.Ready ctx) (hc : Evaluates ctx P condition)
    (ht : ∀ g1, Steps ctx P g g1 → g1.Ready ctx →
      Runs ctx P g1 thenBlock fun g2 _ => Keeps g1 g2 ∧ First g1 g2)
    (he : ∀ g1, Steps ctx P g g1 → g1.Ready ctx →
      Runs ctx P g1 elseBlock fun g2 _ => Keeps g1 g2 ∧ Second g1 g2) :
    Runs ctx P g (conditional condition thenBlock elseBlock) fun g' _ =>
      Keeps g g' ∧ Chooses ctx P condition First Second g g' := by
  unfold conditional
  rw [← bind_assoc]
  refine Leads.bind (lowers_test hc).stays.steps fun g1 flag hs1 h1 => Leads.sound fun hg1 => ?_
  obtain ⟨hran, hflag, htests⟩ := h1
  have hready1 := hready.keeps hran.grows.keeps
  refine runs_threeLabels fun hopens hlive hsees => ?_
  have hlabels : Steps ctx P g1 (g1.withLabels "if_then" "if_else" "if_merge") :=
    ((Relation.ReflTransGen.single (.label _)).tail (.label _)).tail (.label _)
  exact Leads.mono (runs_diamond (fallThrough (g1.newLabel "if_merge" 2)) hg1 hready1 hopens rfl
    (hlive _ (by simp)) (hsees.hasType hflag)
    (fun _ hg3 => hg3.run_unlessTerminated _)
    (fun g3 hs3 _ hready3 => ht g3 ((hs1.trans hlabels).trans hs3) hready3)
    fun g3 hs3 _ hready3 => he g3 ((hs1.trans hlabels).trans hs3) hready3) fun g' _ _ h =>
      ⟨hran.grows.keeps.keeps h.1, _, _, _, flag, g1, htests, rfl, rfl, rfl, h.2⟩

theorem performs_conditional {First Second : Stage → Stage → Prop} {condition : Lower Typed}
    {thenBlock elseBlock : Lower Unit} (hc : Evaluates ctx P condition)
    (ht : Performs ctx P First thenBlock) (he : Performs ctx P Second elseBlock) :
    Performs ctx P (Chooses ctx P condition First Second)
      (conditional condition thenBlock elseBlock) :=
  fun _ hready => runs_conditional hready hc (fun g1 _ => ht g1) fun g1 _ => he g1

theorem Opens.enterLoop (h : Opens extra ends g g') (label : String) :
    Opens extra (label :: ends) g (g'.withLoop label) :=
  { h with loopEnds := congrArg (label :: ·) h.loopEnds }

theorem Opens.leaveLoop {label : String} (h : Opens extra (label :: ends) g g') :
    Opens extra ends g g'.withoutLoop :=
  { h with loopEnds := congrArg List.tail h.loopEnds }

theorem mem_tail_labels_jump {t : Instr} {label : String} {live : String → Typing}
    {reserved : List String} : label ∈ (g.jump t label live reserved).labels.tail := by
  have hlabels : (g.jump t label live reserved).labels = g.labels ++ [label] := by
    simp [labels, body, Stage.jump]
  rw [hlabels, tail_append_of_ne_nil (ne_nil_of_mem g.label_mem)]
  simp

theorem tail_subset_of_prefix {a b : List String} (h : a <+: b) : a.tail ⊆ b.tail := by
  obtain ⟨more, rfl⟩ := h
  cases a with
  | nil => simp
  | cons x rest => exact subset_append_left _ _

/-- The body of a loop may rely on how it is reached. -/
theorem runs_loopWhile {Body : Stage → Stage → Prop} {condition : Lower Typed} {body : Lower Unit}
    (hready : g.Ready ctx) (hc : Evaluates ctx P condition)
    (hb : ∀ g1, Steps ctx P g g1 → g1.Ready ctx →
      Runs ctx P g1 body fun g2 _ => Keeps g1 g2 ∧ Body g1 g2) :
    Runs ctx P g (loopWhile condition body) fun g' _ =>
      Keeps g g' ∧ Loops ctx P condition Body g g' := by
  refine Leads.sound fun hg => ?_
  unfold loopWhile
  refine runs_threeLabels fun hopens1 hlive1 _ => ?_
  generalize hcond : g.newLabel "loop_cond" 0 = cond at *
  generalize hbody : g.newLabel "loop_body" 1 = bodyLabel at *
  generalize hend : g.newLabel "loop_end" 2 = endLabel at *
  obtain ⟨g1, hg1⟩ : ∃ g1, g1 = g.withLabels "loop_cond" "loop_body" "loop_end" := ⟨_, rfl⟩
  rw [← hg1] at hopens1 hlive1 ⊢
  have hreserved1 : ∀ l ∈ [cond, bodyLabel, endLabel], l ∈ g1.reserved := fun l hl =>
    (hopens1.reserved l).mpr (.inr hl)
  have hnew : ∀ l ∈ [cond, bodyLabel, endLabel], l ∉ g.labels := fun l hl => (hopens1.fresh l hl).1
  have hforward : ∀ l ∈ (Instr.br cond).successors, l ∉ g.labels := fun l hl =>
    hnew l (mem_append_left [bodyLabel, endLabel] hl)
  have hs1 : Steps ctx P g g1 :=
    hg1 ▸ ((Relation.ReflTransGen.single (.label _)).tail (.label _)).tail (.label _)
  -- Control goes on to the test.
  refine Leads.seq (runs_leave (fun _ => rfl) (.inl (hreserved1 cond (by simp)))
    (hlive1 cond (by simp)) (hreserved1 cond (by simp)) (.inr rfl)
    (hopens1.notMem_loopEnds hg (by simp))) ?_
  rintro g2 hs2 ⟨rfl, hj2⟩
  have hopens2 := hopens1.jump hj2 (fun _ _ => rfl) hforward
  have hcond2 : cond ∈ (g1.goto (.br cond) cond).labels.tail := mem_tail_labels_jump
  rw [← bind_assoc]
  refine Leads.bind (lowers_test hc).stays.steps fun g4 flag hs4 h4 => ?_
  obtain ⟨hran, hflag, htests⟩ := h4
  have hm4 := hran.grows
  have hkeeps4 := hm4.keeps
  have hopens4 := hopens2.keeps hkeeps4
  have hreserved4 : ∀ l ∈ [bodyLabel, endLabel], l ∈ g4.reserved := fun l hl =>
    (hopens4.reserved l).mpr (.inr hl)
  have hlive4 : ∀ l ∈ [cond, bodyLabel, endLabel], g4.live l = [] := fun l hl => by
    rw [hm4.live]
    exact hlive1 l hl
  -- The test leads into the body or past the loop.
  have hj4 : Gotos ctx g4 (.condBr flag bodyLabel endLabel) bodyLabel := by
    refine jumps_goto rfl ?_ ?_ (by simp) ?_ (hreserved4 bodyLabel (by simp))
      (.inr (.inl (by simp [Instr.successors]))) (hopens4.notMem_loopEnds hg (by simp))
    · simpa [Instr.operands] using hflag.1
    · simp [Instr.expected?, hflag.2]
    · intro l hl
      exact ⟨.inl (hreserved4 l hl), hlive4 l (mem_cons_of_mem _ hl)⟩
  refine Leads.seq (runs_jump hj4) ?_
  rintro g5 hs5 hg5
  have hopens5 : Opens [endLabel] [] g g5 :=
    hg5 ▸ hopens4.jump hj4 (fun _ _ => rfl) fun l hl => hnew l (mem_cons_of_mem _ hl)
  have hcond5 : cond ∈ g5.labels.tail := by
    have hlabels : g4.labels <+: g5.labels := by
      rw [hg5]
      simp [labels, Stage.body, Stage.jump]
    exact tail_subset_of_prefix (hkeeps4.labels.trans hlabels) hcond2
  have hlive5 : ∀ l ∈ [cond, bodyLabel, endLabel], g5.live l = [] := hg5 ▸ hlive4
  have htarget5 : endLabel ∈ g5.targets :=
    hg5 ▸ mem_targets_jump (by simp [Instr.successors])
  have hend5 : endLabel ∈ g5.reserved := (hopens5.reserved endLabel).mpr (.inr (by simp))
  -- The body is lowered with the loop open.
  have henter : Step ctx P g5 _ := .enterLoop endLabel hend5
  refine Leads.bind (henter.runs (Q := fun g' _ => g' = _) rfl rfl) ?_
  rintro g6 _ - rfl
  have hopens6 := hopens5.enterLoop endLabel
  have hready6 := hready.opens hopens6 fun l hl => by
    obtain rfl : l = endLabel := by simpa using hl
    exact ⟨hend5, hlive5 l (by simp)⟩
  have hs6 := (((hs1.trans hs2).trans hs4).trans hs5).tail henter
  refine Leads.bind (hb _ hs6 hready6) fun g7 _ _ h7 => ?_
  obtain ⟨hk7, hbody7⟩ := h7
  have hleave : Step ctx P g7 _ := .leaveLoop
  refine Leads.bind (hleave.runs (Q := fun g' _ => g' = _) rfl rfl) ?_
  rintro g8 _ - rfl
  have hopens8 := (hopens6.keeps hk7).leaveLoop
  -- Control goes back to the test, and code goes on past the loop.
  have hcond8 : cond ∈ g7.labels.tail := tail_subset_of_prefix hk7.labels hcond5
  have hlive8 : g7.live cond = [] :=
    (hk7.live cond (.inl (mem_of_mem_tail hcond5))).trans (hlive5 cond (by simp))
  refine Leads.mono (runs_leave (fun hg8 => hg8.run_unlessTerminated _) (.inr hcond8) hlive8
    ((hopens8.reserved endLabel).mpr (.inr (by simp))) (.inl (hk7.targets htarget5))
    (hopens8.notMem_loopEnds hg (by simp))) ?_
  rintro g9 - - ⟨rfl, hj9⟩
  refine ⟨hopens8.jump hj9 (fun _ _ => rfl) hforward, cond, bodyLabel, endLabel, flag, g4, g7,
    hcond.symm, hbody.symm, hend.symm, ?_, ?_, rfl⟩
  · rwa [hg1] at htests
  · rwa [hg5] at hbody7

theorem performs_loopWhile {Body : Stage → Stage → Prop} {condition : Lower Typed}
    {body : Lower Unit} (hc : Evaluates ctx P condition) (hb : Performs ctx P Body body) :
    Performs ctx P (Loops ctx P condition Body) (loopWhile condition body) :=
  fun _ hready => runs_loopWhile hready hc fun g1 _ => hb g1

/-! ## Definitions -/

theorem sameCode_addRoutine {s : State} {r : Routine} (hr : Fits ctx P r) :
    SameCode ctx P s (s.addRoutine r) := by
  unfold State.addRoutine
  split
  · exact SameCode.refl ctx P s
  case isFalse hnone =>
    refine ⟨rfl, rfl, rfl, rfl, rfl, rfl, rfl, rfl, rfl, rfl,
      prefix_append _ _, fun q hq => (mem_append.mp hq).imp id fun hq => ?_, fun hnames => ?_⟩
    · rwa [mem_singleton.mp hq]
    · rw [Option.not_isSome_iff_eq_none, State.routine?, find?_eq_none] at hnone
      rw [map_append, nodup_append]
      refine ⟨hnames, by simp, fun name hname name' hname' heq => ?_⟩
      obtain ⟨q, hq, rfl⟩ := mem_map.mp hname
      rw [map_singleton, mem_singleton] at hname'
      exact hnone q hq (by simp [heq, hname'])

theorem performs_defineFunction {name : String} {params : List String} {body : List Node}
    (h : Fits ctx P ⟨name, ctx.naming.functionSymbol name, params, body⟩) :
    Performs ctx P (fun g g' => Ran ctx P (defineFunction name params body) g () g')
      (defineFunction name params body) := by
  refine performs_of_lowers fun g => ?_
  cases hscope : g.state.scope with
  | function =>
    refine Leads.fail ?_ (.nested name)
    unfold defineFunction
    rw [run_get, hscope]
    rfl
  | topLevel =>
    have hsame : SameCode ctx P g.state
        (g.state.addRoutine ⟨name, ctx.naming.functionSymbol name, params, body⟩) :=
      sameCode_addRoutine h
    refine (Move.note _ hsame).lowers (a := ()) ?_ trivial
    unfold defineFunction
    rw [run_get, hscope]
    rfl

theorem performs_defineStruct {name : String} {fields : List String} :
    Performs ctx P (fun g g' => Ran ctx P (defineStruct name fields) g () g')
      (defineStruct name fields) := by
  refine performs_of_lowers fun g => ?_
  have hmove : Move ctx P g
      { g with state := { g.state with structs := Table.set g.state.structs name fields } } :=
    .note _ { SameCode.refl ctx P _ with }
  exact hmove.lowers rfl trivial

theorem performs_discard {m : Lower Typed} (h : Evaluates ctx P m) :
    Performs ctx P (fun g g' => Ran ctx P (discard m) g () g') (discard m) :=
  performs_of_lowers fun g => Leads.map ((h g).mono fun _ _ _ _ => trivial)

/-! ## Sequences -/

theorem performs_pure : Performs ctx P (fun g g' => g' = g) (pure ()) :=
  fun g _ => Leads.pure ⟨Keeps.refl g, rfl⟩

theorem Performs.seq {R R' : Stage → Stage → Prop} {m m' : Lower Unit} (h : Performs ctx P R m)
    (h' : Performs ctx P R' m') :
    Performs ctx P (fun g g' => ∃ g₁, R g g₁ ∧ R' g₁ g') (do m; m') := by
  intro g hready
  refine Leads.bind (h g hready) fun g1 _ _ h1 => ?_
  exact Leads.mono (h' g1 (hready.keeps h1.1)) fun g' _ _ h2 =>
    ⟨h1.1.keeps h2.1, g1, h1.2, h2.2⟩

theorem performs_assignment {name : String} {value : Lower Typed} (hname : P name)
    (hassigned : P.assigned name)
    (hobserved : ∀ T, P.thrift = some T → name ∉ T.observed) (h : Evaluates ctx P value) :
    Performs ctx P Any (do let v ← value; assign name v) := by
  intro g hready
  refine Leads.sound fun hg => Lowers.runs_bind (h g) fun g1 v hm1 hv => ?_
  have hcosts : name ∈ ctx.observed → P.Costs := fun hmem =>
    Lexicon.costs_of_not fun T hT => hobserved T hT (hg.observed T hT ▸ hmem)
  exact Leads.mono (runs_assign hname hassigned hcosts (hready.keeps hm1.keeps) hv) fun _ _ _ hk =>
    ⟨hm1.keeps.keeps hk, trivial⟩

theorem performs_assignment_any (name : String) (value : Node) :
    Performs ctx .any Any (do let v ← expr value; assign name v) :=
  performs_assignment trivial trivial (fun _ => Lexicon.of_thrift) (evaluates_any value)

/-! ## The tree -/

mutual

/-- Lowering a statement proceeds by steps and leaves all that concerns labels as it was. -/
theorem performs_stmt : (node : Node) → P.Covers node.names node.reads (·.allows node) →
    (∀ name ∈ assigned node, P.assigned name) → (∀ name ∈ node.definedNames, P.defines name) →
    Performs ctx P Any (stmt node)
  | .assignment name value, h, ha, _ => by
    have hallowed : ∀ T, P.thrift = some T → name ∉ T.observed ∧ T.allows value = true :=
      fun T hT => by simpa [Thrift.allows] using h.allowed T hT
    rw [stmt]
    refine performs_assignment (h.named name mem_cons_self) (ha name mem_cons_self)
      (fun T hT => (hallowed T hT).1) (evaluates_expr value ?_)
    exact h.mono (subset_cons_self _ _) (List.Subset.refl _) fun T hT _ => (hallowed T hT).2
  | .indexedAssignment target index value, h, _, _ => by
    obtain ⟨h, hvalue⟩ := h.split
    obtain ⟨htarget, hindex⟩ := h.split
    rw [stmt]
    exact (performs_of_lowers fun g => lowers_assignElement (evaluates_expr target htarget)
      (evaluates_expr index hindex) (evaluates_expr value hvalue)).mono fun _ _ _ => trivial
  | .functionDef name params body, h, _, hd => by
    rw [stmt]
    refine (performs_defineFunction ⟨rfl, fun n hn => h.named n ?_, fun T hT => ?_⟩).mono
      fun _ _ _ => trivial
    · simp [Node.names, show n ∈ Node.namesAll body from hn]
    · exact fits_of_allows (h.allowed T hT) fun n hn => hd n hn T hT
  | .structDef name fields, _, _, _ => by
    rw [stmt]
    exact performs_defineStruct.mono fun _ _ _ => trivial
  | .ret value, h, _, _ => by
    rw [stmt]
    refine (performs_leave fun m hm => ?_).mono fun _ _ _ => trivial
    obtain ⟨node, rfl, rfl⟩ := Option.map_eq_some_iff.mp hm
    exact evaluates_expr node h
  | .breakLoop, _, _, _ => by
    rw [stmt]
    exact performs_leaveLoop.mono fun _ _ _ => trivial
  | .conditional condition thenBlock elseBlock, h, ha, hd => by
    obtain ⟨h, helse⟩ := h.split
    obtain ⟨hcondition, hthen⟩ := h.split
    obtain ⟨hfirst, hsecond⟩ := forall_mem_append.mp ha
    obtain ⟨hdfirst, hdsecond⟩ := forall_mem_append.mp hd
    rw [stmt]
    exact (performs_conditional (evaluates_expr condition hcondition)
      (performs_block thenBlock hthen hfirst hdfirst)
      (performs_block elseBlock helse hsecond hdsecond)).mono fun _ _ _ => trivial
  | .loop condition body, h, ha, hd => by
    obtain ⟨hcondition, hbody⟩ := h.split
    rw [stmt]
    exact (performs_loopWhile (evaluates_expr condition hcondition)
      (performs_block body hbody ha hd)).mono fun _ _ _ => trivial
  | .importModule _, _, _, _ => by
    rw [stmt]
    exact performs_pure.mono fun _ _ _ => trivial
  | .literal _, h, _, _ | .identifier _, h, _, _ | .binary .., h, _, _ | .unary .., h, _, _
  | .listLiteral _, h, _, _ | .index .., h, _, _ | .memberAccess .., h, _, _
  | .structLiteral .., h, _, _ | .interrogative .., h, _, _ | .relation .., h, _, _ =>
    (performs_discard (evaluates_expr _ h)).mono fun _ _ _ => trivial

/-- Lowering statements one after the other. -/
theorem performs_block : (nodes : List Node) →
    P.Covers (Node.namesAll nodes) (Node.readsAll nodes) (·.allowsAll nodes) →
    (∀ name ∈ assignedAll nodes, P.assigned name) →
    (∀ name ∈ Node.definedNamesAll nodes, P.defines name) → Performs ctx P Any (block nodes)
  | [], _, _, _ => by
    rw [block]
    exact performs_pure.mono fun _ _ _ => trivial
  | node :: rest, h, ha, hd => by
    obtain ⟨hnode, hrest⟩ := h.split
    obtain ⟨hfirst, hothers⟩ := forall_mem_append.mp ha
    obtain ⟨hdfirst, hdothers⟩ := forall_mem_append.mp hd
    rw [block]
    exact ((performs_stmt node hnode hfirst hdfirst).seq
      (performs_block rest hrest hothers hdothers)).mono fun _ _ _ => trivial

end

theorem performs_any (node : Node) : Performs ctx .any Any (stmt node) :=
  performs_stmt node (Lexicon.covers_any _ _ _) (fun _ _ => trivial) fun _ _ _ => Lexicon.of_thrift

end

end Stage

end ScriptCompiler.Lowering
