import ScriptCompiler.Proofs.Stage.Bodies
import ScriptCompiler.Proofs.Verdict

/-!
# Generated functions are control flow graphs

Whatever the statements are, a unit that is generated has functions whose blocks make up a control
flow graph: labels are distinct, each block ends in its one terminator, jumps go to blocks of the
same function and never to the first one, and every other block is jumped to unless it continues a
`return` or a `break`. The check of such a unit finds no fault of shape, of registers, of globals or
of types, calls apart.

All of it is read off the stage that a function is completed at (`Stage.Shaped`, `Stage.Written`).
-/

namespace ScriptCompiler

open List

namespace Ir

/-- The blocks of a function make up a control flow graph. -/
structure Func.WellFormed (f : Func) : Prop where
  first : f.labels.head? = some "entry"
  distinct : f.labels.Nodup
  /-- Each block ends in a terminator and has no other. -/
  closed : ∀ b ∈ f.blocks, ∃ inner t, b.instrs = inner ++ [t] ∧ t.isTerminator = true ∧
    ∀ i ∈ inner, i.isTerminator = false
  targets : ∀ l ∈ f.targets, l ∈ f.labels
  noReentry : "entry" ∉ f.targets
  /-- Something jumps to every block but the first, unless the block continues dead code. -/
  entered : ∀ l ∈ f.labels, l = "entry" ∨ Lowering.IsDead l ∨ l ∈ f.targets

theorem Func.WellFormed.block?_eq {f : Func} (h : f.WellFormed) {b : Block} (hb : b ∈ f.blocks) :
    f.block? b.label = some b := by
  have hsome : (f.block? b.label).isSome := by
    rw [Func.block?, List.find?_isSome]
    exact ⟨b, hb, by simp⟩
  obtain ⟨b', hfound⟩ := Option.isSome_iff_exists.mp hsome
  have hlabel : b'.label = b.label := by simpa using List.find?_some hfound
  rw [hfound, inj_on_of_nodup_map h.distinct (mem_of_find?_eq_some hfound) hb hlabel]

/-- A fault of symbols, or one of a call in some function. -/
def Fault.OfSymbolOrCall (a : Assembly) : Fault → Prop
  | .duplicateSymbol _ | .unknownCallee .. | .arityMismatch .. => True
  | .typeMismatch function text _ =>
    ∃ f ∈ a.functions, f.name = function ∧ ∃ i ∈ f.instrs, i.callee?.isSome = true ∧ i.text = text
  | _ => False

/-! ## What the check finds -/

/-- Code that reads registers only after their definitions, and defines each once, has no fault of
registers. -/
theorem registerFaults_eq_nil {name : String} {code : List (String × Instr)} {known : Typing}
    {defined : List Reg} (hscoped : Scoped known (code.map Prod.snd))
    (hknown : ∀ p ∈ known, p.1 ∈ defined) (hdistinct : (registers (code.map Prod.snd)).Nodup)
    (hfresh : ∀ r ∈ registers (code.map Prod.snd), r ∉ defined) :
    registerFaults name defined code = [] := by
  induction code generalizing known defined with
  | nil => rfl
  | cons labelled rest ih =>
    obtain ⟨block, i⟩ := labelled
    obtain ⟨hops, hrest⟩ := hscoped
    have hread : (i.operands.filterMap Value.reg?).filter (· ∉ defined) = [] := by
      refine filter_eq_nil_iff.mpr fun r hr => ?_
      obtain ⟨v, hv, hreg⟩ := mem_filterMap.mp hr
      have hop : v.op = .reg r := by
        unfold Value.reg? at hreg
        split at hreg <;> simp_all
      simpa using hknown _ (hops v hv r hop)
    rw [registerFaults, hread, map_nil, nil_append]
    simp only [map_cons, registers, filterMap_cons] at hdistinct hfresh
    cases hdst : i.dst? with
    | none =>
      rw [hdst] at hdistinct hfresh
      have hdef : i.definition? = none := by simp [Instr.definition?, hdst]
      rw [hdef, Option.toList_none, append_nil] at hrest
      exact ih hrest hknown hdistinct hfresh
    | some dst =>
      rw [hdst] at hdistinct hfresh
      obtain ⟨ty, -, hdef⟩ := definition_isSome hdst
      rw [hdef] at hrest
      obtain ⟨hnew, hdistinct⟩ := nodup_cons.mp hdistinct
      dsimp only
      rw [if_neg (hfresh dst mem_cons_self), nil_append]
      refine ih hrest (fun p hp => ?_) hdistinct fun r hr hmem => ?_
      · rcases mem_append.mp hp with hp | hp
        · exact mem_cons_of_mem _ (hknown p hp)
        · obtain rfl : p = (dst, ty) := by simpa using hp
          exact mem_cons_self
      · rcases mem_cons.mp hmem with rfl | hmem
        · exact hnew hr
        · exact hfresh r (mem_cons_of_mem _ hr) hmem

theorem Func.WellFormed.shapeFaults_eq_nil {f : Func} (h : f.WellFormed) : f.shapeFaults = [] :=
  Func.shapeFaults_eq_nil_iff.mpr ⟨h.distinct, h.closed, fun i hi l hl =>
    h.targets l (mem_flatMap.mpr ⟨i, hi, hl⟩)⟩

/-- The faults of a function are those of its calls, when its shape, its registers, its globals and
the types of its other instructions are right. -/
theorem Assembly.mem_functionFaults {a : Assembly} {f : Func} {fault : Fault}
    (hshape : f.shapeFaults = []) (hregs : f.registerFaults = [])
    (hrefs : ∀ i ∈ f.instrs, a.referenceFaults f i = [])
    (htypes : ∀ i ∈ f.instrs, i.callee? = none → a.typeFaults f i = [])
    (h : fault ∈ a.functionFaults f) :
    ∃ i ∈ f.instrs, i.callee?.isSome = true ∧ fault ∈ a.typeFaults f i := by
  rw [Assembly.functionFaults, hshape, hregs, nil_append, nil_append] at h
  obtain ⟨i, hi, h⟩ := mem_flatMap.mp h
  rw [hrefs i hi, append_nil] at h
  refine ⟨i, hi, ?_, h⟩
  cases hcall : i.callee? with
  | none => simp [htypes i hi hcall] at h
  | some callee => rfl

theorem Assembly.ofSymbolOrCall_typeFaults {a : Assembly} {f : Func} {i : Instr} {fault : Fault}
    (hf : f ∈ a.functions) (hi : i ∈ f.instrs) (hcall : i.callee?.isSome = true)
    (h : fault ∈ a.typeFaults f i) : fault.OfSymbolOrCall a := by
  cases i with
  | call dst ret callee args =>
    simp only [Assembly.typeFaults, callFaults] at h
    split at h
    · obtain rfl := mem_singleton.mp h
      trivial
    · split at h
      · obtain rfl := mem_singleton.mp h
        trivial
      · split at h
        · simp at h
        · obtain rfl := mem_singleton.mp h
          exact ⟨f, hf, rfl, _, hi, hcall, rfl⟩
  | _ => simp [Instr.callee?] at hcall

end Ir

namespace Lowering

open Ir

namespace Stage.Completes

variable {ctx : Context} {P : Lexicon} {start g : Stage} {t : Instr}

/-- Every block of a complete function ends in its one terminator. -/
theorem closed (h : Completes ctx P start g t) : ∀ b ∈ (g.complete t).blocks,
    ∃ inner t, b.instrs = inner ++ [t] ∧ t.isTerminator = true ∧
      ∀ i ∈ inner, i.isTerminator = false := by
  have hbody : ∀ b ∈ (g.effect t).body, ∃ inner t, b.instrs = inner ++ [t] ∧
      t.isTerminator = true ∧ ∀ i ∈ inner, i.isTerminator = false := by
    intro b hb
    rcases mem_append.mp hb with hb | hb
    · exact h.shaped.closed b hb
    · obtain rfl := mem_singleton.mp hb
      exact ⟨g.instrs, t, rfl, h.isTerminator, fun i hi =>
        h.sound.inner i (mem_append_right _ hi)⟩
  intro b hb
  rw [h.blocks] at hb
  rcases mem_withHead hb with hb | ⟨b', hb', -, rfl⟩
  · exact hbody b hb
  · obtain ⟨inner, t', hinstrs, ht, hinner⟩ := hbody b' hb'
    refine ⟨g.head ++ inner, t', by simp [hinstrs], ht, fun i hi => ?_⟩
    rcases mem_append.mp hi with hi | hi
    · exact h.sound.inner i (mem_append_left _ hi)
    · exact hinner i hi

theorem mem_tail_of_mem_targets (h : Completes ctx P start g t) {l : String}
    (hl : l ∈ (g.complete t).targets) : l ∈ (g.complete t).labels.tail := by
  rw [h.targets, h.targets_eq] at hl
  rw [h.labels, h.grows.labels_eq]
  exact (h.sound.targets l hl).resolve_left (by simp [h.settled])

/-- A complete function is a control flow graph. -/
theorem wellFormed (h : Completes ctx P start g t) : (g.complete t).WellFormed := by
  have hfirst : (g.complete t).labels.head? = some "entry" := by
    rw [h.labels]
    exact h.shaped.first
  have hdistinct : (g.complete t).labels.Nodup := by
    rw [h.labels]
    exact h.shaped.distinct
  obtain ⟨rest, hlabels⟩ := List.head?_eq_some_iff.mp hfirst
  refine ⟨hfirst, hdistinct, h.closed, fun l hl => ?_, fun hl => ?_, fun l hl => ?_⟩
  · exact mem_of_mem_tail (h.mem_tail_of_mem_targets hl)
  · have hmem := h.mem_tail_of_mem_targets hl
    rw [hlabels] at hdistinct hmem
    exact (nodup_cons.mp hdistinct).1 hmem
  · rw [hlabels] at hl
    refine (mem_cons.mp hl).imp id fun hl => ?_
    rw [h.targets, or_comm]
    refine h.shaped.entered l ?_
    rw [← h.labels, hlabels]
    exact hl

theorem scoped_instrs (h : Completes ctx P start g t) :
    Scoped (g.complete t).params (g.complete t).instrs := by
  rw [h.instrs, code]
  exact scoped_append.mpr ⟨h.written.slots.mono (nil_subset _), h.written.order⟩

theorem registerFaults_eq_nil (h : Completes ctx P start g t) :
    (g.complete t).registerFaults = [] := by
  have hcode := (g.complete t).map_snd_labelledInstrs
  refine Ir.registerFaults_eq_nil (by rw [hcode]; exact h.scoped_instrs) (fun p hp => ?_) ?_ ?_
  · exact mem_map.mpr ⟨p, hp, rfl⟩
  · rw [hcode, h.instrs]
    exact h.written.distinct
  · intro r hr hmem
    rw [hcode, h.instrs] at hr
    exact (h.written.bounds r hr).1 hmem

theorem typeFaults_eq_nil (h : Completes ctx P start g t) (a : Assembly) {i : Instr}
    (hi : i ∈ (g.complete t).instrs) (hcall : i.callee? = none) :
    a.typeFaults (g.complete t) i = [] := by
  rw [h.instrs] at hi
  have htypes : i.expected? (g.complete t).ret = none := h.written.types i hi
  cases i with
  | call dst ret callee args => simp [Instr.callee?] at hcall
  | _ => simp only [Assembly.typeFaults, htypes]

theorem referenceFaults_eq_nil (h : Completes ctx P start g t) {a : Assembly}
    (hglobals : g.globals ⊆ a.globals) {i : Instr} (hi : i ∈ (g.complete t).instrs) :
    a.referenceFaults (g.complete t) i = [] := by
  rw [h.instrs] at hi
  unfold Assembly.referenceFaults
  rw [map_eq_nil_iff, filter_eq_nil_iff]
  intro name hname
  obtain ⟨v, hv, hglobal⟩ := mem_filterMap.mp hname
  have hop : v.op = .global name := by
    unfold Value.global? at hglobal
    split at hglobal <;> simp_all
  have hsane := h.written.globals i hi v hv
  rw [Value.Sane, hop] at hsane
  simpa using map_subset _ hglobals hsane.2

end Stage.Completes

/-- Every function of a unit that is generated is a control flow graph, and the check finds faults of
symbols and calls at most. -/
theorem generate_wellFormed {target : Target} {naming : Naming} {observed : List String}
    {statements : List Node} {u : Generated}
    (hu : generate target naming observed statements = .ok u) :
    u.assembly.functions.head?.map (·.name) = some naming.entrySymbol ∧
      (∀ f ∈ u.assembly.functions, f.WellFormed) ∧
      (∀ f ∈ u.assembly.functions, ∀ i ∈ f.instrs, i.callee? = none →
        u.assembly.typeFaults f i = []) ∧
      ∀ strict, ∀ fault ∈ (u.assembly.check strict).faults, fault.OfSymbolOrCall u.assembly := by
  obtain ⟨hentry, hall⟩ := Stage.generate_functions hu
  refine ⟨hentry, fun f hf => ?_, fun f hf i hi hcall => ?_, fun strict fault hfault => ?_⟩
  · obtain ⟨start, g, t, h, rfl, -⟩ := hall f hf
    exact h.wellFormed
  · obtain ⟨start, g, t, h, rfl, -⟩ := hall f hf
    exact h.typeFaults_eq_nil _ hi hcall
  · have hfault : fault ∈ u.assembly.symbolFaults ++
        u.assembly.functions.flatMap u.assembly.functionFaults := hfault
    rcases mem_append.mp hfault with hfault | hfault
    · rw [Assembly.symbolFaults, ← map_append] at hfault
      obtain ⟨name, -, rfl⟩ := mem_map.mp hfault
      trivial
    · obtain ⟨f, hf, hfault⟩ := mem_flatMap.mp hfault
      obtain ⟨start, g, t, h, rfl, hglobals⟩ := hall f hf
      obtain ⟨i, hi, hcall, hfault⟩ := Assembly.mem_functionFaults h.wellFormed.shapeFaults_eq_nil
        h.registerFaults_eq_nil (fun i hi => h.referenceFaults_eq_nil hglobals hi)
        (fun i hi => h.typeFaults_eq_nil _ hi) hfault
      exact Assembly.ofSymbolOrCall_typeFaults hf hi hcall hfault

/-- A unit with a function that returns early, a loop that is left in the middle, a variable whose
history is kept, and text. -/
def counting : List Node :=
  [.functionDef "f" ["n"]
      [.conditional (.binary ">" (.identifier "n") (.literal (.number .one)))
        [.ret (some (.identifier "n"))] [], .assignment "m" (.identifier "n")],
    .assignment "x" (.literal (.number .one)),
    .loop (.binary "<" (.identifier "x") (.literal (.number (.ofNat 9))))
      [.conditional (.binary ">" (.identifier "x") (.literal (.number (.ofNat 4)))) [.breakLoop] [],
        .assignment "x" (.binary "+" (.identifier "x") (.literal (.number .one))),
        .assignment "s" (.literal (.text "on"))],
    .relation (.identifier "print") (.relation (.identifier "f") (.identifier "x"))]

theorem exists_generate_counting :
    ∃ u, generate (.resolve none) { mode := .program } ["x"] counting = .ok u := by
  have h : (generate (.resolve none) { mode := .program } ["x"] counting).toOption.isSome = true := by
    decide +kernel
  cases hu : generate (.resolve none) { mode := .program } ["x"] counting with
  | error e => simp [hu, Except.toOption] at h
  | ok u => exact ⟨u, rfl⟩

theorem wellFormed_counting :
    ∃ u, generate (.resolve none) { mode := .program } ["x"] counting = .ok u ∧
      u.assembly.functions.head?.map (·.name) = some "main" ∧
      (∀ f ∈ u.assembly.functions, f.WellFormed) ∧
      (∀ f ∈ u.assembly.functions, ∀ i ∈ f.instrs, i.callee? = none →
        u.assembly.typeFaults f i = []) ∧
      ∀ strict, ∀ fault ∈ (u.assembly.check strict).faults, fault.OfSymbolOrCall u.assembly := by
  obtain ⟨u, hu⟩ := exists_generate_counting
  exact ⟨u, hu, generate_wellFormed hu⟩

end Lowering

end ScriptCompiler
