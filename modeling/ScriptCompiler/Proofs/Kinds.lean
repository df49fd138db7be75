import ScriptCompiler.Proofs.Access.Unit

/-!
# The points of a lowering

The lowering of a unit comes to its statements one after the other: to those at top level, to those
inside of branches and loops, and to those of the bodies of functions. `Visits` and `ComesTo` say in
which states it does so. At all points every variable is of a kind that its storage class dictates
(`ComesTo.kindsFit`).

The beginnings of branches, of loops and of bodies are parts of longer steps, and `conditional_eq`,
`loopWhile_eq` and `functionBody_eq` say that the longer steps are made of them. So lowering comes to
every block of the text (`exists_visits`).
-/

namespace ScriptCompiler.Lowering

open Ir
open Numeric (assigned assignedAll)

/-- Begin the body of a function and make its first `k` parameters variables. -/
def openBody (r : Routine) (k : Nat) : Lower Unit := do
  modify (·.enter r)
  bindParams ((r.params.take k).zip (← get).builder.func.paramValues)

theorem functionBody_eq (r : Routine) :
    functionBody r = (do
      openBody r r.params.length
      block r.body
      unless ← isTerminated do Emit.ret (some (.word 0))
      finishFunction) := by
  simp only [functionBody, openBody, bind_assoc, List.take_length]

/-- The lowering of statements from a state comes to the statements `inner` in the state `t`: to one of
them and those behind it, or to the end of a block. -/
inductive Visits (ctx : Context) (inner : List Node) (t : State) : List Node → State → Prop where
  | here : Visits ctx inner t inner t
  | later {node : Node} {rest : List Node} {s s₁ : State} (h : stmt node ctx s = .ok ((), s₁))
      (visits : Visits ctx inner t rest s₁) : Visits ctx inner t (node :: rest) s
  | inThen {condition : Node} {thenBlock elseBlock rest : List Node} {s s₁ : State}
      {labels : String × String} (h : openThen (expr condition) ctx s = .ok (labels, s₁))
      (visits : Visits ctx inner t thenBlock s₁) :
      Visits ctx inner t (.conditional condition thenBlock elseBlock :: rest) s
  | inElse {condition : Node} {thenBlock elseBlock rest : List Node} {s s₁ s₂ s₃ : State}
      {labels : String × String} (h : openThen (expr condition) ctx s = .ok (labels, s₁))
      (hthen : block thenBlock ctx s₁ = .ok ((), s₂)) (helse : openElse labels ctx s₂ = .ok ((), s₃))
      (visits : Visits ctx inner t elseBlock s₃) :
      Visits ctx inner t (.conditional condition thenBlock elseBlock :: rest) s
  | inLoop {condition : Node} {body rest : List Node} {s s₁ : State} {labels : String × String}
      (h : openLoop (expr condition) ctx s = .ok (labels, s₁)) (visits : Visits ctx inner t body s₁) :
      Visits ctx inner t (.loop condition body :: rest) s

/-- The lowering of a unit comes to statements in a state, from those at top level or from the body of
a function. -/
inductive Attempts (ctx : Context) (statements inner : List Node) (t : State) : Prop where
  | entry {s : State}
      (h : (callInits ctx.naming : Lower Unit) ctx
        (State.start ctx.target ctx.naming statements) = .ok ((), s))
      (visits : Visits ctx inner t statements s)
  | body {r : Routine} {rest : List Routine} {s s₁ : State}
      (before : Pending ctx statements (r :: rest) s)
      (h : openBody r r.params.length ctx s = .ok ((), s₁)) (visits : Visits ctx inner t r.body s₁)

/-- The states in which the lowering of a unit comes to a statement, to the end of a block, or to a
parameter of a function. -/
inductive ComesTo (ctx : Context) (statements : List Node) : State → Prop where
  | stmt {inner : List Node} {t : State} (h : Attempts ctx statements inner t) :
      ComesTo ctx statements t
  | params {r : Routine} {rest : List Routine} {s t : State}
      (before : Pending ctx statements (r :: rest) s) (k : Nat)
      (h : openBody r k ctx s = .ok ((), t)) : ComesTo ctx statements t

/-- Every variable in reach is of a kind that its storage class dictates. -/
def State.KindsFit (s : State) : Prop :=
  ∀ name b, s.own.lookup name = some b ∨ s.globals.lookup name = some b → b.storage.Holds b.kind

/-- The statements `inner` are a block inside of others, from some statement on. -/
inductive Within (inner : List Node) : List Node → Prop where
  | here : Within inner inner
  | later {node : Node} {rest : List Node} (h : Within inner rest) : Within inner (node :: rest)
  | inThen {condition : Node} {thenBlock elseBlock rest : List Node}
      (h : Within inner thenBlock) :
      Within inner (.conditional condition thenBlock elseBlock :: rest)
  | inElse {condition : Node} {thenBlock elseBlock rest : List Node}
      (h : Within inner elseBlock) :
      Within inner (.conditional condition thenBlock elseBlock :: rest)
  | inLoop {condition : Node} {body rest : List Node} (h : Within inner body) :
      Within inner (.loop condition body :: rest)

section

variable {ctx : Context} {statements nodes inner : List Node} {s s' t : State}

/-! ## Every block is visited -/

theorem run_block_cons {node : Node} {rest : List Node}
    (h : block (node :: rest) ctx s = .ok ((), s')) :
    ∃ s₁, stmt node ctx s = .ok ((), s₁) ∧ block rest ctx s₁ = .ok ((), s') := by
  rw [block] at h
  obtain ⟨_, s₁, hnode, hrest⟩ := run_bind h
  exact ⟨s₁, hnode, hrest⟩

theorem run_conditional {condition : Node} {thenBlock elseBlock : List Node}
    (h : stmt (.conditional condition thenBlock elseBlock) ctx s = .ok ((), s')) :
    ∃ labels s₁ s₂ s₃ s₄, openThen (expr condition) ctx s = .ok (labels, s₁) ∧
      block thenBlock ctx s₁ = .ok ((), s₂) ∧ openElse labels ctx s₂ = .ok ((), s₃) ∧
      block elseBlock ctx s₃ = .ok ((), s₄) ∧ openMerge labels ctx s₄ = .ok ((), s') := by
  rw [stmt, conditional_eq] at h
  obtain ⟨labels, s₁, hopen, h⟩ := run_bind h
  obtain ⟨_, s₂, hthen, h⟩ := run_bind h
  obtain ⟨_, s₃, helse, h⟩ := run_bind h
  obtain ⟨_, s₄, hblock, hmerge⟩ := run_bind h
  exact ⟨labels, s₁, s₂, s₃, s₄, hopen, hthen, helse, hblock, hmerge⟩

theorem run_loop {condition : Node} {body : List Node}
    (h : stmt (.loop condition body) ctx s = .ok ((), s')) :
    ∃ labels s₁ s₂, openLoop (expr condition) ctx s = .ok (labels, s₁) ∧
      block body ctx s₁ = .ok ((), s₂) ∧ closeLoop labels ctx s₂ = .ok ((), s') := by
  rw [stmt, loopWhile_eq] at h
  obtain ⟨labels, s₁, hopen, h⟩ := run_bind h
  obtain ⟨_, s₂, hbody, hclose⟩ := run_bind h
  exact ⟨labels, s₁, s₂, hopen, hbody, hclose⟩

/-- Every block inside of statements that are lowered is lowered from a state that is visited. -/
theorem exists_visits (h : Within inner nodes) :
    ∀ {s s'}, block nodes ctx s = .ok ((), s') →
      ∃ t t', Visits ctx inner t nodes s ∧ block inner ctx t = .ok ((), t') := by
  induction h with
  | here => exact fun hrun => ⟨_, _, .here, hrun⟩
  | later h ih =>
    intro s s' hrun
    obtain ⟨s₁, hnode, hrest⟩ := run_block_cons hrun
    obtain ⟨t, t', hvisits, ht⟩ := ih hrest
    exact ⟨t, t', .later hnode hvisits, ht⟩
  | inThen h ih =>
    intro s s' hrun
    obtain ⟨s₁, hnode, -⟩ := run_block_cons hrun
    obtain ⟨labels, _, _, _, _, hopen, hthen, -⟩ := run_conditional hnode
    obtain ⟨t, t', hvisits, ht⟩ := ih hthen
    exact ⟨t, t', .inThen hopen hvisits, ht⟩
  | inElse h ih =>
    intro s s' hrun
    obtain ⟨s₁, hnode, -⟩ := run_block_cons hrun
    obtain ⟨labels, _, _, _, _, hopen, hthen, helse, hblock, -⟩ := run_conditional hnode
    obtain ⟨t, t', hvisits, ht⟩ := ih hblock
    exact ⟨t, t', .inElse hopen hthen helse hvisits, ht⟩
  | inLoop h ih =>
    intro s s' hrun
    obtain ⟨s₁, hnode, -⟩ := run_block_cons hrun
    obtain ⟨labels, _, _, hopen, hbody, -⟩ := run_loop hnode
    obtain ⟨t, t', hvisits, ht⟩ := ih hbody
    exact ⟨t, t', .inLoop hopen hvisits, ht⟩

theorem comesTo_of_entry (h : Within inner statements)
    (hrun : entryFunction statements ctx (State.start ctx.target ctx.naming statements) =
      .ok ((), s)) :
    ∃ t t', ComesTo ctx statements t ∧ block inner ctx t = .ok ((), t') := by
  unfold entryFunction at hrun
  rw [run_read] at hrun
  obtain ⟨_, s₁, hinits, hrun⟩ := run_bind hrun
  obtain ⟨_, s₂, hblock, -⟩ := run_bind hrun
  obtain ⟨t, t', hvisits, ht⟩ := exists_visits h hblock
  exact ⟨t, t', .stmt (.entry hinits hvisits), ht⟩

theorem comesTo_of_lowersBody {r : Routine} (h : Within inner r.body)
    (hbody : LowersBody ctx statements r s s') :
    ∃ t t', ComesTo ctx statements t ∧ block inner ctx t = .ok ((), t') := by
  obtain ⟨rest, before, hrun⟩ := hbody
  rw [functionBody_eq] at hrun
  obtain ⟨_, s₁, hopen, hrun⟩ := run_bind hrun
  obtain ⟨_, s₂, hblock, -⟩ := run_bind hrun
  obtain ⟨t, t', hvisits, ht⟩ := exists_visits h hblock
  exact ⟨t, t', .stmt (.body before hopen hvisits), ht⟩

/-! ## Kinds -/

namespace Access

variable {scope : Scope} {bound : List String}

theorem Ready.kindsFit (h : Ready scope bound s) : s.KindsFit :=
  fun name b hb => hb.elim (h.own name b) (h.outer name b)

/-- A state is reached where variables are of the right kinds. Inside of a function those at top level
stay as they are. -/
def Ready.Leads (scope : Scope) (s s' : State) : Prop :=
  (∃ bound, Ready scope bound s') ∧ (scope = .function → s'.globals = s.globals)

theorem Ready.Leads.after (h : Ready.Leads scope s' t)
    (hglobals : scope = .function → s'.globals = s.globals) : Ready.Leads scope s t :=
  ⟨h.1, fun hscope => (h.2 hscope).trans (hglobals hscope)⟩

theorem Ready.stmt (h : Ready scope bound s) {node : Node} (hrun : stmt node ctx s = .ok ((), s')) :
    Ready.Leads scope s s' := by
  obtain ⟨made, hmakes, hready, -⟩ := performs_stmt (P := fun _ => True) node bound
    (permits_unrestricted.keeps node bound) s s' hrun h
  exact ⟨⟨_, hready⟩, fun hscope => hmakes.globals (h.scope.trans hscope)⟩

theorem Ready.block (h : Ready scope bound s) {nodes : List Node}
    (hrun : block nodes ctx s = .ok ((), s')) : Ready.Leads scope s s' := by
  obtain ⟨made, hmakes, hready, -⟩ := performs_block (P := fun _ => True) nodes bound
    (permits_unrestricted.keepsAll nodes bound) s s' hrun h
  exact ⟨⟨_, hready⟩, fun hscope => hmakes.globals (h.scope.trans hscope)⟩

/-- Where the lowering of statements begins ready, it is ready at all points. -/
theorem Ready.visits (hvisits : Visits ctx inner t nodes s) :
    ∀ {bound}, Ready scope bound s → Ready.Leads scope s t := by
  induction hvisits with
  | here => exact fun h => ⟨⟨_, h⟩, fun _ => rfl⟩
  | later hrun _ ih =>
    intro bound h
    obtain ⟨⟨_, hnext⟩, hglobals⟩ := h.stmt hrun
    exact (ih hnext).after hglobals
  | inThen hopen _ ih =>
    exact fun h => (ih (h.same (sameTables_openThen hopen))).after fun _ =>
      (sameTables_openThen hopen).globals
  | inElse hopen hthen helse _ ih =>
    intro bound h
    have hsame := sameTables_openThen hopen
    obtain ⟨⟨_, hnext⟩, hglobals⟩ := (h.same hsame).block hthen
    have hgo := computes_goTo.sameTables helse
    exact (ih (hnext.same hgo)).after fun hscope =>
      (hgo.globals.trans (hglobals hscope)).trans hsame.globals
  | inLoop hopen _ ih =>
    exact fun h => (ih (h.same (sameTables_openLoop hopen))).after fun _ =>
      (sameTables_openLoop hopen).globals

end Access

theorem Pending.ready_openBody {r : Routine} {rest : List Routine} {k : Nat}
    (before : Pending ctx statements (r :: rest) s) (h : openBody r k ctx s = .ok ((), t)) :
    Access.Ready.Leads .function s t := by
  unfold openBody at h
  obtain ⟨_, s₀, henter, h⟩ := run_bind h
  obtain rfl : s.enter r = s₀ := congrArg Prod.snd (Except.ok.inj henter)
  rw [run_get] at h
  have hparams : ∀ p ∈ (r.params.take k).zip (s.enter r).builder.func.paramValues,
      p.2.ty = .i64 := fun p hp => (Access.params_enter s r).1 p.2 (List.of_mem_zip hp).2
  obtain ⟨made, hmakes, hready, -⟩ := Access.performs_bindParams (D := .unrestricted)
    (P := fun _ => True) hparams [] (by simp [Rules.unrestricted]) _ t h
    (Access.ready_enter r before.entered.outside)
  exact ⟨⟨_, hready⟩, fun _ => hmakes.globals rfl⟩

/-- At every point of the lowering of a unit variables are of the right kinds. -/
theorem ComesTo.kindsFit (h : ComesTo ctx statements t) : t.KindsFit := by
  cases h with
  | params before k hopen =>
    obtain ⟨⟨bound, ht⟩, -⟩ := before.ready_openBody hopen
    exact ht.kindsFit
  | stmt hattempts =>
    cases hattempts with
    | entry hinits hvisits =>
      have hstart := ready_start ctx.target ctx.naming statements
      have hready := hstart.same ((Access.writes_callInits _).lifted.sameTables hinits)
      obtain ⟨⟨bound, ht⟩, -⟩ := Access.Ready.visits hvisits hready
      exact ht.kindsFit
    | body before hopen hvisits =>
      obtain ⟨⟨bound, hready⟩, -⟩ := before.ready_openBody hopen
      obtain ⟨⟨bound', ht⟩, -⟩ := Access.Ready.visits hvisits hready
      exact ht.kindsFit

end

end ScriptCompiler.Lowering
