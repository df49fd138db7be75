import Mathlib.Data.List.Nodup
import ScriptCompiler.Proofs.Stage.Code

/-!
# The functions of a unit one by one

A unit is lowered by its entry function and then by its functions, in the order of their first
definitions. `Pending` says which states the lowering passes between two of them, and which
functions are left then. What holds at the start and is kept by every move holds of all these states
(`Pending.invariant`).
-/

namespace ScriptCompiler.Lowering

open Ir

/-- The functions `todo` of a unit are still to be lowered when the state is `s`. -/
inductive Pending (ctx : Context) (statements : List Node) : List Routine → State → Prop where
  | entry {s : State}
      (h : entryFunction statements ctx (State.start ctx.target ctx.naming statements) =
        .ok ((), s)) : Pending ctx statements s.functions s
  | body {r : Routine} {rest : List Routine} {s s' : State}
      (before : Pending ctx statements (r :: rest) s) (h : functionBody r ctx s = .ok ((), s')) :
      Pending ctx statements rest s'

/-- The unit lowers the body of the function `r` from the state `s` to the state `s'`. -/
def LowersBody (ctx : Context) (statements : List Node) (r : Routine) (s s' : State) : Prop :=
  ∃ rest, Pending ctx statements (r :: rest) s ∧ functionBody r ctx s = .ok ((), s')

/-- The symbols that are declared or defined outside functions are the same in two states. -/
structure SameLinkage (s s' : State) : Prop where
  globals : s'.assembly.globals = s.assembly.globals
  declarations : s'.assembly.declarations = s.assembly.declarations
  externals : s'.externals = s.externals
  cleanup : s'.cleanup = s.cleanup
  strings : s'.strings = s.strings

theorem sameLinkage_enter (s : State) (r : Routine) : SameLinkage s (s.enter r) :=
  ⟨rfl, rfl, rfl, rfl, rfl⟩

theorem Stage.sameLinkage_finish (g : Stage) (t : Instr) : SameLinkage g.state (g.finish t) :=
  ⟨rfl, rfl, rfl, rfl, rfl⟩

section

variable {ctx : Context} {statements : List Node} {todo : List Routine} {r : Routine}
  {s s' : State}

theorem Stage.Completes.definedOnce {P : Lexicon} {start g : Stage} {t : Instr}
    (h : Stage.Completes ctx P start g t) : DefinedOnce (g.complete t).instrs := by
  rw [h.instrs]
  exact definedOnce_of_nodup h.written.distinct

section

variable {p : String → Prop}

/-- A state in which every function may begin. -/
def Opens (ctx : Context) (p : String → Prop) (s : State) : Prop :=
  ∀ r, (Stage.routine s r).Sound ctx (.of p)

/-- The entry function is lowered by steps from its beginning, which are those of its statements and
what stands around them. -/
theorem concludes_entry {P : Lexicon} {R : Stage → Stage → Prop}
    (hP : ∀ name ∈ Node.namesAll statements, P name)
    (hT : ∀ T, P.thrift = some T → Stage.Serves ctx statements T)
    (hnoted : P.noted ⊆ (State.start ctx.target ctx.naming statements).functions)
    (hblock : Stage.Performs ctx P R (block statements)) :
    (∀ s, entryFunction statements ctx (State.start ctx.target ctx.naming statements) = .ok ((), s) →
      ∃ g t, Stage.Completes ctx P
          (Stage.entry ctx (State.start ctx.target ctx.naming statements)) g t ∧ s = g.finish t ∧
        Stage.Enters ctx P R (Stage.entry ctx (State.start ctx.target ctx.naming statements)) g t) ∧
    ∀ e, entryFunction statements ctx (State.start ctx.target ctx.naming statements) = .error e →
      ∃ g, Stage.Steps ctx P (Stage.entry ctx (State.start ctx.target ctx.naming statements)) g ∧
        Fails P g.state e := by
  have hsame := Stage.sameCode_start ctx.target ctx.naming statements
  have hnext : (State.start ctx.target ctx.naming statements).builder.func.paramRegs =
      List.range (State.start ctx.target ctx.naming statements).builder.nextReg := by
    rw [hsame.builder]
    rfl
  obtain ⟨hok, herror⟩ := Stage.concludes_entryFunction hsame.scope hsame.loopEnds hblock
    (Stage.fresh_entry hnext) (Stage.sound_entry hP hT hnoted) .refl
  exact ⟨fun _ h => hok h, fun _ h => herror h⟩

theorem entry_enters {R : Stage → Stage → Prop} (hp : ∀ name ∈ Node.namesAll statements, p name)
    (hblock : Stage.Performs ctx (.of p) R (block statements))
    (h : entryFunction statements ctx (State.start ctx.target ctx.naming statements) =
      .ok ((), s)) :
    ∃ g t, Stage.Completes ctx (.of p)
        (Stage.entry ctx (State.start ctx.target ctx.naming statements)) g t ∧ s = g.finish t ∧
      Stage.Enters ctx (.of p) R
        (Stage.entry ctx (State.start ctx.target ctx.naming statements)) g t :=
  (concludes_entry hp (fun _ => Lexicon.of_thrift) (List.nil_subset _) hblock).1 s h

theorem performs_blockOf {nodes : List Node} (hp : ∀ name ∈ Node.namesAll nodes, p name) :
    Stage.Performs ctx (.of p) Stage.Any (block nodes) :=
  Stage.performs_block nodes (Lexicon.covers_of hp _ _) (fun _ _ => trivial)
    fun _ _ _ => Lexicon.of_thrift

theorem entry_completes (hp : ∀ name ∈ Node.namesAll statements, p name)
    (h : entryFunction statements ctx (State.start ctx.target ctx.naming statements) =
      .ok ((), s)) :
    ∃ g t, Stage.Completes ctx (.of p)
      (Stage.entry ctx (State.start ctx.target ctx.naming statements)) g t ∧ s = g.finish t := by
  obtain ⟨g, t, hdone, hs, -⟩ := entry_enters hp (performs_blockOf hp) h
  exact ⟨g, t, hdone, hs⟩

theorem Stage.loopEnds_of_sound {P : Lexicon} (h : (Stage.routine s r).Sound ctx P) :
    s.loopEnds = [] :=
  List.eq_nil_iff_forall_not_mem.mpr fun l hl => by simpa [Stage.routine] using h.loopEnds l hl

theorem body_completes (hs : Opens ctx p s) (hr : r ∈ s.functions)
    (h : functionBody r ctx s = .ok ((), s')) :
    ∃ g t, Stage.Completes ctx (.of p) (Stage.routine s r) g t ∧ s' = g.finish t := by
  obtain ⟨g, t, hdone, hs', -⟩ := (Stage.concludes_bodyFrom (hs r)
    (fun _ _ _ => rfl) (fun g _ _ => performs_blockOf ((hs r).routines r hr).named g)
    (Stage.loopEnds_of_sound (hs r))).1 s' h
  exact ⟨g, t, hdone, hs'⟩

/-- Between two functions every function may begin, and those that are left have been noted. -/
theorem Pending.opens (hp : ∀ name ∈ Node.namesAll statements, p name)
    (h : Pending ctx statements todo s) : Opens ctx p s ∧ todo ⊆ s.functions := by
  induction h with
  | entry h =>
    obtain ⟨g, t, hdone, rfl⟩ := entry_completes hp h
    exact ⟨hdone.sound_routine, List.Subset.refl _⟩
  | @body r rest s s' _ h ih =>
    obtain ⟨hs, hsub⟩ := ih
    obtain ⟨g, t, hdone, rfl⟩ := body_completes hs (hsub List.mem_cons_self) h
    refine ⟨hdone.sound_routine, List.Subset.trans ?_ (Stage.Steps.persists hdone.steps).routines⟩
    exact List.Subset.trans (List.subset_cons_self r rest) hsub

theorem Pending.completes (hp : ∀ name ∈ Node.namesAll statements, p name)
    (before : Pending ctx statements (r :: todo) s) (h : functionBody r ctx s = .ok ((), s')) :
    ∃ g t, Stage.Completes ctx (.of p) (Stage.routine s r) g t ∧ s' = g.finish t := by
  obtain ⟨hs, hsub⟩ := before.opens hp
  exact body_completes hs (hsub List.mem_cons_self) h

/-- Steps keep what depends on symbols only and what every move keeps. -/
theorem Stage.Steps.invariant {P : Lexicon} {I : State → Prop}
    (hsame : ∀ {s s' : State}, SameLinkage s s' → I s → I s')
    (hmove : ∀ {g g' : Stage}, g.Sound ctx P → Stage.Move ctx P g g' → I g.state → I g'.state)
    {g g' : Stage} (h : Stage.Steps ctx P g g') (hg : g.Sound ctx P) (hI : I g.state) :
    I g'.state := by
  induction h with
  | refl => exact hI
  | tail hsteps hstep ih =>
    cases hstep with
    | move h => exact hmove (Stage.Steps.sound hsteps hg) h ih
    | label | jump | enterLoop | leaveLoop =>
      -- A change of blocks touches no symbol.
      refine hsame ?_ ih
      exact ⟨rfl, rfl, rfl, rfl, rfl⟩

/-- What depends on symbols only and what every move keeps holds between two functions. -/
theorem Pending.invariant (hp : ∀ name ∈ Node.namesAll statements, p name) {I : State → Prop}
    (hsame : ∀ {s s' : State}, SameLinkage s s' → I s → I s')
    (hmove : ∀ {g g' : Stage}, g.Sound ctx (.of p) → Stage.Move ctx (.of p) g g' → I g.state →
      I g'.state)
    (hstart : I (State.start ctx.target ctx.naming statements))
    (h : Pending ctx statements todo s) : I s := by
  induction h with
  | entry h =>
    obtain ⟨g, t, hdone, rfl⟩ := entry_completes hp h
    exact hsame (Stage.sameLinkage_finish g t)
      (Stage.Steps.invariant hsame hmove hdone.steps hdone.origin hstart)
  | @body r rest s s' before h ih =>
    obtain ⟨g, t, hdone, rfl⟩ := before.completes hp h
    have henter : I (Stage.routine s r).state := hsame (sameLinkage_enter s r) ih
    exact hsame (Stage.sameLinkage_finish g t)
      (Stage.Steps.invariant hsame hmove hdone.steps hdone.origin henter)

end

/-- Steps give no two functions one name. -/
theorem Stage.Steps.distinct {P : Lexicon} {g g' : Stage} (h : Stage.Steps ctx P g g')
    (hg : (g.state.functions.map (·.name)).Nodup) : (g'.state.functions.map (·.name)).Nodup := by
  induction h with
  | refl => exact hg
  | tail _ hstep ih =>
    cases hstep with
    | move h =>
      cases h with
      | bind name b =>
        unfold State.bind
        split <;> exact ih
      | note s same => exact same.distinct ih
      | _ => exact ih
    | _ => exact ih

theorem Pending.distinct (h : Pending ctx statements todo s) : (s.functions.map (·.name)).Nodup := by
  induction h with
  | entry h =>
    obtain ⟨g, t, hdone, rfl⟩ := entry_completes (p := fun _ => True) (fun _ _ => trivial) h
    have hsteps := Stage.Steps.distinct hdone.steps
    exact hsteps ((Stage.sameCode_start ctx.target ctx.naming statements).distinct List.nodup_nil)
  | body before h ih =>
    obtain ⟨g, t, hdone, rfl⟩ := before.completes (p := fun _ => True) (fun _ _ => trivial) h
    have hsteps := Stage.Steps.distinct hdone.steps
    exact hsteps ih

/-- A function that is left is the one that was noted for its name. -/
theorem Pending.notedBody_eq (h : Pending ctx statements (r :: todo) s) :
    notedBody r ctx s = functionBody r ctx s := by
  have hmem : r ∈ s.functions :=
    (h.opens (p := fun _ => True) fun _ _ => trivial).2 List.mem_cons_self
  have hnoted : s.routine? r.name = some r := by
    obtain ⟨q, hq⟩ : ∃ q, s.routine? r.name = some q :=
      Option.isSome_iff_exists.mp (List.find?_isSome.mpr ⟨r, hmem, by simp⟩)
    have hname : q.name = r.name := by simpa using List.find?_some hq
    rw [hq, List.inj_on_of_nodup_map h.distinct (List.mem_of_find?_eq_some hq) hmem hname]
  rw [notedBody, run_get]
  simp only [hnoted]

/-- When the entry function is complete, it is the only function. -/
structure EntryDone (ctx : Context) (s : State) : Prop where
  functions : s.assembly.functions = [s.builder.func]
  name : s.builder.func.name = ctx.naming.entrySymbol
  once : DefinedOnce s.builder.func.instrs

/-- When a function is complete, it is the last one. -/
structure BodyDone (r : Routine) (s s' : State) : Prop where
  functions : s'.assembly.functions = s.assembly.functions ++ [s'.builder.func]
  signature : s'.builder.func.signature = ⟨r.symbol, .i64, r.params.map fun _ => .i64⟩
  once : DefinedOnce s'.builder.func.instrs

theorem entryDone
    (h : entryFunction statements ctx (State.start ctx.target ctx.naming statements) =
      .ok ((), s)) : EntryDone ctx s := by
  obtain ⟨g, t, hdone, rfl⟩ := entry_completes (p := fun _ => True) (fun _ _ => trivial) h
  obtain ⟨hone, hname⟩ := hdone.functions_finish
  exact ⟨hone, hname, hdone.definedOnce⟩

theorem bodyDone (before : Pending ctx statements (r :: todo) s)
    (h : functionBody r ctx s = .ok ((), s')) : BodyDone r s s' := by
  obtain ⟨g, t, hdone, rfl⟩ := before.completes (p := fun _ => True) (fun _ _ => trivial) h
  have hpersists := Stage.Steps.persists hdone.steps
  refine ⟨?_, ?_, hdone.definedOnce⟩
  · show g.state.assembly.functions ++ [g.complete t] = _
    rw [hpersists.functions]
    rfl
  · show (⟨g.func.name, g.func.ret, g.func.params.map Prod.snd⟩ : Signature) = _
    rw [hpersists.name, hpersists.ret, hpersists.params]
    exact Func.signature_skeleton _ _ _

theorem Pending.mem_functions (h : Pending ctx statements todo s) {f : Func}
    (hf : f ∈ s.assembly.functions) :
    (∃ s₁, entryFunction statements ctx (State.start ctx.target ctx.naming statements) =
        .ok ((), s₁) ∧ f = s₁.builder.func) ∨
      ∃ r s₁ s₂, LowersBody ctx statements r s₁ s₂ ∧ f = s₂.builder.func := by
  induction h with
  | @entry s h =>
    rw [(entryDone h).functions] at hf
    exact .inl ⟨s, h, List.mem_singleton.mp hf⟩
  | @body r rest s s' before h ih =>
    rw [(bodyDone before h).functions, List.mem_append, List.mem_singleton] at hf
    exact hf.elim ih fun hf => .inr ⟨r, s, s', ⟨rest, before, h⟩, hf⟩

/-- Every function so far is completed by steps from a fresh stage, and the first one is the entry
function. -/
theorem Pending.functions (h : Pending ctx statements todo s) :
    s.assembly.functions.head?.map (·.name) = some ctx.naming.entrySymbol ∧
      ∀ f ∈ s.assembly.functions, ∃ start g t,
        Stage.Completes ctx .any start g t ∧ f = g.complete t ∧
          g.globals ⊆ s.assembly.globals := by
  induction h with
  | entry h =>
    obtain ⟨g, t, hdone, rfl⟩ := entry_completes (p := fun _ => True) (fun _ _ => trivial) h
    obtain ⟨hone, hname⟩ := hdone.functions_finish
    rw [hone]
    refine ⟨congrArg some hname, fun f hf => ?_⟩
    exact ⟨_, g, t, hdone, List.mem_singleton.mp hf, List.Subset.refl _⟩
  | @body r rest s s' before h ih =>
    obtain ⟨g, t, hdone, rfl⟩ := before.completes (p := fun _ => True) (fun _ _ => trivial) h
    obtain ⟨hfirst, hall⟩ := ih
    have hpersists := Stage.Steps.persists hdone.steps
    have hfunctions : (g.finish t).assembly.functions = s.assembly.functions ++ [g.complete t] :=
      congrArg (· ++ [g.complete t]) hpersists.functions
    rw [hfunctions]
    refine ⟨by rw [List.head?_append, Option.map_or, hfirst, Option.some_or], fun f hf => ?_⟩
    rcases List.mem_append.mp hf with hf | hf
    · obtain ⟨start, g', t', hdone', hf, hsub⟩ := hall f hf
      exact ⟨start, g', t', hdone', hf, List.Subset.trans hsub hpersists.globals⟩
    · exact ⟨_, g, t, hdone, List.mem_singleton.mp hf, List.Subset.refl _⟩

/-! ## The unit -/

variable {target : Target} {naming : Naming} {observed : List String} {u : Generated}

theorem exists_generate (target : Target) (naming : Naming) (observed : List String)
    (statements : List Node) (p : Generated → Bool)
    (h : (generate target naming observed statements).toOption.any p = true) :
    ∃ u, generate target naming observed statements = .ok u ∧ p u = true := by
  cases hu : generate target naming observed statements with
  | error e => simp [hu, Except.toOption] at h
  | ok u => exact ⟨u, rfl, by simpa [hu, Except.toOption] using h⟩

/-- A unit is generated by lowering its entry function and then its functions. -/
theorem generate_run (hctx : ctx = Stage.contextOf target naming observed statements)
    (hu : generate target naming observed statements = .ok u) :
    ∃ s₁ s, entryFunction statements ctx (State.start ctx.target ctx.naming statements) =
        .ok ((), s₁) ∧
      s₁.functions.forM notedBody ctx s₁ = .ok ((), s) ∧
      u = ⟨s.assembly, s.cleanup, s.warnings⟩ := by
  subst hctx
  have hrun : (wholeUnit statements (Stage.contextOf target naming observed statements)
      (State.start target naming statements) >>=
      fun p => pure (⟨p.2.assembly, p.2.cleanup, p.2.warnings⟩ : Generated)) = .ok u := hu
  cases hw : wholeUnit statements (Stage.contextOf target naming observed statements)
      (State.start target naming statements) with
  | error e =>
    rw [hw] at hrun
    simp [Bind.bind, Except.bind] at hrun
  | ok p =>
    obtain ⟨⟨⟩, s⟩ := p
    rw [hw] at hrun
    obtain ⟨_, s₁, hentry, hrest⟩ :=
      run_bind (f := fun _ => do (← get).functions.forM notedBody) hw
    exact ⟨s₁, s, hentry, hrest, (Except.ok.inj hrun).symm⟩

theorem state_of_forM (h : s.functions.forM notedBody ctx s = .ok ((), s'))
    (hnone : s.functions = []) : s = s' := by
  rw [hnone] at h
  exact congrArg Prod.snd (Except.ok.inj h)

theorem Pending.forM (h : Pending ctx statements todo s)
    (hrun : todo.forM notedBody ctx s = .ok ((), s')) : Pending ctx statements [] s' := by
  induction todo generalizing s with
  | nil =>
    obtain rfl : s = s' := congrArg Prod.snd (Except.ok.inj hrun)
    exact h
  | cons r rest ih =>
    obtain ⟨_, s₁, hr, hrest⟩ := run_bind (f := fun _ => rest.forM notedBody) hrun
    rw [h.notedBody_eq] at hr
    exact ih (.body h hr) hrest

/-- Between two functions a unit is what is left of it. -/
theorem Pending.wholeUnit_eq (h : Pending ctx statements todo s) :
    wholeUnit statements ctx (State.start ctx.target ctx.naming statements) =
      todo.forM notedBody ctx s := by
  induction h with
  | entry h => exact run_bind_ok h
  | body before h ih => exact ih.trans (run_bind_ok (before.notedBody_eq.trans h))

theorem error_of_bind {α β : Type} {x : Except Error α} {f : α → Except Error β} {e : Error}
    (h : x >>= f = .error e) : x = .error e ∨ ∃ a, x = .ok a ∧ f a = .error e := by
  cases x with
  | error e' => exact .inl (congrArg Except.error (Except.error.inj h))
  | ok a => exact .inr ⟨a, rfl, h⟩

theorem Pending.exists_failure {e : Error} (h : Pending ctx statements todo s)
    (hrun : todo.forM notedBody ctx s = .error e) :
    ∃ r rest s', Pending ctx statements (r :: rest) s' ∧ functionBody r ctx s' = .error e := by
  induction todo generalizing s with
  | nil => exact nomatch hrun
  | cons r rest ih =>
    have hrun : (notedBody r ctx s >>= fun p => rest.forM notedBody ctx p.2) = .error e := hrun
    rw [h.notedBody_eq] at hrun
    rcases error_of_bind hrun with hbody | ⟨p, hbody, hrest⟩
    · exact ⟨r, rest, s, h, hbody⟩
    · exact ih (.body h hbody) hrest

theorem generate_failure {e : Error} (hctx : ctx = Stage.contextOf target naming observed statements)
    (h : generate target naming observed statements = .error e) :
    entryFunction statements ctx (State.start ctx.target ctx.naming statements) = .error e ∨
      ∃ r rest s, Pending ctx statements (r :: rest) s ∧ functionBody r ctx s = .error e := by
  subst hctx
  have h : ((entryFunction statements (Stage.contextOf target naming observed statements)
      (State.start target naming statements) >>= fun p =>
        p.2.functions.forM notedBody (Stage.contextOf target naming observed statements) p.2) >>=
      fun p => pure (⟨p.2.assembly, p.2.cleanup, p.2.warnings⟩ : Generated)) = .error e := h
  rcases error_of_bind h with hunit | ⟨p, -, hdone⟩
  · rcases error_of_bind hunit with hentry | ⟨p, hentry, hrest⟩
    · exact .inl hentry
    · exact .inr ((Pending.entry hentry).exists_failure hrest)
  · exact nomatch hdone

theorem generate_pending (hctx : ctx = Stage.contextOf target naming observed statements)
    (hu : generate target naming observed statements = .ok u) :
    ∃ s, Pending ctx statements [] s ∧ u = ⟨s.assembly, s.cleanup, s.warnings⟩ := by
  obtain ⟨s₁, s, hentry, hrest, hs⟩ := generate_run hctx hu
  exact ⟨s, (Pending.entry hentry).forM hrest, hs⟩

/-- Every function of a unit that is generated is completed by steps from a fresh stage, and the
first one is the entry function. -/
theorem Stage.generate_functions (hu : generate target naming observed statements = .ok u) :
    (u.assembly.functions.head?.map (·.name)) = some naming.entrySymbol ∧
      ∀ f ∈ u.assembly.functions, ∃ start g t,
        Completes (contextOf target naming observed statements) .any start g t ∧
        f = g.complete t ∧ g.globals ⊆ u.assembly.globals := by
  obtain ⟨s, hs, rfl⟩ := generate_pending rfl hu
  exact hs.functions

end

end ScriptCompiler.Lowering
