import ScriptCompiler.Proofs.Access.Recording
import ScriptCompiler.Proofs.Access.Watch
import ScriptCompiler.Proofs.Paths.Reads

/-!
# Reads after assignments

A function reads a name from the slot of its own variable, or from outside where it has none. Which of
the two an identifier stands for is settled in the order of the text, while a loop comes back to text
that it has passed.

`generate_readsBack` says what that comes to in a run. Once something was assigned to a name, every
read of the name finds what was stored in its slot last, unless a loop that assigns the name first
reads it further up (`readsAheadAll`). The code of such a function has a place where the variable is
made: nothing is stored in its slot before, nothing behind it leads back, and nothing behind it reads
the name from outside (`Parted`). `readsOutside_readAhead` shows a function with such a loop,
which goes on reading the variable at top level.
-/

namespace ScriptCompiler.Lowering

open Ir List
open Numeric (assigned assignedAll)

/-- In the past of a run of a function, every read of `x` that comes after an assignment gives what was
stored in the slot `r` of `x` last, and none is from outside. -/
def ReadsBack (naming : Naming) (names : List String) (x : String) (r : Reg) (past : Past) : Prop :=
  ∀ later dst a d earlier, past = later ++ .loaded dst a d :: earlier → ¬ Unset earlier (.slot r) →
    (a = .slot r → lastStored earlier (.slot r) = some d) ∧
      ∀ symbol, a = .global symbol → ¬ IsOutside naming names x symbol

/-- In the past of a run of a function, every record that was given a new value had been read from the
slot of a local variable. -/
def UpdatesRead (locals : Table Binding) (past : Past) : Prop :=
  ∀ later d ys earlier, past = later ++ .called none Catalog.boxUpdate (d :: ys) none :: earlier →
    ∃ y b r dst, locals.lookup y = some b ∧ b.slot = .reg r .ptr ∧ .loaded dst (.slot r) d ∈ earlier

/-- The code of a function is divided by the place where the variable `x` is made, with the slot
`r`. -/
structure Parted (naming : Naming) (names : List String) (x : String) (r : Reg)
    (f : Func) (early late : List Instr) : Prop where
  splits : f.Splits early late
  quiet : ∀ value, .store value (.reg r .ptr) ∈ early → value = .null
  inside : ∀ i ∈ late, ¬ ReadsOutside naming names x i

section

variable {A : Access} {naming : Naming} {f : Func} {S : Surroundings} {φ₀ φ φ' : Frame Past}
  {names : List String} {x : String} {r : Reg} {early late history : List Instr} {c : Point}

/-! ## Runs -/

theorem Parted.unset (h : Parted naming names x r f early late) (hA : A.Keeps naming f)
    (hf : f.Linear) (hbegin : φ₀.Begins f) (hpasses : Passes S f φ₀ history c)
    (hearly : history ⊆ early) : Unset c.frame.world (.slot r) := by
  induction hpasses with
  | start =>
    intro d hd
    rw [Func.frame_start, hbegin.past] at hd
    simp at hd
  | @step history rest i c c' hbefore hcode hnext ih =>
    obtain ⟨hi, hhistory⟩ := cons_subset.mp hearly
    have hunset := ih hhistory
    have hderived := Arises.derived hf hbegin hbefore.arises
    have hmem := hbefore.mem hcode
    cases hnext with
    | br | condBr => exact hunset
    | exec label rest hdoes =>
      obtain ⟨rfl, -⟩ := List.cons.inj hcode
      intro d hd
      cases hdoes with
      | alloca | compute => exact hunset d hd
      | load | loadAny | callVoid | call =>
        exact hunset d ((mem_cons.mp hd).resolve_left (by simp))
      | @store value ptr a d' datum place =>
        rcases mem_cons.mp hd with heq | hd
        · -- The slot is named by its register, so what is stored there is null.
          obtain ⟨rfl, rfl⟩ := Event.stored.inj heq
          have hhome := (hA.home_of_store hderived hmem place).resolve_right (by simp)
          cases hhome with
          | slot =>
            rw [h.quiet value hi] at datum
            exact (Option.some.inj datum).symm
        · exact hunset d hd

theorem Parted.code_subset (h : Parted naming names x r f early late) (hA : A.Keeps naming f)
    (hf : f.Linear) (hbegin : φ₀.Begins f) (hc : Arises S f φ₀ c)
    (hassigned : ¬ Unset c.frame.world (.slot r)) : c.code ⊆ late := by
  obtain ⟨history, hpasses⟩ := hc.exists_passes
  exact (hpasses.early_or_late h.splits).resolve_left fun hearly =>
    hassigned (h.unset hA hf hbegin hpasses hearly)

theorem ReadsBack.cons {past : Past} {e : Event} (h : ReadsBack naming names x r past)
    (he : ∀ dst a d, e = .loaded dst a d → ¬ Unset past (.slot r) →
      (a = .slot r → lastStored past (.slot r) = some d) ∧
        ∀ symbol, a = .global symbol → ¬ IsOutside naming names x symbol) :
    ReadsBack naming names x r (e :: past) := by
  intro later dst a d earlier heq hassigned
  rcases cons_eq_append_iff.mp heq with ⟨-, hcons⟩ | ⟨later', -, hpast⟩
  · obtain ⟨hload, rfl⟩ := List.cons.inj hcons
    exact he dst a d hload.symm hassigned
  · exact h later' dst a d earlier hpast hassigned

/-- A load in the late part, or before anything is assigned. -/
theorem Parted.load (h : Parted naming names x r f early late) (hA : A.Keeps naming f)
    (hf : f.Linear) (hbegin : φ₀.Begins f) {label : String} {dst : Reg} {ty : Ty} {ptr : Value}
    {rest : List Instr} {a : Address} {d : Datum}
    (hc : Arises S f φ₀ ⟨label, .load dst ty ptr :: rest, φ⟩) (ha : φ.place ptr = some a)
    (hd : φ.memory a = some d ∨ φ.memory a = none) (hassigned : ¬ Unset φ.world (.slot r)) :
    (a = .slot r → lastStored φ.world (.slot r) = some d) ∧
      ∀ symbol, a = .global symbol → ¬ IsOutside naming names x symbol := by
  constructor
  · rintro rfl
    refine hd.elim (Arises.lastStored_slot hbegin hc) fun hnone => ?_
    exact absurd (hA.onlyNull_of_none hf hbegin (.inl ⟨r, rfl⟩) hc hnone) hassigned
  · rintro symbol rfl houtside
    have hhome := hA.home_of_load (Arises.derived hf hbegin hc) (Arises.mem hc) ha
    obtain rfl := (hhome.resolve_right (by simp)).inj (.global symbol)
    have hmem : .load dst ty (.global symbol) ∈ late :=
      h.code_subset hA hf hbegin hc hassigned mem_cons_self
    exact h.inside _ hmem ⟨dst, ty, symbol, rfl, houtside⟩

theorem Parted.readsBack (h : Parted naming names x r f early late) (hA : A.Keeps naming f)
    (hf : f.Linear) (hbegin : φ₀.Begins f) (hc : Arises S f φ₀ c) :
    ReadsBack naming names x r c.frame.world := by
  induction hc with
  | refl =>
    intro later dst a d earlier heq
    rw [Func.frame_start, hbegin.past] at heq
    simp at heq
  | tail hpath hstep ih =>
    cases hstep with
    | br | condBr => exact ih
    | exec label rest hdoes =>
      cases hdoes with
      | alloca | compute => exact ih
      | store | callVoid | call => exact ih.cons (by simp)
      | load dst ty place content =>
        refine ih.cons fun dst' a' d' heq hassigned => ?_
        obtain ⟨rfl, rfl, rfl⟩ := Event.loaded.inj heq
        exact h.load hA hf hbegin hpath place (.inl content) hassigned
      | loadAny dst ty place empty d =>
        refine ih.cons fun dst' a' d' heq hassigned => ?_
        obtain ⟨rfl, rfl, rfl⟩ := Event.loaded.inj heq
        exact h.load hA hf hbegin hpath place (.inr empty) hassigned

/-! ## Updates -/

theorem UpdatesRead.cons {locals : Table Binding} {past : Past} {e : Event}
    (h : UpdatesRead locals past)
    (he : ∀ d ys, e = .called none Catalog.boxUpdate (d :: ys) none →
      ∃ y b r dst, locals.lookup y = some b ∧ b.slot = .reg r .ptr ∧ .loaded dst (.slot r) d ∈ past) :
    UpdatesRead locals (e :: past) := by
  intro later d ys earlier heq
  rcases cons_eq_append_iff.mp heq with ⟨-, hcons⟩ | ⟨later', -, hpast⟩
  · obtain ⟨hcalled, rfl⟩ := List.cons.inj hcons
    exact he d ys hcalled.symm
  · exact h later' d ys earlier hpast

theorem exists_loaded_of_update {ctx : Context} {D : Rules} {s : State} (hA : A.Keeps ctx.naming f)
    (hscope : A.scope = .function) (hwithin : A.Within D names) (hfits : A.Fits ctx D s)
    (hsingle : D.mayRepeat = false) (hφ : φ.Derived f) {ret : Ty} {v : Value} {args : List Value}
    {d : Datum} (hi : .call none ret Catalog.boxUpdate (v :: args) ∈ f.instrs)
    (hd : φ.eval v = some d) :
    ∃ y b r dst, s.locals.lookup y = some b ∧ b.slot = .reg r .ptr ∧
      .loaded dst (.slot r) d ∈ φ.world := by
  obtain ⟨name, storage, slot, hown, -, dst, rfl, hload⟩ := hA.exists_own_of_update hi
  rcases hA.slots _ _ _ hown with ⟨r, rfl, hreserved⟩ | ⟨htop, -⟩
  · -- The variable has one slot, which is the one that it is bound to.
    obtain ⟨b, hb⟩ := hfits.bound _ _ _ hown
    have hslot := hwithin.single hsingle _ _ _ _ _ (hfits.own name b hb) hown
    have hlocals : s.own = s.locals := by rw [State.own, ← hfits.scope, hscope]
    obtain ⟨earlier, hlast⟩ := hφ.loaded (hA.code ▸ hload) (.slot hreserved) hd
    exact ⟨name, b, r, dst, hlocals ▸ hb, hslot, hlast.mem⟩
  · simp [hscope] at htop

theorem updatesRead_of_arises {ctx : Context} {D : Rules} {s : State} (hA : A.Keeps ctx.naming f)
    (hscope : A.scope = .function) (hwithin : A.Within D names) (hfits : A.Fits ctx D s)
    (hsingle : D.mayRepeat = false) (hf : f.Linear) (hbegin : φ₀.Begins f) (hc : Arises S f φ₀ c) :
    UpdatesRead s.locals c.frame.world := by
  induction hc with
  | refl =>
    intro later d ys earlier heq
    rw [Func.frame_start, hbegin.past] at heq
    simp at heq
  | tail hpath hstep ih =>
    cases hstep with
    | br | condBr => exact ih
    | exec label rest hdoes =>
      cases hdoes with
      | alloca | compute => exact ih
      | load | loadAny | store | call => exact ih.cons (by simp)
      | @callVoid args xs memory ret callee data spares =>
        refine ih.cons fun d ys heq => ?_
        obtain ⟨-, rfl, rfl, -⟩ := Event.called.inj heq
        cases args with
        | nil => simp at data
        | cons v args =>
          simp only [mapM_cons, Option.bind_eq_bind, Option.bind_eq_some_iff, Option.pure_def,
            Option.some.injEq, List.cons.injEq] at data
          obtain ⟨d', hd, ys', -, rfl, -⟩ := data
          exact exists_loaded_of_update hA hscope hwithin hfits hsingle
            (Arises.derived hf hbegin hpath) (Arises.mem hpath) hd

end

/-! ## Functions of a unit -/

section

variable {ctx : Context} {statements : List Node} {r : Routine} {s s' : State} {x : String}

theorem Stage.Cuts.parted {names : List String} {start cut g : Stage}
    {t : Instr} {b : Binding} (h : Stage.Cuts ctx names x start cut g)
    (hdone : Stage.Completes ctx .any start g t) (hb : g.state.own.lookup x = some b) :
    ∃ q early late, b.slot = .reg q .ptr ∧
      Parted ctx.naming names x q (g.complete t) early late := by
  obtain ⟨q, hslot, hnext⟩ := h.slot b hb
  obtain ⟨late, hlate, hsplits⟩ := hdone.splits h.prolongs h.adds fun _ hi => hi.leads
  refine ⟨q, _, late, hslot, hsplits, fun value hmem => ?_, fun i hi => ?_⟩
  · rcases mem_append.mp hmem with hhead | hbody
    · exact Stage.Steps.head_null hdone.steps hdone.fresh hhead
    · -- Further up the register of the slot is not in use.
      have hwritten := (Stage.Steps.written h.steps hdone.fresh hdone.origin).2
      have hreads : .reg q .ptr ∈ (Instr.store value (.reg q .ptr)).operands := by
        simp [Instr.operands]
      exact absurd hnext (Nat.not_le.mpr (hwritten.operand_lt hbody hreads))
  · rcases hlate i hi with hbehind | rfl
    · exact hbehind.spares
    · obtain ⟨v, rfl⟩ := hdone.returns
      simp [ReadsOutside]

theorem local_enter (r : Routine) (houtside : Access.Outside ctx.naming s.globals) :
    Access.Local ctx.naming [] (s.enter r) where
  toReady := Access.ready_enter r houtside
  slots := fun name b hb => by simp [State.enter, State.own] at hb
  outside := houtside

theorem local_functionBody (houtside : Access.Outside ctx.naming s.globals)
    (hrun : functionBody r ctx s = .ok ((), s')) :
    Access.Local ctx.naming (r.params ++ assignedAll r.body) s' := by
  obtain ⟨made, -, hlocal⟩ := (local_enter r houtside).performs
    (Access.performs_body (D := .unrestricted) (permits_unrestricted.keepsAll r.body r.params)
      (by simp [Rules.unrestricted]) _) (Access.functionBody_run hrun)
  exact hlocal

theorem parted_of_param {q : Reg} (hx : Dotless x) (hnames : ∀ name ∈ Node.readsAll r.body, Dotless name)
    (houtside : Access.Outside ctx.naming s.globals) (hrun : functionBody r ctx s = .ok ((), s'))
    (honce : DefinedOnce s'.builder.func.instrs) (hparam : x ∈ r.params) :
    Parted ctx.naming (Node.readsAll r.body) x q s'.builder.func [] s'.builder.func.instrs := by
  have hkeeps : ((Rules.assignedFirst x).among (Node.readsAll r.body)).keepsAll r.params r.body :=
    keepsAll_among r.body r.params r.params id (List.Subset.refl _) fun hnot => absurd hparam hnot
  have hinside : ∀ i ∈ s'.builder.func.instrs, i ∈ (s.enter r).builder.func.instrs ∨
      ¬ ReadsOutside ctx.naming (Node.readsAll r.body) x i := fun i =>
    (local_enter r houtside).inside hx hnames
      (Access.performs_body hkeeps (by simp [Rules.among, Rules.assignedFirst]) _) trivial
      (Access.obeys_skeleton honce).toHosts (Access.functionBody_run hrun)
  have hblock : ∀ b ∈ s'.builder.func.blocks, b.instrs ⊆ s'.builder.func.instrs :=
    fun b hb i hi => mem_flatMap.mpr ⟨b, hb, hi⟩
  refine ⟨⟨fun b hb => ⟨[], b.instrs, rfl, nil_subset _, hblock b hb⟩, fun _ _ _ _ b hb => ?_⟩,
    by simp, fun i hi => (hinside i hi).resolve_left ?_⟩
  · exact hblock b (mem_of_find?_eq_some hb)
  · simp [State.enter, Builder.ofFunc, Func.skeleton, Func.instrs]

theorem exists_cuts (hx : Dotless x) (hnames : ∀ name ∈ Node.readsAll r.body, Dotless name)
    {rest : List Routine} (hpending : Pending ctx statements (r :: rest) s)
    (hrun : functionBody r ctx s = .ok ((), s')) (hparam : x ∉ r.params)
    (hassigned : x ∈ assignedAll r.body) (hahead : readsAheadAll x r.body = false) :
    ∃ g t cut, Stage.Completes ctx .any (Stage.routine s r) g t ∧ s' = g.finish t ∧
      Stage.Cuts ctx (Node.readsAll r.body) x (Stage.routine s r) cut g := by
  obtain ⟨hopens, -⟩ := hpending.opens (p := fun _ => True) fun _ _ => trivial
  have hstart : Stage.Begins ctx (Node.readsAll r.body) x (Stage.routine s r) :=
    ⟨Stage.fresh_routine s r, hopens r, hx, hnames⟩
  obtain ⟨hwords, hzip⟩ := Access.params_enter s r
  obtain ⟨g, t, hdone, hs', g₁, hparams, hseparates⟩ :=
    (Stage.concludes_bodyFrom (R := fun g₁ g => bindParams
        (r.params.zip (Stage.routine s r).func.paramValues) ctx (Stage.routine s r).state =
          .ok ((), g₁.state) ∧
        Stage.Separates ctx (Node.readsAll r.body) x (Stage.routine s r) r.params
          (assignedAll r.body) g₁ g) (hopens r) (fun _ _ _ => rfl)
      (fun g₁ hsteps hparams hready => (Stage.cuts_block hstart r.body (List.Subset.refl _) r.params
        g₁ (fun _ => hahead) hsteps hready).mono fun _ _ _ h => ⟨h.1, hparams, h.2⟩)
      (Stage.loopEnds_of_sound (hopens r))).1 s' hrun
  have hm : Access.Performs ctx .function .unrestricted [] (fun _ => True) [] _
      (bindParams (r.params.zip (s.enter r).builder.func.paramValues)) :=
    Access.performs_bindParams (fun p hp => hwords p.2 (of_mem_zip hp).2) []
      (by simp [Rules.unrestricted])
  obtain ⟨made, -, hlocal⟩ :=
    (local_enter r hpending.entered.outside).performs (hm _) hparams
  rw [hzip, nil_append] at hlocal
  obtain ⟨cut, hcut⟩ := hseparates hlocal hparam hassigned
  exact ⟨g, t, cut, hdone, hs', hcut⟩

/-- Every variable of a function has a slot, and the place where it is made divides the code, unless
its name is read ahead. -/
theorem LowersBody.exists_parted (h : LowersBody ctx statements r s s') (hx : Dotless x)
    (hnames : ∀ name ∈ Node.readsAll r.body, Dotless name)
    (hmem : x ∈ r.params ++ assignedAll r.body)
    (hahead : x ∉ r.params → readsAheadAll x r.body = false) :
    ∃ b q early late, s'.locals.lookup x = some b ∧ b.slot = .reg q .ptr ∧
      Parted ctx.naming (Node.readsAll r.body) x q s'.builder.func early late := by
  obtain ⟨rest, hpending, hrun⟩ := h
  have hlocal := local_functionBody hpending.entered.outside hrun
  have hlocals : s'.own = s'.locals := by rw [State.own, hlocal.scope]
  obtain ⟨b, hb⟩ := (hlocal.bound x).mp hmem
  by_cases hparam : x ∈ r.params
  · obtain ⟨q, hslot⟩ := hlocal.slots x b hb
    exact ⟨b, q, [], _, hlocals ▸ hb, hslot, parted_of_param hx hnames hpending.entered.outside hrun
      (bodyDone hpending hrun).once hparam⟩
  · have hassigned := (mem_append.mp hmem).resolve_left hparam
    obtain ⟨g, t, cut, hdone, rfl, hcut⟩ :=
      exists_cuts hx hnames hpending hrun hparam hassigned (hahead hparam)
    obtain ⟨q, early, late, hslot, hparted⟩ := hcut.parted hdone hb
    exact ⟨b, q, early, late, hlocals ▸ hb, hslot, hparted⟩

end

/-- In every run of a function, a read of a name that comes after an assignment to it finds what was
stored in the slot of the name last, and is not one from outside. This is so of every parameter, and
of every other name that the function assigns if no loop that assigns it first reads it further up.
What a boxed variable has in its slot is its record, which only gets a new value for a variable from
whose slot it was read. -/
theorem generate_readsBack {target : Target} {naming : Naming} {observed : List String}
    {statements : List Node} {u : Generated}
    (hu : generate target naming observed statements = .ok u) :
    ∃ done : List (Routine × Func),
      u.assembly.functions.tail = done.map (·.2) ∧
      done.map (·.1) = noteAll [] (unitDefinitions naming statements) ∧
      ∀ p ∈ done, ∃ t t', LowersBody (Stage.contextOf target naming observed statements) statements
          p.1 t t' ∧ p.2 = t'.builder.func ∧
        ∀ S φ₀ c, φ₀.Begins p.2 → Arises S p.2 φ₀ c →
          (p.1.params.Nodup → UpdatesRead t'.locals c.frame.world) ∧
          ∀ x ∈ p.1.params ++ assignedAll p.1.body,
            (∀ name ∈ x :: Node.readsAll p.1.body, Dotless name) →
            (x ∉ p.1.params → readsAheadAll x p.1.body = false) →
            ∃ b q, t'.locals.lookup x = some b ∧ b.slot = .reg q .ptr ∧
              (∀ y b', t'.locals.lookup y = some b' → b'.slot = b.slot → y = x) ∧
              ReadsBack naming (Node.readsAll p.1.body) x q c.frame.world := by
  obtain ⟨s, done, -, hfunctions, hroutines, hdone⟩ := generate_done rfl hu
  have hlinear := generate_linear hu
  rw [hfunctions] at hlinear
  refine ⟨done, by rw [hfunctions]; rfl, hroutines, fun p hp => ?_⟩
  obtain ⟨t, t', hbody, hfunc, -⟩ := hdone p hp
  have hf : t'.builder.func.Linear :=
    hlinear _ (mem_cons_of_mem _ (mem_map.mpr ⟨p, hp, hfunc⟩))
  obtain ⟨A, hscope, hA, -, hfits⟩ := hbody.spec (permits_unrestricted.keepsAll _ _)
    (by simp [Rules.unrestricted])
  have hlocals : t'.own = t'.locals := by rw [State.own, ← hfits.scope, hscope]
  refine ⟨t, t', hbody, hfunc, fun S φ₀ c hbegin hc => ⟨fun hnodup => ?_, fun x hx hdotless hahead => ?_⟩⟩
  · obtain ⟨A, hscope, hA, hwithin, hfits⟩ := hbody.spec (permits_single.keepsAll _ _) fun _ => hnodup
    rw [hfunc] at hbegin hc
    exact updatesRead_of_arises hA hscope hwithin hfits rfl hf hbegin hc
  · obtain ⟨hdotless, hnames⟩ := forall_mem_cons.mp hdotless
    obtain ⟨b, q, early, late, hb, hslot, hparted⟩ := hbody.exists_parted hdotless hnames hx hahead
    refine ⟨b, q, hb, hslot, fun y b' hb' heq => ?_, ?_⟩
    · rw [← hlocals] at hb hb'
      exact (hA.apart _ _ _ _ _ (hfits.own y b' hb') (heq ▸ hfits.own x b hb)).1
    · rw [hfunc] at hbegin hc
      exact hparted.readsBack hA hf hbegin hc

/-! ## Runs -/

/-- The slot that a name has in the end in the only function of a unit. -/
def slotInFunction (ctx : Context) (statements : List Node) (name : String) : Option Value :=
  match entryFunction statements ctx (State.start ctx.target ctx.naming statements) with
  | .error _ => none
  | .ok (_, s) =>
    match s.functions with
    | [r] =>
      match functionBody r ctx s with
      | .error _ => none
      | .ok (_, s') => (s'.locals.lookup name).map (·.slot)
    | _ => none

theorem Pending.eq_or_lt {ctx : Context} {statements : List Node} {todo : List Routine}
    {s₁ s : State} (hentry : entryFunction statements ctx
      (State.start ctx.target ctx.naming statements) = .ok ((), s₁))
    (h : Pending ctx statements todo s) :
    todo = s₁.functions ∧ s = s₁ ∨ todo.length < s₁.functions.length := by
  induction h with
  | entry h =>
    obtain rfl := congrArg Prod.snd (Except.ok.inj (h.symm.trans hentry))
    exact .inl ⟨rfl, rfl⟩
  | body _ _ ih =>
    rcases ih with ⟨htodo, -⟩ | hlt
    · rw [← htodo]
      exact .inr (Nat.lt_succ_self _)
    · exact .inr (Nat.lt_of_succ_lt hlt)

theorem LowersBody.slot_eq {ctx : Context} {statements : List Node} {r : Routine} {s s' : State}
    {name : String} {b : Binding} {v : Value} (h : LowersBody ctx statements r s s')
    (hb : s'.locals.lookup name = some b) (hv : slotInFunction ctx statements name = some v) :
    b.slot = v := by
  obtain ⟨rest, hpending, hrun⟩ := h
  unfold slotInFunction at hv
  split at hv
  case h_1 => simp at hv
  case h_2 s₁ hentry =>
    split at hv
    case h_2 => simp at hv
    case h_1 r' hfunctions =>
      rcases hpending.eq_or_lt hentry with ⟨htodo, rfl⟩ | hlt
      · obtain ⟨rfl, -⟩ := List.cons.inj (htodo.trans hfunctions)
        rw [hrun] at hv
        simpa [hb] using hv
      · simp [hfunctions] at hlt

/-- A datum has just been read from a place, after something was done. -/
def justRead (a : Address) (d : Datum) (e : Event) (t : Machine.Traced Nat) : Bool :=
  match t.past with
  | .loaded _ a' d' :: earlier => a' = a && d' = d && earlier.contains e
  | _ => false

theorem exists_arises_justRead {n : Nat} {a : Address} {d : Datum} {e : Event} {φ : Frame Nat}
    {f : Func} (h : runsTo n φ (justRead a d e) f = true) :
    ∃ c dst earlier, Arises Machine.alone f (Machine.withPast φ []) c ∧
      c.frame.world = .loaded dst a d :: earlier ∧ e ∈ earlier := by
  obtain ⟨⟨label, config, past⟩, harises, ht⟩ := exists_arises h
  unfold justRead at ht
  split at ht
  case h_2 => simp at ht
  case h_1 dst a' d' earlier hpast =>
    obtain rfl : past = _ := hpast
    simp only [Bool.and_eq_true, decide_eq_true_eq, contains_iff_mem] at ht
    obtain ⟨⟨rfl, rfl⟩, he⟩ := ht
    exact ⟨_, dst, earlier, harises, rfl, he⟩

/-- A unit with a function that reads a name in a loop further up than it assigns it there. It has
assigned it before. -/
def assignedAhead : List Node :=
  [.assignment "x" (.literal (.number .one)),
    .functionDef "f" ["n"]
      [.assignment "x" (.identifier "n"),
        .loop (.binary "<" (.identifier "n") (.literal (.number ⟨2⟩)))
          [.relation (.identifier "print") (.identifier "x"),
            .assignment "x" (.literal (.number ⟨5⟩)),
            .assignment "n" (.binary "+" (.identifier "n") (.literal (.number ⟨1⟩)))]],
    .relation (.identifier "f") (.literal (.number .zero))]

/-- A unit with a function that reads a name in a loop and then assigns it there for the first
time. -/
def readAhead : List Node :=
  [.assignment "x" (.literal (.number .one)),
    .functionDef "f" ["n"]
      [.loop (.binary "<" (.identifier "n") (.literal (.number ⟨2⟩)))
        [.relation (.identifier "print") (.identifier "x"),
          .assignment "x" (.literal (.number ⟨5⟩)),
          .assignment "n" (.binary "+" (.identifier "n") (.literal (.number ⟨1⟩)))]],
    .relation (.identifier "f") (.literal (.number .zero))]

/-- What is settled for these units. -/
abbrev readContext (statements : List Node) : Context :=
  Stage.contextOf (.resolve none) { mode := .program } [] statements

/-- In the second turn the function reads what it assigned in the first one. -/
theorem readsBack_assignedAhead :
    ∃ u f c dst earlier,
      generate (.resolve none) { mode := .program } [] assignedAhead = .ok u ∧
      f ∈ u.assembly.functions.tail ∧
      (Machine.withPast (beginning [.word 0] (.number .one)) []).Begins f ∧
      Arises Machine.alone f (Machine.withPast (beginning [.word 0] (.number .one)) []) c ∧
      slotInFunction (readContext assignedAhead) assignedAhead "x" = some (.reg 3 .ptr) ∧
      c.frame.world = .loaded dst (.slot 3) (.word 5) :: earlier ∧
      .stored (.slot 3) (.word 5) ∈ earlier ∧
      ReadsBack { mode := .program } ["n", "n", "x", "n"] "x" 3 c.frame.world := by
  have hslot : slotInFunction (readContext assignedAhead) assignedAhead "x" = some (.reg 3 .ptr) := by
    decide +kernel
  obtain ⟨u, hu, hrun⟩ := exists_generate (.resolve none) { mode := .program } [] assignedAhead
    (fun u => u.assembly.functions.tail.any fun f => f.paramRegs = [0] &&
      runsTo 25 (beginning [.word 0] (.number .one))
        (justRead (.slot 3) (.word 5) (.stored (.slot 3) (.word 5))) f) (by decide +kernel)
  have htext : (noteAll [] (unitDefinitions { mode := .program } assignedAhead)).all (fun r =>
      "x" ∈ r.params ++ assignedAll r.body && Node.readsAll r.body = ["n", "n", "x", "n"] &&
        readsAheadAll "x" r.body = false) = true := by
    decide +kernel
  obtain ⟨done, hfunctions, hroutines, hdone⟩ := generate_readsBack hu
  obtain ⟨f, hf, hrun⟩ := any_eq_true.mp hrun
  simp only [Bool.and_eq_true, decide_eq_true_eq] at hrun
  obtain ⟨c, dst, earlier, hc, hpast, hstored⟩ := exists_arises_justRead hrun.2
  have hbegin : (Machine.withPast (beginning [.word 0] (.number .one)) []).Begins f :=
    begins_beginning (by simp [hrun.1]) (by simp [Datum.isForeign_word])
  refine ⟨u, f, c, dst, earlier, hu, hf, hbegin, hc, hslot, hpast, hstored, ?_⟩
  rw [hfunctions] at hf
  obtain ⟨p, hp, rfl⟩ := mem_map.mp hf
  rw [← hroutines] at htext
  have hp' := all_eq_true.mp htext p.1 (mem_map.mpr ⟨p, hp, rfl⟩)
  simp only [Bool.and_eq_true, decide_eq_true_eq] at hp'
  obtain ⟨⟨hmem, hreads⟩, hahead⟩ := hp'
  obtain ⟨t, t', hbody, -, hback⟩ := hdone p hp
  have hdotless : ∀ name ∈ "x" :: Node.readsAll p.1.body, Dotless name := by
    rw [hreads]
    unfold Dotless
    decide
  obtain ⟨b, q, hb, hq, -, hreadsBack⟩ :=
    (hback Machine.alone _ c hbegin hc).2 "x" hmem hdotless fun _ => hahead
  have heq : Value.reg q .ptr = .reg 3 .ptr := hq.symm.trans (hbody.slot_eq hb hslot)
  obtain rfl : q = 3 := by simpa [Value.reg] using heq
  exact hreads ▸ hreadsBack

/-- In the second turn the function still reads the variable at top level, though it has assigned the
name in the first one. -/
theorem readsOutside_readAhead :
    ∃ u f c dst earlier,
      generate (.resolve none) { mode := .program } [] readAhead = .ok u ∧
      f ∈ u.assembly.functions.tail ∧
      (Machine.withPast (beginning [.word 0] (.number .one)) []).Begins f ∧
      Arises Machine.alone f (Machine.withPast (beginning [.word 0] (.number .one)) []) c ∧
      slotInFunction (readContext readAhead) readAhead "x" = some (.reg 6 .ptr) ∧
      c.frame.world = .loaded dst (.global (Naming.globalSymbol { mode := .program } "x"))
        (.number .one) :: earlier ∧
      .stored (.slot 6) (.number ⟨5⟩) ∈ earlier := by
  obtain ⟨u, hu, hrun⟩ := exists_generate (.resolve none) { mode := .program } [] readAhead
    (fun u => u.assembly.functions.tail.any fun f => f.paramRegs = [0] &&
      runsTo 22 (beginning [.word 0] (.number .one)) (justRead
        (.global (Naming.globalSymbol { mode := .program } "x")) (.number .one)
        (.stored (.slot 6) (.number ⟨5⟩))) f) (by decide +kernel)
  obtain ⟨f, hf, hrun⟩ := any_eq_true.mp hrun
  simp only [Bool.and_eq_true, decide_eq_true_eq] at hrun
  obtain ⟨c, dst, earlier, hc, hpast, hstored⟩ := exists_arises_justRead hrun.2
  have hbegin : (Machine.withPast (beginning [.word 0] (.number .one)) []).Begins f :=
    begins_beginning (by simp [hrun.1]) (by simp [Datum.isForeign_word])
  exact ⟨u, f, c, dst, earlier, hu, hf, hbegin, hc, by decide +kernel, hpast, hstored⟩

end ScriptCompiler.Lowering
