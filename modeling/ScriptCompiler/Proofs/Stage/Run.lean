import ScriptCompiler.Proofs.Stage.Sound

/-!
# From runs of the lowering to steps of stages

`Leads S ctx P g m Q` says that every successful run of the lowering step `m` from a sound stage `g`
follows `S`, which is `Move` or `Step`, to a sound stage that satisfies `Q` with the result, and that
every other run follows `S` to a stage where it fails in one of a few ways (`Fails`). `Emits` says the same of a step of the builder, which cannot fail. The rules below
take a composite step apart, and give what each operation of the builder does.
-/

namespace ScriptCompiler.Lowering

open Ir

/-- How lowering can fail in the state `t`: for a mistake in the unit, or where it comes to something
that it has no code for. -/
inductive Fails (P : Lexicon) (t : State) : Error → Prop where
  | diagnosed {e : Error} (h : e.classify = .diagnostic) : Fails P t e
  /-- A function is defined inside of a function. -/
  | nested (name : String) : Fails P t (.internal (.nestedFunction name))
  /-- A statement is used as an expression. -/
  | statement (title : String) : Fails P t (.internal (.notAnExpression title))
  /-- A function reads a variable that is in the frame of the entry function. -/
  | outOfReach {name : String} {b : Binding} (inside : t.scope = .function)
      (bound : t.globals.lookup name = some b) (framed : b.isModuleLevel = false)
      (read : P.read name) : Fails P t (.internal (.notAddressable name b.slot.text))
  /-- A value is taken for one of another kind. -/
  | conversion (source : String) (kind : Kind) : Fails P t (.invalidConversion source kind.title)

section

variable {α β : Type} {ctx : Context} {m : Lower α} {f : α → Lower β} {s s' : State} {e : Error}

theorem run_bind_ok (hm : m ctx s = .ok (a, s')) : (m >>= f) ctx s = f a ctx s' := by
  show (m ctx s >>= fun p => f p.1 ctx p.2) = _
  rw [hm]
  rfl

theorem run_bind_error (h : (m >>= f) ctx s = .error e) :
    m ctx s = .error e ∨ ∃ a s', m ctx s = .ok (a, s') ∧ f a ctx s' = .error e := by
  change (m ctx s >>= fun p => f p.1 ctx p.2) = _ at h
  cases hm : m ctx s with
  | error e' =>
    rw [hm] at h
    exact .inl (congrArg Except.error (Except.error.inj h))
  | ok p =>
    rw [hm] at h
    exact .inr ⟨p.1, p.2, rfl, h⟩

end

namespace Stage

/-- Every successful run of `m` from `g` follows `S` to a stage that satisfies `Q`, and every other
run follows `S` to where it fails. -/
def Leads {α : Type} (S : Stage → Stage → Prop) (ctx : Context) (P : Lexicon) (g : Stage)
    (m : Lower α) (Q : Stage → α → Prop) : Prop :=
  g.Sound ctx P →
    (∀ ⦃a : α⦄ ⦃s : State⦄, m ctx g.state = .ok (a, s) →
      ∃ g', Relation.ReflTransGen S g g' ∧ g'.Sound ctx P ∧ g'.state = s ∧ Q g' a) ∧
    ∀ ⦃e : Error⦄, m ctx g.state = .error e →
      ∃ g', Relation.ReflTransGen S g g' ∧ Fails P g'.state e

/-- Every successful run of `m` stays in the current block. -/
abbrev Lowers {α : Type} (ctx : Context) (P : Lexicon) (g : Stage) (m : Lower α)
    (Q : Stage → α → Prop) : Prop :=
  Leads (Move ctx P) ctx P g m Q

/-- Every successful run of `m` proceeds by steps. -/
abbrev Runs {α : Type} (ctx : Context) (P : Lexicon) (g : Stage) (m : Lower α)
    (Q : Stage → α → Prop) : Prop :=
  Leads (Step ctx P) ctx P g m Q

/-- The step `e` of the builder leads from `g` by moves to a stage that satisfies `Q`. -/
def Emits {α : Type} (ctx : Context) (P : Lexicon) (g : Stage) (e : Emit α)
    (Q : Stage → α → Prop) : Prop :=
  g.Sound ctx P → ∃ g', Moves ctx P g g' ∧ g'.Sound ctx P ∧
    g'.state = { g.state with builder := (e g.state.builder).2 } ∧ Q g' (e g.state.builder).1

/-- A run of `m` leads from `g` to `g'` and stays in the current block. -/
structure Ran {α : Type} (ctx : Context) (P : Lexicon) (m : Lower α) (g : Stage) (a : α)
    (g' : Stage) : Prop where
  run : m ctx g.state = .ok (a, g'.state)
  before : g.Sound ctx P
  after : g'.Sound ctx P
  grows : Grows g g'

section

variable {α β : Type} {S : Stage → Stage → Prop} {ctx : Context} {P : Lexicon} {g : Stage}
  {Q : Stage → α → Prop} {R : Stage → β → Prop} {e : Emit α} {m : Lower α} {f : α → Lower β} {a : α}

namespace Leads

theorem sound (h : g.Sound ctx P → Leads S ctx P g m Q) : Leads S ctx P g m Q :=
  fun hg => h hg hg

theorem pure (h : Q g a) : Leads S ctx P g (pure a) Q := by
  refine fun hg => ⟨fun a' s hrun => ?_, fun e hrun => nomatch hrun⟩
  obtain ⟨rfl, rfl⟩ : a = a' ∧ g.state = s := by
    have : (Except.ok (a, g.state) : Except Error _) = .ok (a', s) := hrun
    simpa using this
  exact ⟨g, .refl, hg, rfl, h⟩

theorem bind (h : Leads S ctx P g m Q)
    (k : ∀ g' a, Relation.ReflTransGen S g g' → Q g' a → Leads S ctx P g' (f a) R) :
    Leads S ctx P g (m >>= f) R := by
  refine fun hg => ⟨fun b s hrun => ?_, fun e hrun => ?_⟩
  · obtain ⟨a, s', hm, hrest⟩ := run_bind hrun
    obtain ⟨g', hS, hg', rfl, hQ⟩ := (h hg).1 hm
    obtain ⟨g'', hS', hg'', hs'', hR⟩ := (k g' a hS hQ hg').1 hrest
    exact ⟨g'', hS.trans hS', hg'', hs'', hR⟩
  · rcases run_bind_error hrun with hm | ⟨a, s', hm, hrest⟩
    · exact (h hg).2 hm
    · obtain ⟨g', hS, hg', rfl, hQ⟩ := (h hg).1 hm
      obtain ⟨g'', hS', hfails⟩ := (k g' a hS hQ hg').2 hrest
      exact ⟨g'', hS.trans hS', hfails⟩

theorem seq {m m' : Lower Unit} {m'' : Lower β} {Q : Stage → Unit → Prop}
    (h : Leads S ctx P g (do m; m') Q)
    (k : ∀ g', Relation.ReflTransGen S g g' → Q g' () → Leads S ctx P g' m'' R) :
    Leads S ctx P g (do m; m'; m'') R := by
  have hb := h.bind (f := fun _ => m'') fun g' _ hS hQ => k g' hS hQ
  rwa [bind_assoc] at hb

theorem mono {R : Stage → α → Prop} (h : Leads S ctx P g m Q)
    (k : ∀ g' a, Relation.ReflTransGen S g g' → Q g' a → R g' a) : Leads S ctx P g m R := by
  refine fun hg => ⟨fun a s hrun => ?_, (h hg).2⟩
  obtain ⟨g', hS, hg', hs, hQ⟩ := (h hg).1 hrun
  exact ⟨g', hS, hg', hs, k g' a hS hQ⟩

theorem map {f : α → β} {Q : Stage → β → Prop} (h : Leads S ctx P g m fun g' a => Q g' (f a)) :
    Leads S ctx P g (f <$> m) Q := by
  have hb := h.bind (f := fun a => (Pure.pure (f a) : Lower β)) fun g' a _ hQ =>
    Leads.pure (Q := Q) hQ
  rwa [bind_pure_comp] at hb

theorem bind_of_run (hm : m ctx g.state = .ok (a, g.state)) (h : Leads S ctx P g (f a) R) :
    Leads S ctx P g (m >>= f) R := by
  have hrun : (m >>= f) ctx g.state = f a ctx g.state := run_bind_ok hm
  exact fun hg => ⟨fun b s hs => (h hg).1 (hrun ▸ hs), fun e he => (h hg).2 (hrun ▸ he)⟩

theorem get_bind {f : State → Lower β} (h : Leads S ctx P g (f g.state) R) :
    Leads S ctx P g (get >>= f) R :=
  bind_of_run rfl h

theorem read_bind {f : Context → Lower β} (h : Leads S ctx P g (f ctx) R) :
    Leads S ctx P g (read >>= f) R :=
  bind_of_run rfl h

theorem fail {e : Error} (hm : m ctx g.state = .error e)
    (h : Fails P g.state e) : Leads S ctx P g m Q := by
  refine fun _ => ⟨fun a s hrun => (nomatch hm.symm.trans hrun), fun e' hrun => ?_⟩
  obtain rfl : e = e' := Except.error.inj (hm.symm.trans hrun)
  exact ⟨g, .refl, h⟩

theorem throw {e : Error} (h : e.classify = .diagnostic) :
    Leads S ctx P g (MonadExcept.throw e) Q :=
  fail (e := e) rfl (.diagnosed h)

theorem refuse {operator hint : String} : Leads S ctx P g (refuse operator hint) Q :=
  throw rfl

theorem lift {x : Except Error α} (h : ∀ a, x = .ok a → Q g a)
    (he : ∀ e, x = .error e → e.classify = .diagnostic) : Leads S ctx P g (liftM x) Q := by
  cases x with
  | error e => exact throw (he e rfl)
  | ok a => exact pure (h a rfl)

theorem lift_bind {x : Except Error α} (h : ∀ a, x = .ok a → Leads S ctx P g (f a) R)
    (he : ∀ e, x = .error e → e.classify = .diagnostic) : Leads S ctx P g (liftM x >>= f) R := by
  cases x with
  | error e => exact fail (e := e) rfl (.diagnosed (he e rfl))
  | ok a => exact bind_of_run rfl (h a rfl)

theorem run {m : Lower α} {a : α} {g' : Stage} {Q : Stage → α → Prop}
    (hS : Relation.ReflTransGen S g g') (hsound : g.Sound ctx P → g'.Sound ctx P)
    (hrun : m ctx g.state = .ok (a, g'.state)) (h : Q g' a) : Leads S ctx P g m Q := by
  refine fun hg => ⟨fun a' s hrun' => ?_, fun e hrun' => nomatch hrun.symm.trans hrun'⟩
  obtain ⟨rfl, rfl⟩ := Prod.mk.inj (Except.ok.inj (hrun.symm.trans hrun'))
  exact ⟨g', hS, hsound hg, rfl, h⟩

theorem ran (h : Leads S ctx P g m Q) :
    Leads S ctx P g m fun g' a =>
      m ctx g.state = .ok (a, g'.state) ∧ g.Sound ctx P ∧ g'.Sound ctx P ∧ Q g' a := by
  refine fun hg => ⟨fun a s hrun => ?_, (h hg).2⟩
  obtain ⟨g', hS, hg', rfl, hQ⟩ := (h hg).1 hrun
  exact ⟨g', hS, hg', rfl, hrun, hg, hg', hQ⟩

theorem steps (h : Lowers ctx P g m Q) : Runs ctx P g m Q := by
  refine fun hg => ⟨fun a s hrun => ?_, fun e hrun => ?_⟩
  · obtain ⟨g', hS, hg', hs, hQ⟩ := (h hg).1 hrun
    exact ⟨g', Moves.steps hS, hg', hs, hQ⟩
  · obtain ⟨g', hS, hfails⟩ := (h hg).2 hrun
    exact ⟨g', Moves.steps hS, hfails⟩

end Leads

namespace Lowers

theorem bind (h : Lowers ctx P g m Q) (k : ∀ g' a, Grows g g' → Q g' a → Lowers ctx P g' (f a) R) :
    Lowers ctx P g (m >>= f) R :=
  Leads.bind h fun g' a hm => k g' a (Moves.grows hm)

theorem mono {R : Stage → α → Prop} (h : Lowers ctx P g m Q)
    (k : ∀ g' a, Grows g g' → Q g' a → R g' a) : Lowers ctx P g m R :=
  Leads.mono h fun g' a hm => k g' a (Moves.grows hm)

theorem stays {m : Lower α} {Q : Stage → α → Prop} (h : Lowers ctx P g m Q) :
    Lowers ctx P g m fun g' a => Ran ctx P m g a g' ∧ Q g' a :=
  mono (Leads.ran h) fun _ _ hm hr => ⟨⟨hr.1, hr.2.1, hr.2.2.1, hm⟩, hr.2.2.2⟩

theorem runs_bind (h : Lowers ctx P g m Q) (k : ∀ g' a, Grows g g' → Q g' a → Runs ctx P g' (f a) R) :
    Runs ctx P g (m >>= f) R := by
  have hm := (h.mono fun _ _ hg hQ => And.intro hg hQ).steps
  exact Leads.bind hm fun g' a _ hQ => k g' a hQ.1 hQ.2

end Lowers

namespace Emits

theorem sound (h : g.Sound ctx P → Emits ctx P g e Q) : Emits ctx P g e Q :=
  fun hg => h hg hg

theorem pure (h : Q g a) : Emits ctx P g (pure a) Q :=
  fun hg => ⟨g, .refl, hg, rfl, h⟩

theorem bind {f : α → Emit β} (h : Emits ctx P g e Q)
    (k : ∀ g' a, Grows g g' → Q g' a → Emits ctx P g' (f a) R) : Emits ctx P g (e >>= f) R := by
  intro hg
  obtain ⟨g', hS, hg', hs, hQ⟩ := h hg
  obtain ⟨g'', hS', hg'', hs', hR⟩ := k g' _ (Moves.grows hS) hQ hg'
  have hb : g'.state.builder = (e g.state.builder).2 := by rw [hs]
  refine ⟨g'', hS.trans hS', hg'', ?_, ?_⟩
  · rw [hs', hb, hs]
    rfl
  · rw [hb] at hR
    exact hR

theorem mono {R : Stage → α → Prop} (h : Emits ctx P g e Q)
    (k : ∀ g' a, Grows g g' → Q g' a → R g' a) : Emits ctx P g e R := by
  intro hg
  obtain ⟨g', hS, hg', hs, hQ⟩ := h hg
  exact ⟨g', hS, hg', hs, k g' _ (Moves.grows hS) hQ⟩

theorem get_bind {f : Builder → Emit β} (h : Emits ctx P g (f g.state.builder) R) :
    Emits ctx P g (get >>= f) R :=
  h

theorem move {g' : Stage} (hm : Move ctx P g g')
    (hs : g'.state = { g.state with builder := (e g.state.builder).2 })
    (h : Q g' (e g.state.builder).1) : Emits ctx P g e Q :=
  fun hg => ⟨g', .single hm, hm.sound hg, hs, h⟩

theorem lowers (h : Emits ctx P g e Q) : Lowers ctx P g (emit e) Q := by
  refine fun hg => ⟨fun a s hrun => ?_, fun e hrun => nomatch hrun⟩
  obtain ⟨g', hS, hg', hs, hQ⟩ := h hg
  have : (Except.ok ((e g.state.builder).1,
      { g.state with builder := (e g.state.builder).2 }) : Except Error (α × State)) =
      .ok (a, s) := hrun
  obtain ⟨rfl, rfl⟩ := Prod.mk.inj (Except.ok.inj this)
  exact ⟨g', hS, hg', hs, hQ⟩

theorem lifted (h : Emits ctx P g e Q) : Lowers ctx P g (liftM e) Q :=
  h.lowers

/-- A step of the builder for each element of a list, whose results satisfy `R` for good. -/
theorem mapM {f : α → Emit β} (hR : ∀ g g' b, Grows g g' → R g b → R g' b) {xs : List α} :
    ∀ {g : Stage}, (∀ x ∈ xs, ∀ g', Grows g g' → Emits ctx P g' (f x) R) →
      Emits ctx P g (xs.mapM f) fun g' ys => ys.length = xs.length ∧ ∀ y ∈ ys, R g' y := by
  induction xs with
  | nil =>
    intro g _
    rw [List.mapM_nil]
    exact Emits.pure ⟨rfl, by simp⟩
  | cons x xs ih =>
    intro g h
    rw [List.mapM_cons]
    refine (h x (by simp) g (Grows.refl g)).bind fun g1 y hm hy => ?_
    refine (ih fun x' hx' g2 hg2 => h x' (by simp [hx']) g2 (hm.trans hg2)).bind
      fun g2 ys hm2 hys => Emits.pure ⟨by simp [hys.1], ?_⟩
    intro z hz
    rcases List.mem_cons.mp hz with rfl | hz
    · exact hR _ _ _ hm2 hy
    · exact hys.2 z hz

end Emits

theorem Leads.perform {x : Except Error (Emit α)} (hx : x = .ok e) (h : Emits ctx P g e Q) :
    Lowers ctx P g (perform x) Q :=
  hx ▸ bind_of_run rfl h.lowers

theorem Move.lowers {g' : Stage} (hm : Move ctx P g g') (hrun : m ctx g.state = .ok (a, g'.state))
    (h : Q g' a) : Lowers ctx P g m Q :=
  Leads.run (.single hm) hm.sound hrun h

theorem Step.runs {g' : Stage} (hm : Step ctx P g g') (hrun : m ctx g.state = .ok (a, g'.state))
    (h : Q g' a) : Runs ctx P g m Q :=
  Leads.run (.single hm) hm.sound hrun h

end

end Stage

end ScriptCompiler.Lowering
