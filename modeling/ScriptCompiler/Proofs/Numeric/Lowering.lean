import ScriptCompiler.Proofs.Numeric.Assign
import ScriptCompiler.Proofs.Stage.Stmt

/-!
# Lowering lays out code that carries out statements

The lowering of a statement leads from one stage to another, and the code between them does what the
evaluation of the statement does. Since blocks are only added at the end, the point that a stage has
reached is a point of the finished function: `Within body g q` says that in the blocks `body` the code
of `g` goes on with `q`. The argument runs backwards. If the stage after a statement goes on with `q`,
the stage before it goes on with some `p`, and the code of the statement lies between `p` and `q`
(`Compiled`). For branches and loops this is so whatever is said about the code (`Compiles.conditional`,
`Compiles.loop`).

What is needed on the way is that every variable has a place of its own (`Kept`), and that the place
that a variable has it keeps (`Covers`).
-/

namespace ScriptCompiler.Numeric

open Ir Lowering Lowering.Stage

/-- In the blocks `body` the code of the stage goes on with `code`. -/
def Within (body : List Block) (g : Stage) (code : List Instr) : Prop :=
  ∃ after, body = g.done ++ ⟨g.label, g.instrs ++ code⟩ :: after

/-- The blocks `body` are those of the function, except for the head of the first one, and define no
register of a slot. -/
structure Linked (f : Func) (T : Table Binding) (body : List Block) : Prop where
  separate : Separate T
  block : ∀ before label code after, body = before ++ ⟨label, code⟩ :: after → before ≠ [] →
    HasBlock f label code
  avoids : ∀ b ∈ body, Avoids T b.instrs

/-- How code lies between two points of a function, in a loop that ends at some label. -/
abbrev Layout := Func → Table Binding → Option String → List Instr → List Instr → Prop

/-- Between two stages lies code as `I` says, and the second one is as `K` says. -/
structure Compiled (K : Stage → Prop) (I : Layout) (g g' : Stage) : Prop where
  after : K g'
  covers : Covers g'.state.globals g.state.globals
  loopEnds : g'.state.loopEnds = g.state.loopEnds
  code : ∀ f T body q, Linked f T body → Covers T g'.state.globals → Within body g' q →
    ∃ p, Within body g p ∧ I f T g.state.loopEnds.head? p q

/-- From a stage as `K` says, code is laid out as `I` says, and the next stage is as `K'` says. -/
def Compiles (K K' : Stage → Prop) (I : Layout) (g g' : Stage) : Prop := K g → Compiled K' I g g'

/-- The instructions `code` are added at the end of the current block, and no variable is made. -/
structure Appends (code : List Instr) (g g' : Stage) : Prop where
  state : ∃ last, g'.state = { g.state with builder := g'.state.builder, lastBound := last }
  next : g.state.builder.nextReg ≤ g'.state.builder.nextReg
  head : g'.head = g.head
  done : g'.done = g.done
  label : g'.label = g.label
  instrs : g'.instrs = g.instrs ++ code

/-- What is said about stages holds on, whatever code is added and whatever blocks and loops are
begun. -/
structure Lasting (K : Stage → Prop) : Prop where
  appends : ∀ {g g' code}, K g → Appends code g g' → K g'
  label : ∀ {g stem}, K g → K (g.withLabel stem)
  jump : ∀ {g t label live reserved}, K g → K (g.jump t label live reserved)
  enter : ∀ {g label}, K g → K (g.withLoop label)
  leave : ∀ {g}, K g → K g.withoutLoop

/-- The code of a test is as `D` says of the code and of its result. -/
def Decides (ctx : Context) (P : Lexicon) (K : Stage → Prop) (m : Lower Typed)
    (D : Table Binding → List Instr → Value → Prop) : Prop :=
  ∀ {g g' : Stage} {flag}, K g → Tests ctx P m flag g g' → ∃ code, Appends code g g' ∧
    ∀ T, Fits T g.state.globals code → D T code flag

section

variable {ctx : Context} {P : Lexicon} {f : Func} {T : Table Binding} {body : List Block}
  {g g' g₁ : Stage} {code q : List Instr} {K K' K'' : Stage → Prop} {I J L : Layout}

/-! ## Points of a function -/

theorem within_jump {t : Instr} {label : String} {live : String → Typing}
    {reserved : List String} (hlinked : Linked f T body)
    (h : Within body (g.jump t label live reserved) q) :
    Within body g [t] ∧ HasBlock f label q := by
  obtain ⟨after, hbody⟩ := h
  have hbody : body = g.done ++ [⟨g.label, g.instrs ++ [t]⟩] ++ ⟨label, q⟩ :: after := hbody
  refine ⟨⟨⟨label, q⟩ :: after, ?_⟩, hlinked.block _ label q after hbody (by simp)⟩
  rw [hbody, List.append_assoc]
  rfl

theorem Within.appends (h : Within body g' q) (hcode : Appends code g g') :
    Within body g (code ++ q) := by
  obtain ⟨after, hbody⟩ := h
  refine ⟨after, ?_⟩
  rw [hbody, hcode.done, hcode.label, hcode.instrs, List.append_assoc]

theorem Within.fits (h : Within body g (code ++ q)) (hlinked : Linked f T body)
    (hT : Covers T g.state.globals) : Fits T g.state.globals code := by
  obtain ⟨after, rfl⟩ := h
  refine ⟨hlinked.separate, hT, fun i hi => ?_⟩
  exact hlinked.avoids ⟨g.label, g.instrs ++ (code ++ q)⟩ (by simp) i (by simp [hi])

theorem appends_of_straight {α : Type} {m : Lower α} {a : α} {Q : List Instr → Builder → α → Prop}
    (h : Straight ctx g.state m Q) (hrun : m ctx g.state = .ok (a, g'.state))
    (hg : g.Sound ctx P) (hg' : g'.Sound ctx P) :
    ∃ code, Appends code g g' ∧ Q code g'.state.builder a := by
  obtain ⟨code, b, hstate, hcode, hQ⟩ := h hrun
  obtain rfl : g'.state.builder = b := congrArg State.builder hstate
  obtain ⟨hhead, hdone, hlabel, hinstrs⟩ := hg.emitted hg' hcode
  exact ⟨code, ⟨⟨_, hstate⟩, hcode.next, by simpa using hhead, hdone, hlabel, hinstrs⟩, hQ⟩

theorem Appends.refl (g : Stage) : Appends [] g g :=
  ⟨⟨_, rfl⟩, Nat.le_refl _, rfl, rfl, rfl, (List.append_nil _).symm⟩

theorem Appends.globals (h : Appends code g g') : g'.state.globals = g.state.globals := by
  obtain ⟨last, hstate⟩ := h.state
  rw [hstate]

theorem Appends.loopEnds (h : Appends code g g') : g'.state.loopEnds = g.state.loopEnds := by
  obtain ⟨last, hstate⟩ := h.state
  rw [hstate]

/-! ## Forms of statements -/

theorem Lasting.compiled (hK : Lasting K) (hs : K g) (hcode : Appends code g g')
    (hI : ∀ f T loopEnd q, Fits T g.state.globals code → I f T loopEnd (code ++ q) q) :
    Compiled K I g g' where
  after := hK.appends hs hcode
  covers := hcode.globals ▸ .refl _
  loopEnds := hcode.loopEnds
  code := fun f T _ q hlinked hT hq =>
    have hwithin := hq.appends hcode
    ⟨code ++ q, hwithin, hI f T _ q (hwithin.fits hlinked (hcode.globals ▸ hT))⟩

/-- Straight-line code, behind which control goes elsewhere. -/
theorem Lasting.compiled_dead {t : Instr} (hK : Lasting K) (hs : K g) (hcode : Appends code g g₁)
    (hI : ∀ f T q, Fits T g.state.globals code →
      I f T g.state.loopEnds.head? (code ++ [t]) q) : Compiled K I g (g₁.dead t) where
  after := hK.jump (hK.label (hK.appends hs hcode))
  covers := hcode.globals ▸ .refl g₁.state.globals
  loopEnds := hcode.loopEnds
  code := fun f T body q hlinked hT hq => by
    have hend : Within body g₁ [t] := (within_jump hlinked hq).1
    have hwithin := hend.appends hcode
    have hT : Covers T g₁.state.globals := hT
    exact ⟨code ++ [t], hwithin, hI f T q (hwithin.fits hlinked (hcode.globals ▸ hT))⟩

theorem Compiled.mono (h : Compiled K I g g')
    (k : ∀ f T loopEnd p q, I f T loopEnd p q → J f T loopEnd p q) : Compiled K J g g' where
  after := h.after
  covers := h.covers
  loopEnds := h.loopEnds
  code := fun f T body q hlinked hT hq => by
    obtain ⟨p, hp, hI⟩ := h.code f T body q hlinked hT hq
    exact ⟨p, hp, k f T _ p q hI⟩

/-- One statement after another. -/
theorem Compiles.seq (h : Compiles K K' I g g₁) (h' : Compiles K' K'' J g₁ g')
    (hL : ∀ f T loopEnd p m q, I f T loopEnd p m → J f T loopEnd m q → L f T loopEnd p q) :
    Compiles K K'' L g g' := by
  intro hs
  have hfirst := h hs
  have hsecond := h' hfirst.after
  refine ⟨hsecond.after, hsecond.covers.trans hfirst.covers,
    hsecond.loopEnds.trans hfirst.loopEnds, fun f T body q hlinked hT hq => ?_⟩
  obtain ⟨m, hm, hJ⟩ := hsecond.code f T body q hlinked hT hq
  obtain ⟨p, hp, hI⟩ := hfirst.code f T body m hlinked (hT.trans hsecond.covers) hm
  exact ⟨p, hp, hL _ _ _ _ _ _ hI (hfirst.loopEnds ▸ hJ)⟩

theorem Compiles.conditional {m : Lower Typed} {D : Table Binding → List Instr → Value → Prop}
    (hK : Lasting K) (hK' : Lasting K') (hK'' : Lasting K'') (htest : Decides ctx P K m D)
    (hL : ∀ f T loopEnd code flag yes no join pYes pNo q, D T code flag → HasBlock f yes pYes →
      HasBlock f no pNo → HasBlock f join q → I f T loopEnd pYes [.br join] →
      J f T loopEnd pNo [.br join] → L f T loopEnd (code ++ [.condBr flag yes no]) q)
    (h : Chooses ctx P m (Compiles K K' I) (Compiles K' K'' J) g g') : Compiles K K'' L g g' := by
  intro hs
  obtain ⟨yes, no, join, flag, g₁, htests, -, -, -, live, reserved, g₂, g₃, -, hthen, helse, rfl⟩ := h
  obtain ⟨code, hcode, hdecides⟩ := htest hs htests
  have hfirst := hthen (hK.jump (hK.label (hK.label (hK.label (hK.appends hs hcode)))))
  have hsecond := helse (hK'.jump hfirst.after)
  have hcovers₂ : Covers g₂.state.globals g.state.globals := hcode.globals ▸ hfirst.covers
  have hcovers₃ : Covers g₃.state.globals g₂.state.globals := hsecond.covers
  have hends₂ : g₂.state.loopEnds = g.state.loopEnds := hfirst.loopEnds.trans hcode.loopEnds
  have hends₃ : g₃.state.loopEnds = g.state.loopEnds := hsecond.loopEnds.trans hends₂
  refine ⟨hK''.jump hsecond.after, hcovers₃.trans hcovers₂, hends₃,
    fun f T body q hlinked hT hq => ?_⟩
  have hT₃ : Covers T g₃.state.globals := hT
  have hT₂ := hT₃.trans hcovers₃
  -- The join, the two branches and the test, from the last block to the first.
  obtain ⟨hq₃, hjoin⟩ := within_jump hlinked hq
  obtain ⟨pNo, hpNo, hno⟩ := hsecond.code f T body _ hlinked hT₃ hq₃
  obtain ⟨hq₂, hnoBlock⟩ := within_jump hlinked hpNo
  obtain ⟨pYes, hpYes, hyes⟩ := hfirst.code f T body _ hlinked hT₂ hq₂
  obtain ⟨hq₁, hyesBlock⟩ := within_jump hlinked hpYes
  have hq₁ : Within body g₁ [.condBr flag yes no] := hq₁
  have hwithin := hq₁.appends hcode
  exact ⟨_, hwithin, hL f T _ code flag yes no join pYes pNo q
    (hdecides T (hwithin.fits hlinked (hT₂.trans hcovers₂))) hyesBlock hnoBlock hjoin
    (hcode.loopEnds ▸ hyes) (hends₂ ▸ hno)⟩

theorem Compiles.loop {m : Lower Typed} {D : Table Binding → List Instr → Value → Prop} (hK : Lasting K)
    (hK' : Lasting K') (htest : Decides ctx P K m D)
    (hL : ∀ f T loopEnd code flag test again done pBody q, D T code flag →
      HasBlock f test (code ++ [.condBr flag again done]) → HasBlock f again pBody →
      HasBlock f done q → I f T (some done) pBody [.br test] → L f T loopEnd [.br test] q)
    (h : Loops ctx P m (Compiles K K' I) g g') : Compiles K K' L g g' := by
  intro hs
  obtain ⟨test, again, done, flag, g₁, g₂, -, -, -, htests, hbody, rfl⟩ := h
  have hs₀ : K ((g.withLabels "loop_cond" "loop_body" "loop_end").goto (.br test) test) :=
    hK.jump (hK.label (hK.label (hK.label hs)))
  obtain ⟨code, hcode, hdecides⟩ := htest hs₀ htests
  have hpass := hbody (hK.enter (hK.jump (hK.appends hs₀ hcode)))
  have hcovers₂ : Covers g₂.state.globals g.state.globals := hcode.globals ▸ hpass.covers
  have hends₂ : g₂.state.loopEnds.tail = g.state.loopEnds := by
    rw [hpass.loopEnds]
    exact hcode.loopEnds
  refine ⟨hK'.jump (hK'.leave hpass.after), hcovers₂, hends₂, fun f T body q hlinked hT hq => ?_⟩
  have hT₂ : Covers T g₂.state.globals := hT
  -- The end, the body, the test and the way to it, from the last block to the first.
  obtain ⟨hq₂, hdone⟩ := within_jump hlinked hq
  obtain ⟨pBody, hpBody, hpassed⟩ := hpass.code f T body _ hlinked hT₂ hq₂
  have hpBody : Within body (g₁.goto (.condBr flag again done) again) pBody := hpBody
  obtain ⟨hq₁, hagain⟩ := within_jump hlinked hpBody
  have hwithin := hq₁.appends hcode
  obtain ⟨hq₀, htest⟩ := within_jump hlinked hwithin
  exact ⟨[.br test], hq₀, hL f T _ code flag test again done pBody q
    (hdecides T (hwithin.fits hlinked (hT₂.trans hcovers₂))) htest hagain hdone hpassed⟩

end

/-! ## Programs -/

/-- A stage of a program: the head of the function has stack slots for numbers and nothing else, and
what the end of the program frees are records. -/
structure Kept (whole : Prop) (bound : List String) (g : Stage) : Prop
    extends Plain whole bound g.state where
  head : ∀ i ∈ g.head, ∃ r, i = .alloca r .double
  cleanup : ∀ c ∈ g.state.cleanup, c.destroy = Catalog.boxDestroy ∧ whole

/-- Code follows an evaluation of statements. Before and after them the variables `certain` and
`certain'` have values, and `later` and `later'` may be assigned. -/
def Carries {ω : Type} {N : Numbers} {M : Machine ω} (R : Library N M) (whole : Prop)
    (certain later certain' later' : List String) (E : Nat → Eval (Option Outcome)) : Layout :=
  fun f T loopEnd p q => ∀ first, Follows R f first loopEnd whole (Holds R T first certain later)
    (Holds R T first certain' later') E p q

/-- A stage of a program outside of loops. -/
def KeptOutside (whole : Prop) (bound : List String) (g : Stage) : Prop :=
  Kept whole bound g ∧ g.state.loopEnds = []

/-- Code outside of loops follows an evaluation of statements. -/
def CarriesOutside {ω : Type} {N : Numbers} {M : Machine ω} (R : Library N M) (whole : Prop)
    (certain later certain' later' : List String) (E : Nat → Eval (Option Outcome)) : Layout :=
  fun f T loopEnd p q => loopEnd = none → Carries R whole certain later certain' later' E f T none p q

section

variable {ω : Type} {N : Numbers} {M : Machine ω} {R : Library N M} {ctx : Context} {P : Lexicon}
  {whole : Prop} {bound certain later later' : List String} {g g' : Stage} {code : List Instr}
  {node : Node} {name : String}

theorem lasting_kept (whole : Prop) (bound : List String) : Lasting (Kept whole bound) where
  appends := fun h hcode => by
    obtain ⟨last, hstate⟩ := hcode.state
    have hplain := h.toPlain.build hcode.next
    refine ⟨?_, hcode.head ▸ h.head, ?_⟩ <;> rw [hstate]
    · exact { hplain with }
    · exact h.cleanup
  label := fun h => { h with }
  jump := fun h => { h with }
  enter := fun h => { h with }
  leave := fun h => { h with }

theorem Carries.mono {certain' certain₁ later₁ : List String} {E : Nat → Eval (Option Outcome)}
    {f : Func} {T : Table Binding} {loopEnd : Option String} {p q : List Instr}
    (h : Carries R whole certain later certain₁ later₁ E f T loopEnd p q)
    (hcertain : certain' ⊆ certain₁) (hlater : later' ⊆ later₁) :
    Carries R whole certain later certain' later' E f T loopEnd p q :=
  fun first passes φ ρ hholds => (h first passes φ ρ hholds).mono id fun _ _ harrives =>
    harrives.mono fun _ _ h => h.mono hcertain hlater

theorem Compiles.outside {bound' certain' certain₁ later₁ : List String}
    {E : Nat → Eval (Option Outcome)}
    (h : Compiles (Kept whole bound) (Kept whole bound')
      (Carries R whole certain later certain₁ later₁ E) g g')
    (hcertain : certain' ⊆ certain₁) (hlater : later' ⊆ later₁) :
    Compiles (KeptOutside whole bound) (KeptOutside whole bound')
      (CarriesOutside R whole certain later certain' later' E) g g' := by
  rintro ⟨hs, hends⟩
  have hcompiled := h hs
  exact ⟨⟨hcompiled.after, hcompiled.loopEnds.trans hends⟩, hcompiled.covers, hcompiled.loopEnds,
    (hcompiled.mono fun f T loopEnd p q hcarries (hnone : loopEnd = none) =>
      hnone ▸ hcarries.mono hcertain hlater).code⟩

theorem Kept.known (h : Kept whole bound g) (hwhole : whole → bound ⊆ certain) {T : Table Binding}
    {first : List Double} {φ : Frame ω} {ρ : Store} (hholds : Holds R T first certain later φ ρ) :
    whole → Known g.state.globals ρ.vars :=
  fun hw name hname => hholds.known name (hwhole hw ((h.bound name).mpr hname))

/-- The code of an expression, run between two statements. -/
theorem ends_of_means {v : Typed} {T : Table Binding} {first : List Double} {φ : Frame ω}
    {ρ : Store} {n : Reg} (hs : Kept whole bound g) (hwhole : whole → bound ⊆ certain)
    (hmeans : Means R g.state.globals n node code v) (hfits : Fits T g.state.globals code)
    (hholds : Holds R T first certain later φ ρ) :
    Ends whole (eval N node ρ) fun x ρ' => ∃ out φ', ρ' = { ρ with output := ρ.output ++ out } ∧
      Keeps R n φ code out φ' ∧ Holds R T first certain later φ' ρ' ∧ Denotes R φ' v x := by
  refine (hmeans φ ρ (hholds.agrees hfits.covers)).mono (hs.known hwhole hholds) ?_
  rintro x _ ⟨out, φ', rfl, hkeeps, hv⟩
  exact ⟨out, φ', rfl, hkeeps, hholds.keeps hfits.avoids hkeeps, hv⟩

/-- The code of a test computes whether its condition holds. -/
theorem decides_isTrue (hctx : PlainContext ctx) (h : isExpr bound node)
    (hm : R.maths ∨ Observed.isExpr bound node) (hwhole : whole → bound ⊆ certain) :
    Decides ctx P (Kept whole bound) (expr node) fun T code flag => ∀ first,
      Gives N M whole (Holds R T first certain later) node (fun x => .truth (isTrue x)) code flag := by
  intro g g' flag hs htests
  have hstraight : Straight ctx g.state (do perform (toBoolean (← expr node))) fun code _ w =>
      ∀ T, Fits T g.state.globals code → ∀ first, Gives N M whole (Holds R T first certain later)
        node (fun x => .truth (isTrue x)) code w := by
    refine (straight_expr R hctx node h hm g.state hs.toPlain).bind ?_
    rintro code b v hcode ⟨hv, -, hmeans⟩
    refine (converts_toBoolean R { g.state with builder := b } v hv).mono ?_
    rintro code' b' w hcode' ⟨-, -, hconv⟩ T hfits first φ ρ hholds
    obtain ⟨hfits, hfits'⟩ := fits_append.mp hfits
    refine (ends_of_means hs hwhole hmeans hfits hholds).mono id ?_
    rintro x _ ⟨out, φ₁, rfl, hkeeps₁, hholds₁, hv₁⟩
    obtain ⟨φ₂, hkeeps₂, hw⟩ := hconv φ₁ x hv₁
    have hholds₂ := hholds₁.keeps hfits'.avoids hkeeps₂
    rw [List.append_nil] at hholds₂
    refine ⟨φ₂, ?_, hholds₂, hw⟩
    rw [Machine.execAll_append, hkeeps₁.run]
    exact hkeeps₂.run
  exact appends_of_straight hstraight htests.run htests.before htests.after

/-- An expression that is evaluated for what it prints, behind which control goes on with `p`. -/
theorem carries_value {v : Typed} {outcome : Outcome} {f : Func} {T : Table Binding} {n : Reg}
    {loopEnd : Option String} {p q : List Instr} (hs : Kept whole bound g)
    (hwhole : whole → bound ⊆ certain) (hmeans : Means R g.state.globals n node code v)
    (hfits : Fits T g.state.globals code)
    (hout : (outcome = .normal ∧ p = q) ∨ (outcome = .returned ∧ p = [.br exitLabel])) :
    Carries R whole certain later certain later (fun _ => do
      discard (eval N node)
      return some outcome) f T loopEnd (code ++ p) q := by
  intro first passes φ ρ hholds
  refine (ends_of_means hs hwhole hmeans hfits hholds).discard.bind ?_
  rintro _ ρ' ⟨x, out, φ', -, hkeeps, hholds', -⟩
  have hreach : Machine.Reaches _ f ⟨code ++ p, φ⟩ ⟨p, φ'⟩ := Machine.reaches_execAll hkeeps.run
  rcases hout with ⟨rfl, rfl⟩ | ⟨rfl, rfl⟩
  · exact ⟨φ', hreach, hholds'⟩
  · exact ⟨φ', hreach, hholds'.output⟩

theorem compiles_expr (hctx : PlainContext ctx) (h : isExpr bound node)
    (hm : R.maths ∨ Observed.isExpr bound node) (hwhole : whole → bound ⊆ certain)
    (hrun : discard (expr node) ctx g.state = .ok ((), g'.state)) (hg : g.Sound ctx P)
    (hg' : g'.Sound ctx P) :
    Compiles (Kept whole bound) (Kept whole bound) (Carries R whole certain later certain later
      fun _ => do discard (eval N node); return some .normal) g g' := by
  intro hs
  obtain ⟨v, s₁, hvalue, hend⟩ := run_bind (f := fun _ => pure ()) hrun
  obtain rfl : s₁ = g'.state := congrArg Prod.snd (Except.ok.inj hend)
  obtain ⟨code, hcode, -, -, hmeans⟩ := appends_of_straight
    (straight_expr R hctx node h hm g.state hs.toPlain) hvalue hg hg'
  exact (lasting_kept whole bound).compiled hs hcode fun f T loopEnd q hfits =>
    carries_value hs hwhole hmeans hfits (.inl ⟨rfl, rfl⟩)

theorem compiles_return {value : Option Node} (hctx : PlainContext ctx)
    (h : value.all (isExpr bound)) (hm : R.maths) (hwhole : whole → bound ⊆ certain)
    (hreturns : Returns ctx P (value.map expr) g g') :
    Compiles (Kept whole bound) (Kept whole bound) (Carries R whole certain later certain later
      fun passes => pursue N passes (.ret value)) g g' := by
  intro hs
  obtain ⟨v, g₁, hran, hleaves⟩ := hreturns
  have hdead : g₁.state.scope = .topLevel → g' = g₁.dead (.br exitLabel) := fun htop => by
    simpa [LeavesWith, htop, Naming.isLibrary, hctx.program] using hleaves
  cases value with
  | none =>
    obtain ⟨-, rfl⟩ := hran
    simp only [hdead hs.top, pursue]
    exact (lasting_kept whole bound).compiled_dead hs (Appends.refl _)
      fun f T q _ first passes φ ρ hholds => ⟨φ, .refl, hholds.output⟩
  | some node =>
    obtain ⟨v, -, hran⟩ := hran
    obtain ⟨code, hcode, -, -, hmeans⟩ := appends_of_straight
      (straight_expr R hctx node h (.inl hm) g.state hs.toPlain) hran.run hran.before hran.after
    simp only [hdead (hran.grows.mode.trans hs.top), pursue]
    exact (lasting_kept whole bound).compiled_dead hs hcode fun f T q hfits =>
      carries_value hs hwhole hmeans hfits (.inr ⟨rfl, rfl⟩)

theorem compiles_break (h : Breaks g g') :
    Compiles (Kept whole bound) (Kept whole bound)
      (Carries R whole certain later certain later fun _ => return some .broke) g g' := by
  intro hs
  obtain ⟨label, hlabel, rfl⟩ := h
  exact (lasting_kept whole bound).compiled_dead hs (Appends.refl g)
    fun f T q _ first passes φ ρ hholds => ⟨label, φ, hlabel, .refl, hholds⟩

theorem carries_loop {f : Func} {T : Table Binding} {loopEnd : Option String} {pBody q : List Instr}
    {flag : Value} {test again done : String} {E : Nat → Eval (Option Outcome)}
    (hgives : ∀ first, Gives N M whole (Holds R T first certain later) node
      (fun x => .truth (isTrue x)) code flag)
    (htest : HasBlock f test (code ++ [.condBr flag again done])) (hagain : HasBlock f again pBody)
    (hdone : HasBlock f done q)
    (hbody : Carries R whole certain later certain later E f T (some done) pBody [.br test]) :
    Carries R whole certain later certain later (fun passes =>
      repeating (isTrue <$> eval N node) (E passes) passes) f T loopEnd [.br test] q := by
  intro first passes φ ρ hholds
  refine (ends_repeating loopEnd (hgives first) htest hagain hdone (fun _ _ hP => hP.output)
    (hbody first passes) passes (Nat.le_refl _) φ ρ hholds).mono id fun way ρ' harrives => ?_
  exact harrives.afterReaches (Machine.reaches_br htest)

/-! ## Assignments -/

/-- After an assignment its variable is there. -/
theorem Kept.assigned {v : Typed} {binding : Binding} {slots : List Instr} {b : Builder}
    (hs : Kept whole bound g) (hle : g.state.builder.nextReg ≤ b.nextReg)
    (h : Assigned R whole { g.state with builder := b } g'.state name v binding slots code)
    (hhead : g'.head = g.head ++ slots) : Kept whole (bound ++ [name]) g' := by
  have hplain := hs.toPlain.build hle
  have hslots : ∀ other, slotsOf g'.state.globals other =
      if other = name then binding.slot.reg? else slotsOf g.state.globals other := by
    intro other
    rw [slotsOf, h.lookup]
    split_ifs <;> rfl
  -- A new slot is a register that was free, and those of other variables were not.
  have hother : ∀ {other r}, binding.slot.reg? = some r → slotsOf g.state.globals other = some r →
      other = name := by
    intro other r hr hslot
    rcases h.var with ⟨hold, -⟩ | ⟨-, ⟨rfl, -, -⟩ | ⟨⟨storage, -, rfl⟩, -⟩⟩
    · exact hs.distinct other name r hslot (by rw [slotsOf, hold]; exact hr)
    · obtain rfl : b.nextReg = r := by simpa [Value.reg?, Value.reg] using hr
      exact absurd (hplain.under hslot) (Nat.lt_irrefl _)
    · simp [Value.reg?, Value.global] at hr
  refine { vars := ?_, distinct := ?_, top := ?_, functions := ?_, under := ?_, boxed := ?_,
           bound := ?_, head := ?_, cleanup := ?_ }
  · intro other b' hb'
    rw [h.lookup] at hb'
    split_ifs at hb' with hname
    · obtain rfl := Option.some.inj hb'
      subst hname
      rcases h.var with ⟨hold, -⟩ | ⟨-, ⟨rfl, -, -⟩ | ⟨hboxed, -⟩⟩
      · exact hs.vars _ _ hold
      · exact .inl ⟨_, rfl⟩
      · exact .inr hboxed
    · exact hs.vars other b' hb'
  · intro one other r hone hslot
    rw [hslots] at hone hslot
    split_ifs at hone hslot with h₁ h₂ h₂
    · rw [h₁, h₂]
    · exact h₁.trans (hother hone hslot).symm
    · exact (hother hslot hone).trans h₂.symm
    · exact hs.distinct one other r hone hslot
  · exact (congrArg State.scope h.state).trans hs.top
  · exact (congrArg State.functions h.state).trans hs.functions
  · intro other r hslot
    rw [hslots] at hslot
    split_ifs at hslot with hname
    · rcases h.var with ⟨hold, -⟩ | ⟨-, ⟨rfl, -, hlt⟩ | ⟨⟨storage, -, rfl⟩, -⟩⟩
      · exact Nat.lt_of_lt_of_le (hplain.under (by rw [slotsOf, hold]; exact hslot)) h.emitted.next
      · obtain rfl : b.nextReg = r := by simpa [Value.reg?, Value.reg] using hslot
        exact hlt
      · simp [Value.reg?, Value.global] at hslot
    · exact Nat.lt_of_lt_of_le (hplain.under hslot) h.emitted.next
  · intro other b' hb' hboxed
    rw [h.lookup] at hb'
    split_ifs at hb' with hname
    · obtain rfl := Option.some.inj hb'
      subst hname
      rcases h.var with ⟨hold, -⟩ | ⟨-, ⟨rfl, -, -⟩ | ⟨-, -, hwhole⟩⟩
      · exact hs.boxed hold hboxed
      · obtain ⟨storage, -, heq⟩ := hboxed
        simp at heq
      · exact hwhole
    · exact hs.boxed hb' hboxed
  · intro other
    rw [h.lookup, List.mem_append, List.mem_singleton]
    split_ifs with hname
    · simp [hname]
    · simpa [hname] using hs.bound other
  · intro i hi
    rw [hhead] at hi
    refine (List.mem_append.mp hi).elim (hs.head i) fun hi => ?_
    rcases h.var with ⟨-, rfl⟩ | ⟨-, ⟨-, rfl, -⟩ | ⟨-, rfl, -⟩⟩
    · simp at hi
    · exact ⟨_, List.mem_singleton.mp hi⟩
    · simp at hi
  · intro c hc
    exact (h.cleanup c hc).elim (hs.cleanup c) id

/-- Those that share the record of a variable that is copied are not assigned later. -/
theorem apart_of_bare {v : Typed} {T t : Table Binding} {φ φ₁ : Frame ω} {n : Reg}
    {first out : List Double} {ρ₁ : Store} (hbare : IsBare t node code v)
    (hkind : v.kind = .tracked) (hT : Covers T t) (hknown : Known t ρ₁.vars)
    (hapart : ∀ other, node = .identifier other → (t.lookup other).isSome →
      name ∉ later' ∧ other ∉ later')
    (hkeeps : Keeps R n φ code out φ₁) (hholds : Holds R T first certain later φ₁ ρ₁)
    (hsub : later' ⊆ later) :
    ∀ other a, φ₁.eval v.value = some (.address a) → Boxes T φ₁ ρ₁ other a →
      name ∉ later' ∧ other ∉ later' := by
  intro other a ha hother
  obtain ⟨source, b, r, rfl, hsource, hboxed, rfl, hv⟩ := hbare hkind
  obtain ⟨hname, hnotLater⟩ := hapart source rfl (by simp [hsource])
  -- The value was just read from the global of the variable that is copied.
  have hshared : Boxes T φ₁ ρ₁ source a := by
    refine ⟨⟨b, hT source b hsource, hboxed⟩, hknown source (by simp [hsource]), ?_⟩
    obtain ⟨storage, -, rfl⟩ := hboxed
    have hplace : φ.place (.global ("main." ++ source)) = some (.global ("main." ++ source)) := rfl
    have hrun := hkeeps.run
    simp only [Machine.execAll, List.foldlM_cons, List.foldlM_nil, Machine.exec, Machine.compute,
      hplace, Option.bind_eq_bind, Option.bind_some, Option.bind_eq_some_iff,
      Option.map_eq_some_iff] at hrun
    obtain ⟨ψ, ⟨d, hd, rfl⟩, hψ⟩ := hrun
    obtain rfl := Option.some.inj hψ
    rw [hv] at ha
    obtain rfl : d = .address a := Option.some.inj (Frame.regs_set.symm.trans ha)
    exact hd
  refine ⟨hname, ?_⟩
  by_cases heq : other = source
  · exact heq ▸ hnotLater
  · exact fun hmem => hholds.apart other source a heq hother hshared (hsub hmem)

theorem compiles_assignment (hctx : PlainContext ctx) (h : isExpr bound node)
    (hm : R.maths ∨ Observed.isExpr bound node) (hwhole : whole → bound ⊆ certain)
    (hlater : name ∈ later) (hsub : later' ⊆ later)
    (hapart : whole → name ∉ bound → ∀ other, node = .identifier other → other ∈ bound →
      name ∉ later' ∧ other ∉ later')
    (hassigned : ∀ s v s', Plain whole bound s → IsNumber s.builder.nextReg v →
      (v.kind = .tracked → whole) → s.loopEnds = g.state.loopEnds →
      assign name v ctx s = .ok ((), s') →
      ∃ b slots code, Assigned R whole s s' name v b slots code)
    (hrun : (do let v ← expr node; assign name v : Lower Unit) ctx g.state = .ok ((), g'.state))
    (hg : g.Sound ctx P) (hg' : g'.Sound ctx P) :
    Compiles (Kept whole bound) (Kept whole (bound ++ [name]))
      (Carries R whole certain later (name :: certain) later'
        fun passes => pursue N passes (.assignment name node)) g g' := by
  intro hs
  obtain ⟨v, s₁, hvalue, hassign⟩ := run_bind hrun
  obtain ⟨code, b, rfl, hcode, hv, hbare, hmeans⟩ :=
    straight_expr R hctx node h hm g.state hs.toPlain hvalue
  have htracked : v.kind = .tracked → whole := fun hkind => by
    obtain ⟨source, b, r, -, hsource, hboxed, -, -⟩ := hbare hkind
    exact hs.boxed hsource hboxed
  obtain ⟨binding, slots, code', hdone⟩ :=
    hassigned _ v _ (hs.toPlain.build hcode.next) hv htracked rfl hassign
  obtain ⟨hhead, hblocks, hlabel, hinstrs⟩ := hg.emitted hg' (hcode.trans hdone.emitted)
  have hcovers : Covers g'.state.globals g.state.globals := by
    intro other b' hb'
    rw [hdone.lookup]
    split_ifs with heq
    · rcases hdone.var with ⟨hold, -⟩ | ⟨hnone, -⟩
      · exact hold.symm.trans (heq ▸ hb')
      · exact absurd (hnone.symm.trans (heq ▸ hb')) (by simp)
    · exact hb'
  refine ⟨hs.assigned hcode.next hdone (by simpa using hhead), hcovers,
    by rw [hdone.state], fun f T body q hlinked hT hq => ?_⟩
  have hwithin : Within body g ((code ++ code') ++ q) := by
    obtain ⟨after, hbody⟩ := hq
    exact ⟨after, by rw [hbody, hblocks, hlabel, hinstrs]; simp⟩
  refine ⟨_, hwithin, fun first passes φ ρ hholds => ?_⟩
  have hfits := fits_append.mp (hwithin.fits hlinked (hT.trans hcovers))
  simp only [pursue]
  refine (ends_of_means hs hwhole hmeans hfits.1 hholds).bind ?_
  rintro x _ ⟨out, φ₁, rfl, hkeeps, hholds₁, hv₁⟩
  have hknown := hs.known hwhole hholds
  obtain ⟨φ₂, hrun₂, hholds₂⟩ := hdone.sets T first certain later later' φ₁
    { ρ with output := ρ.output ++ out } x
    { hfits.2 with covers := hT } hlater hsub (fun hw => hknown hw name)
    (fun hnone hkind => apart_of_bare hbare hkind (hT.trans hcovers) (hknown (htracked hkind))
      (fun other hother hsome => hapart (htracked hkind)
        (fun hmem => by simpa [hnone] using (hs.bound name).mp hmem) other hother
        ((hs.bound other).mpr hsome)) hkeeps hholds₁ hsub) hholds₁ hv₁
  refine ⟨φ₂, Machine.reaches_execAll ?_, hholds₂⟩
  rw [Machine.execAll_append, hkeeps.run]
  exact hrun₂

end

/-! ## The tree -/

section

variable {ω : Type} {N : Numbers} {M : Machine ω} (R : Library N M) (whole : Prop)
  (certain later : List String) {ctx : Context}

theorem performs_expr (hctx : PlainContext ctx) {bound : List String} {node : Node}
    (h : isExpr bound node) (hm : R.maths ∨ Observed.isExpr bound node)
    (hwhole : whole → bound ⊆ certain) :
    Performs ctx .any (Compiles (Kept whole bound) (Kept whole (bound ++ []))
      (Carries R whole certain later certain later fun _ => do
        discard (eval N node)
        return some .normal)) (discard (expr node)) := by
  rw [List.append_nil]
  exact (performs_discard (evaluates_any node)).ran.mono
    fun _ _ hran => compiles_expr hctx h hm hwhole hran.1 hran.2.1 hran.2.2.1

mutual

theorem performs_numericStmt (hctx : PlainContext ctx) (hobserved : ¬ whole → ctx.observed = []) :
    (node : Node) → ∀ bound, isStmt bound node → R.maths ∨ Observed.isStmt bound node →
      (whole → bound ⊆ certain ∧ assigned node ⊆ bound) → assigned node ⊆ later →
      Performs ctx .any (Compiles (Kept whole bound) (Kept whole (bound ++ assigned node))
        (Carries R whole certain later certain later fun passes => pursue N passes node)) (stmt node)
  | .assignment name value, bound, h, hm, hwhole, hlater => by
    rw [stmt]
    have hname : whole → name ∈ bound := fun hw => (hwhole hw).2 List.mem_cons_self
    have hassigned : ∀ s v s', Plain whole bound s → IsNumber s.builder.nextReg v →
        (v.kind = .tracked → whole) → assign name v ctx s = .ok ((), s') →
        ∃ b slots code, Assigned R whole s s' name v b slots code := by
      intro s v s' hs hv htracked hrun
      cases hlookup : s.globals.lookup name with
      | some b =>
        obtain ⟨code, hassigned⟩ := run_change hctx hs hv hlookup hrun
        exact ⟨b, [], code, hassigned⟩
      | none =>
        -- A new variable is a plain one, since none is observed.
        have hnot : ¬ whole := fun hw => by
          simpa [hlookup] using (hs.bound name).mp (hname hw)
        have hkind : v.kind = .scalar := by
          rcases hv.kind with ⟨hkind, -⟩ | ⟨hkind, -⟩
          · exact hkind
          · exact absurd (htracked hkind) hnot
        exact run_createSlot hctx hs hlookup (by simp [hobserved hnot]) hv hkind hrun
    refine (performs_assignment_any name value).ran.mono fun g g' hran hs => ?_
    exact (compiles_assignment hctx h hm (fun hw => (hwhole hw).1) (hlater List.mem_cons_self)
      (List.Subset.refl _) (fun hw hnew => absurd (hname hw) hnew)
      (fun s v s' hs hv htracked _ => hassigned s v s' hs hv htracked) hran.1 hran.2.1 hran.2.2.1
      hs).mono fun f T loopEnd p q hcarries =>
        hcarries.mono (List.subset_cons_self _ _) (List.Subset.refl _)
  | .ret value, bound, h, hm, hwhole, _ => by
    have hbound : bound ++ assigned (.ret value) = bound := List.append_nil bound
    rw [stmt, hbound]
    refine (performs_leave fun m hm => ?_).mono fun _ _ =>
      compiles_return hctx h (hm.resolve_right (by simp [Observed.isStmt, Observed.isExpr]))
        fun hw => (hwhole hw).1
    obtain ⟨node, -, rfl⟩ := Option.map_eq_some_iff.mp hm
    exact evaluates_any node
  | .breakLoop, bound, _, _, _, _ => by
    have hbound : bound ++ assigned .breakLoop = bound := List.append_nil bound
    rw [stmt, hbound]
    simp only [pursue]
    exact performs_leaveLoop.mono fun _ _ => compiles_break
  | .conditional condition thenBlock elseBlock, bound, h, hm, hwhole, hlater => by
    rw [stmt, assigned, ← List.append_assoc]
    simp only [isStmt, Observed.isStmt, Bool.and_eq_true] at h hm
    rw [assigned, List.append_subset] at hlater
    simp only [assigned, List.append_subset] at hwhole
    simp only [pursue]
    exact (performs_conditional (evaluates_any condition)
      (performs_numericBlock hctx hobserved thenBlock bound h.1.2 (hm.imp_right (·.1.2))
        (fun hw => ⟨(hwhole hw).1, (hwhole hw).2.1⟩) hlater.1)
      (performs_numericBlock hctx hobserved elseBlock _ h.2 (hm.imp_right And.right)
        (fun hw => ⟨List.append_subset.mpr ⟨(hwhole hw).1, fun _ hmem =>
          (hwhole hw).1 ((hwhole hw).2.1 hmem)⟩, fun _ hmem =>
            List.mem_append_left _ ((hwhole hw).2.2 hmem)⟩) hlater.2)).mono
        fun _ _ => .conditional (lasting_kept _ _) (lasting_kept _ _) (lasting_kept _ _)
          (decides_isTrue hctx h.1.1 (hm.imp_right (·.1.1)) fun hw => (hwhole hw).1)
          fun _ _ _ _ _ _ _ _ _ _ _ hgives hyes hno hjoin hfirst hsecond first =>
            follows_conditional (hgives first) hyes hno hjoin (hfirst first) (hsecond first)
  | .loop condition body, bound, h, hm, hwhole, hlater => by
    rw [stmt, assigned]
    simp only [isStmt, Observed.isStmt, Bool.and_eq_true] at h hm
    simp only [pursue]
    exact (performs_loopWhile (evaluates_any condition)
      (performs_numericBlock hctx hobserved body bound h.2 (hm.imp_right And.right) hwhole
        hlater)).mono fun _ _ => .loop (lasting_kept _ _) (lasting_kept _ _)
          (decides_isTrue hctx h.1 (hm.imp_right And.left) fun hw => (hwhole hw).1)
          fun _ _ _ _ _ _ _ _ _ _ => carries_loop
  | .literal _, _, h, hm, hwhole, _ | .identifier _, _, h, hm, hwhole, _
  | .binary .., _, h, hm, hwhole, _ | .unary .., _, h, hm, hwhole, _
  | .relation .., _, h, hm, hwhole, _ =>
    performs_expr R whole certain later hctx h hm fun hw => (hwhole hw).1
  | .listLiteral _, _, h, _, _, _ | .index .., _, h, _, _, _ | .memberAccess .., _, h, _, _, _
  | .structLiteral .., _, h, _, _, _ | .interrogative .., _, h, _, _, _
  | .indexedAssignment .., _, h, _, _, _ | .functionDef .., _, h, _, _, _
  | .structDef .., _, h, _, _, _ | .importModule _, _, h, _, _, _ => by simp [isStmt, isExpr] at h

/-- Lowering statements lays out code that carries them out. Where the evaluation is to be whole, the
statements make no variable. -/
theorem performs_numericBlock (hctx : PlainContext ctx) (hobserved : ¬ whole → ctx.observed = []) :
    (nodes : List Node) → ∀ bound, isBlock bound nodes → R.maths ∨ Observed.isBlock bound nodes →
      (whole → bound ⊆ certain ∧ assignedAll nodes ⊆ bound) → assignedAll nodes ⊆ later →
      Performs ctx .any (Compiles (Kept whole bound) (Kept whole (bound ++ assignedAll nodes))
        (Carries R whole certain later certain later fun passes => pursueAll N passes nodes))
        (block nodes)
  | [], bound, _, _, _, _ => by
    rw [block, assignedAll, List.append_nil]
    simp only [pursueAll]
    refine performs_pure.mono fun g g' hg' hs => ?_
    subst hg'
    exact (lasting_kept whole bound).compiled hs (Appends.refl _)
      fun f T loopEnd q _ first passes φ ρ hholds => ⟨φ, .refl, hholds⟩
  | node :: rest, bound, h, hm, hwhole, hlater => by
    rw [block, assignedAll, ← List.append_assoc]
    simp only [isBlock, Observed.isBlock, Bool.and_eq_true] at h hm
    rw [assignedAll, List.append_subset] at hlater
    simp only [assignedAll, List.append_subset] at hwhole
    simp only [pursueAll]
    refine ((performs_numericStmt hctx hobserved node bound h.1 (hm.imp_right And.left)
      (fun hw => ⟨(hwhole hw).1, (hwhole hw).2.1⟩) hlater.1).seq
      (performs_numericBlock hctx hobserved rest _ h.2 (hm.imp_right And.right)
        (fun hw => ⟨List.append_subset.mpr ⟨(hwhole hw).1, fun _ hmem =>
          (hwhole hw).1 ((hwhole hw).2.1 hmem)⟩, fun _ hmem =>
            List.mem_append_left _ ((hwhole hw).2.2 hmem)⟩) hlater.2)).mono ?_
    rintro g g' ⟨g₁, hfirst, hsecond⟩
    exact hfirst.seq hsecond fun _ _ _ _ _ _ hI hJ first => (hI first).seq (hJ first) (.inr rfl)

end

end

end ScriptCompiler.Numeric
