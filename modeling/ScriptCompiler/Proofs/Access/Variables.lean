import ScriptCompiler.Proofs.Access.Expr

/-!
# Steps that make variables

A first assignment makes a variable, so the access that its code keeps to has to have a slot for the
variable. Which one is known only when the code is there. A step of the lowering that makes variables
is therefore described together with the variables it makes: `Performs` says that the new code keeps
to every access that suits the state before and has the slots of the new variables. These slots are
distinct and were not in use before, and a variable gets one global at most (`Makes`).

What names an access lets code read and share is up to `Rules`, which go by the names that are
assigned further up in the text.
-/

namespace ScriptCompiler.Lowering

open Ir

/-- What code may do with a name, where the names `bound` are assigned further up in the text. -/
structure Rules where
  /-- The name may be read. -/
  mayRead (bound : List String) (name : String) : Bool
  /-- A new variable `target` may share the record of the name. -/
  mayShare (bound : List String) (target name : String) : Bool
  /-- Two parameters may have one name. -/
  mayRepeat : Bool

/-! ## Functions -/

/-- The functions with one more noted, unless one of its name is there. -/
def noteRoutine (functions : List Routine) (r : Routine) : List Routine :=
  if (functions.find? (·.name = r.name)).isSome then functions else functions ++ [r]

/-- The functions with others noted one after the other. -/
def noteAll (functions : List Routine) (rs : List Routine) : List Routine :=
  rs.foldl noteRoutine functions

theorem noteAll_append (functions rs rs' : List Routine) :
    noteAll functions (rs ++ rs') = noteAll (noteAll functions rs) rs' :=
  List.foldl_append

theorem addRoutine_eq (s : State) (r : Routine) :
    s.addRoutine r = { s with functions := noteRoutine s.functions r } := by
  unfold State.addRoutine State.routine? noteRoutine
  split <;> rfl

namespace Access

/-! ## States with variables -/

/-- A state of the scope in which the names `bound` are variables. -/
structure Ready (scope : Scope) (bound : List String) (s : State) : Prop where
  scope : s.scope = scope
  own : ∀ name b, s.own.lookup name = some b → b.storage.Holds b.kind
  outer : ∀ name b, s.globals.lookup name = some b → b.storage.Holds b.kind
  last : ∀ name, s.lastBound = some name → name ∈ bound
  bound : ∀ name, name ∈ bound ↔ ∃ b, s.own.lookup name = some b

/-- The access has the variables of the state, and lets code do what the rules do. -/
structure Suits (A : Access) (ctx : Context) (D : Rules) (s : State) : Prop
    extends A.Serves ctx s where
  own : ∀ name b, s.own.lookup name = some b → A.own name b.storage b.slot
  outer : s.scope = .function → ∀ name b, s.globals.lookup name = some b →
    b.isModuleLevel = true → A.outer name b
  free : ∀ bound name, D.mayRead bound name = true → name ∉ bound → A.free name ∧ A.external name
  members : ∀ bound module, D.mayRead bound module = true →
    ∀ member, A.external (memberSymbol module member)
  publishes : ∀ symbol, A.publishes symbol
  lends : ∀ bound target name slot, D.mayShare bound target name = true →
    (name ∈ bound → ∃ storage, A.own name storage slot) →
    (name ∉ bound → ∃ b, A.outer name b ∧ b.slot = slot) → A.lends target slot

/-- A slot is in the frame or a global, and was not in use before. At top level only a program has
slots in the frame, and only of variables that no function reads which was noted at the start. -/
def IsNew (ctx : Context) (s s' : State) (v : String × Binding) : Prop :=
  (∃ r, v.2.slot = .reg r .ptr ∧ s.builder.nextReg ≤ r ∧ r < s'.builder.nextReg ∧
      (s.scope = .topLevel → ctx.naming.isLibrary = false ∧ v.1 ∉ ctx.shared)) ∨
    s.scope = .topLevel ∧ v.2.slot = .global (ctx.naming.globalSymbol v.1) ∧
      s.own.lookup v.1 = none

/-- From one state to another code is added, the variables `made` are made, and the functions `noted`
are noted. -/
structure Makes (ctx : Context) (noted : List Routine) (s s' : State)
    (made : List (String × Binding)) : Prop where
  scope : s'.scope = s.scope
  globals : s.scope = .function → s'.globals = s.globals
  builder : Extends s.builder s'.builder
  cleanup : ∀ e ∈ s'.cleanup, e ∈ s.cleanup ∨ e.destroy ∈ Catalog.releasing
  functions : s'.functions = noteAll s.functions noted
  /-- A function defines no other. -/
  settled : s.scope = .function → s'.functions = s.functions
  own : ∀ name b', s'.own.lookup name = some b' → ∃ b,
    (s.own.lookup name = some b ∨ (name, b) ∈ made) ∧ b'.storage = b.storage ∧ b'.slot = b.slot
  kept : ∀ name b, s.own.lookup name = some b → ∃ b', s'.own.lookup name = some b'
  new : ∀ v ∈ made, IsNew ctx s s' v
  bound : ∀ v ∈ made, ∃ b, s'.own.lookup v.1 = some b
  apart : made.Pairwise fun v w => v.2.slot ≠ w.2.slot
  /-- Only a new variable gets a global. -/
  stored : (∀ name b, s'.globals.lookup name = some b → Dotless name) → ∀ name,
    stored ctx.naming s'.assembly.globals name = stored ctx.naming s.assembly.globals name ∨
      stored ctx.naming s'.assembly.globals name = stored ctx.naming s.assembly.globals name + 1 ∧
        s.scope = .topLevel ∧ s.own.lookup name = none ∧ ∃ b, s'.own.lookup name = some b

/-- The variables are those of names that were not bound, one of each name. -/
def Singly (bound : List String) (made : List (String × Binding)) : Prop :=
  (∀ v ∈ made, v.1 ∉ bound) ∧ made.Pairwise fun v w => v.1 ≠ w.1

/-- The access has the variables. -/
def Has (A : Access) (made : List (String × Binding)) : Prop :=
  ∀ v ∈ made, A.own v.1 v.2.storage v.2.slot

/-- A slot in the frame is reserved by the code. -/
def Reserves (A : Access) (storage : StorageClass) (slot : Value) : Prop :=
  ∀ r, slot = .reg r .ptr → .alloca r storage.slotType ∈ A.code

section

variable {A : Access} {ctx : Context} {D : Rules} {noted noted' : List Routine} {scope : Scope}
  {bound : List String} {s s₁ s' : State} {made made' : List (String × Binding)}

theorem own_of_topLevel (h : s.scope = .topLevel) : s.own = s.globals := by
  unfold State.own
  rw [h]

theorem find?_of_own {name : String} {b : Binding} (h : s.own.lookup name = some b) :
    s.find? name = some b := by
  unfold State.own at h
  unfold State.find?
  cases hscope : s.scope with
  | topLevel => simpa [hscope] using h
  | function =>
    rw [hscope] at h
    dsimp only at h ⊢
    rw [h]
    rfl

theorem own_of_find? {name : String} {b : Binding} (h : s.find? name = some b) :
    s.own.lookup name = some b ∨ s.own.lookup name = none ∧ s.scope = .function ∧
      s.globals.lookup name = some b ∧ b.isModuleLevel = true := by
  unfold State.own
  unfold State.find? at h
  cases hscope : s.scope with
  | topLevel => exact .inl (by simpa [hscope] using h)
  | function =>
    rw [hscope] at h
    dsimp only at h ⊢
    cases hlocal : s.locals.lookup name with
    | some b' =>
      rw [hlocal] at h
      exact .inl h
    | none =>
      rw [hlocal, Option.none_or, Option.filter_eq_some_iff] at h
      exact .inr ⟨rfl, rfl, h.1, h.2⟩

theorem Ready.none_of_notMem (h : Ready scope bound s) {name : String} (hname : name ∉ bound) :
    s.own.lookup name = none := by
  cases hb : s.own.lookup name with
  | none => rfl
  | some b => exact absurd ((h.bound name).mpr ⟨b, hb⟩) hname

/-- Names that may be read are covered. -/
theorem Suits.covers (h : A.Suits ctx D s) (hs : Ready scope bound s) {names : List String}
    (hnames : ∀ name ∈ names, D.mayRead bound name = true) : A.Covers ctx s names :=
  { h.toServes with
    cell := fun name hname b hb => by
      rcases own_of_find? hb with hown | ⟨hnone, hscope, hglobal, hmodule⟩
      · exact .own (h.own name b hown)
      · have hunbound : name ∉ bound := fun hmem => by
          obtain ⟨b', hb'⟩ := (hs.bound name).mp hmem
          simp [hnone] at hb'
        exact .outer (h.outer hscope name b hglobal hmodule)
          (h.free bound name (hnames name hname) hunbound).1
    external := fun name hname hnone => by
      refine (h.free bound name (hnames name hname) fun hmem => ?_).2
      obtain ⟨b, hb⟩ := (hs.bound name).mp hmem
      simp [find?_of_own hb] at hnone
    members := fun name hname => h.members bound name (hnames name hname)
    last := fun name b hlast hb => by
      obtain ⟨b', hb'⟩ := (hs.bound name).mp (hs.last name hlast)
      obtain rfl : b' = b := Option.some.inj ((find?_of_own hb').symm.trans hb)
      exact .own (h.own name b' hb')
    kinds := fun name b hb => (own_of_find? hb).elim (hs.own name b) fun hg =>
      hs.outer name b hg.2.2.1 }

theorem Ready.same (h : Ready scope bound s) (hsame : SameTables s s') : Ready scope bound s' where
  scope := hsame.scope.trans h.scope
  own := by rw [hsame.own]; exact h.own
  outer := by rw [hsame.globals]; exact h.outer
  last := by rw [hsame.lastBound]; exact h.last
  bound := by rw [hsame.own]; exact h.bound

/-- A step that makes no variable. -/
theorem Quiet.makes (h : Quiet ctx s s') : Makes ctx [] s s' [] where
  scope := h.scope
  globals := fun _ => h.globals
  builder := h.builder
  cleanup := h.cleanup
  functions := h.functions
  settled := fun _ => h.functions
  own := fun name b hb => ⟨b, .inl (h.own ▸ hb), rfl, rfl⟩
  kept := fun name b hb => ⟨b, by rw [h.own]; exact hb⟩
  new := by simp
  bound := by simp
  apart := .nil
  stored := fun hdot name => .inl (h.stored (by rw [← h.globals]; exact hdot) name)

theorem Makes.lookup_globals (h : Makes ctx noted s s' made) {name : String} {b : Binding}
    (hb : s.globals.lookup name = some b) : ∃ b', s'.globals.lookup name = some b' := by
  cases hscope : s.scope with
  | function => exact ⟨b, by rw [h.globals hscope]; exact hb⟩
  | topLevel =>
    rw [← own_of_topLevel hscope] at hb
    rw [← own_of_topLevel (h.scope.trans hscope)]
    exact h.kept name b hb

theorem IsNew.mono {v : String × Binding} (h : IsNew ctx s s₁ v)
    (hstep : Makes ctx noted s₁ s' made) : IsNew ctx s s' v := by
  rcases h with ⟨r, hslot, hle, hlt, hframe⟩ | hglobal
  · exact .inl ⟨r, hslot, hle, Nat.lt_of_lt_of_le hlt hstep.builder.next, hframe⟩
  · exact .inr hglobal

/-- What was not in use later was not in use before. -/
theorem IsNew.before {v : String × Binding} (h : IsNew ctx s₁ s' v)
    (hstep : Makes ctx noted s s₁ made) : IsNew ctx s s' v := by
  rcases h with ⟨r, hslot, hle, hlt, hframe⟩ | ⟨htop, hslot, hnone⟩
  · exact .inl ⟨r, hslot, Nat.le_trans hstep.builder.next hle, hlt,
      fun htop => hframe (hstep.scope.trans htop)⟩
  · refine .inr ⟨hstep.scope.symm.trans htop, hslot, ?_⟩
    cases hb : s.own.lookup v.1 with
    | none => rfl
    | some b =>
      obtain ⟨b', hb'⟩ := hstep.kept _ b hb
      simp [hnone] at hb'

theorem IsNew.slot_ne {v w : String × Binding} (h : IsNew ctx s s₁ v) (h' : IsNew ctx s₁ s' w)
    (hbound : ∃ b, s₁.own.lookup v.1 = some b) : v.2.slot ≠ w.2.slot := by
  intro heq
  obtain ⟨b, hb⟩ := hbound
  rcases h with ⟨r, hslot, -, hlt, -⟩ | ⟨-, hslot, -⟩ <;>
    rcases h' with ⟨r', hslot', hle, -⟩ | ⟨-, hslot', hnone⟩ <;>
      rw [hslot, hslot'] at heq
  · have hr : r = r' := by simpa [Value.reg] using heq
    exact absurd (hr ▸ hlt) (Nat.not_lt.mpr hle)
  · simp [Value.reg, Value.global] at heq
  · simp [Value.reg, Value.global] at heq
  · have hsymbol : ctx.naming.globalSymbol v.1 = ctx.naming.globalSymbol w.1 := by
      simpa [Value.global] using heq
    rw [globalSymbol_injective _ hsymbol, hnone] at hb
    simp at hb

theorem Makes.trans (h : Makes ctx noted s s₁ made) (h' : Makes ctx noted' s₁ s' made') :
    Makes ctx (noted ++ noted') s s' (made ++ made') where
  scope := h'.scope.trans h.scope
  globals := fun hfun => (h'.globals (h.scope.trans hfun)).trans (h.globals hfun)
  builder := h.builder.trans h'.builder
  cleanup := fun e he => (h'.cleanup e he).elim (h.cleanup e) .inr
  functions := by rw [h'.functions, h.functions, noteAll_append]
  settled := fun hfun => (h'.settled (h.scope.trans hfun)).trans (h.settled hfun)
  own := fun name b hb => by
    obtain ⟨b₁, hfrom, hstorage, hslot⟩ := h'.own name b hb
    rcases hfrom with hb₁ | hmade
    · obtain ⟨b₀, hfrom₀, hstorage₀, hslot₀⟩ := h.own name b₁ hb₁
      exact ⟨b₀, hfrom₀.imp_right (List.mem_append_left _), hstorage.trans hstorage₀,
        hslot.trans hslot₀⟩
    · exact ⟨b₁, .inr (List.mem_append_right _ hmade), hstorage, hslot⟩
  kept := fun name b hb => (h.kept name b hb).elim fun b₁ hb₁ => h'.kept name b₁ hb₁
  new := fun v hv => (List.mem_append.mp hv).elim (fun hv => (h.new v hv).mono h')
    fun hv => (h'.new v hv).before h
  bound := fun v hv => (List.mem_append.mp hv).elim
    (fun hv => (h.bound v hv).elim fun b hb => h'.kept v.1 b hb) (h'.bound v)
  apart := List.pairwise_append.mpr ⟨h.apart, h'.apart, fun v hv w hw =>
    (h.new v hv).slot_ne (h'.new w hw) (h.bound v hv)⟩
  stored := fun hdot name => by
    have hdot₁ : ∀ name b, s₁.globals.lookup name = some b → Dotless name := fun name b hb =>
      (h'.lookup_globals hb).elim (hdot name)
    rcases h.stored hdot₁ name with hsame | ⟨hmore, htop, hnone, b, hb⟩ <;>
      rcases h'.stored hdot name with hsame' | ⟨hmore', htop', hnone', b', hb'⟩
    · exact .inl (hsame'.trans hsame)
    · refine .inr ⟨by rw [hmore', hsame], h.scope.symm.trans htop', ?_, b', hb'⟩
      cases hb : s.own.lookup name with
      | none => rfl
      | some b =>
        obtain ⟨b₁, hb₁⟩ := h.kept name b hb
        simp [hnone'] at hb₁
    · exact .inr ⟨by rw [hsame', hmore], htop, hnone, h'.kept name b hb⟩
    · simp [hb] at hnone'

theorem Makes.mem_bound (h : Makes ctx noted s s' made) (hready : Ready scope bound s')
    {v : String × Binding} (hv : v ∈ made) : v.1 ∈ bound :=
  (hready.bound v.1).mpr (h.bound v hv)

theorem singly_nil : Singly bound [] := ⟨by simp, .nil⟩

theorem Singly.append {new : List String} (h : Singly bound made)
    (h' : Singly (bound ++ new) made') (hmade : ∀ v ∈ made, v.1 ∈ bound ++ new) :
    Singly bound (made ++ made') := by
  refine ⟨fun v hv => ?_, List.pairwise_append.mpr ⟨h.2, h'.2, fun v hv w hw heq => ?_⟩⟩
  · rcases List.mem_append.mp hv with hv | hv
    · exact h.1 v hv
    · exact fun hmem => h'.1 v hv (List.mem_append_left _ hmem)
  · exact h'.1 w hw (heq ▸ hmade v hv)

/-- An access that has the variables of a step suits the state after it. -/
theorem Suits.after (h : A.Suits ctx D s) (hstep : Makes ctx noted s s' made)
    (hmade : A.Has made) : A.Suits ctx D s' where
  scope := h.scope.trans hstep.scope.symm
  symbols := h.symbols
  cells := h.cells
  notes := fun ht => h.notes ⟨hstep.scope.symm.trans ht.1, ht.2⟩
  own := fun name b hb => by
    obtain ⟨b₀, hfrom, hstorage, hslot⟩ := hstep.own name b hb
    rw [hstorage, hslot]
    exact hfrom.elim (h.own name b₀) fun hmem => hmade _ hmem
  outer := fun hfun => by
    have hfun : s.scope = .function := hstep.scope.symm.trans hfun
    rw [hstep.globals hfun]
    exact h.outer hfun
  free := h.free
  members := h.members
  publishes := h.publishes
  lends := h.lends

theorem Has.left (h : A.Has (made ++ made')) : A.Has made :=
  fun v hv => h v (List.mem_append_left _ hv)

theorem Has.right (h : A.Has (made ++ made')) : A.Has made' :=
  fun v hv => h v (List.mem_append_right _ hv)

end

/-! ## Steps that make variables -/

/-- What a run of `m` from the state `s` does: the names `new` become variables besides the names
`bound`, each with one slot unless names may be repeated, the functions `noted` are noted, and the new
code keeps to every access that suits `s`, has the variables that are made and the finished code, and
of which `P` holds. -/
def PerformsAt (ctx : Context) (scope : Scope) (D : Rules) (noted : List Routine)
    (P : Access → Prop) (bound new : List String) (m : Lower Unit) (s : State) : Prop :=
  ∀ s', m ctx s = .ok ((), s') → Ready scope bound s → ∃ made, Makes ctx noted s s' made ∧
    Ready scope (bound ++ new) s' ∧ (D.mayRepeat = false → Singly bound made) ∧
      ∀ A : Access, A.Suits ctx D s → P A → A.Has made → s'.builder.func.instrs ⊆ A.code →
        A.Hosts s.builder → A.Enlarges s.builder s'.builder ∧
          ∀ v ∈ made, A.Reserves v.2.storage v.2.slot

/-- What every run of `m` does. -/
def Performs (ctx : Context) (scope : Scope) (D : Rules) (noted : List Routine)
    (P : Access → Prop) (bound new : List String) (m : Lower Unit) : Prop :=
  ∀ s, PerformsAt ctx scope D noted P bound new m s

section

variable {α : Type} {ctx : Context} {scope : Scope} {D : Rules} {noted noted' : List Routine}
  {P : Access → Prop} {bound new new' : List String}

namespace PerformsAt

variable {m m' : Lower Unit} {s : State}

theorem renamed (h : PerformsAt ctx scope D noted P bound new m s)
    (hnew : ∀ name, name ∈ bound ++ new ↔ name ∈ bound ++ new') :
    PerformsAt ctx scope D noted P bound new' m s := by
  intro s' hrun hready
  obtain ⟨made, hmakes, hready', hsingly, henlarge⟩ := h s' hrun hready
  exact ⟨made, hmakes, { hready' with
    last := fun name hname => (hnew name).mp (hready'.last name hname)
    bound := fun name => (hnew name).symm.trans (hready'.bound name) }, hsingly, henlarge⟩

/-- One step after another. -/
theorem seq (h : PerformsAt ctx scope D noted P bound new m s)
    (h' : Performs ctx scope D noted' P (bound ++ new) new' m') :
    PerformsAt ctx scope D (noted ++ noted') P bound (new ++ new') (m >>= fun _ => m') s := by
  intro s' hrun hready
  obtain ⟨⟨⟩, s₁, hm, hm'⟩ := run_bind hrun
  obtain ⟨made, hmakes, hready₁, hsingly, henlarge⟩ := h s₁ hm hready
  obtain ⟨made', hmakes', hready', hsingly', henlarge'⟩ := h' s₁ s' hm' hready₁
  refine ⟨made ++ made', hmakes.trans hmakes', List.append_assoc .. ▸ hready',
    fun hD => (hsingly hD).append (hsingly' hD) fun v => hmakes.mem_bound hready₁, ?_⟩
  intro A hsuits hP hmade hcode hhosts
  obtain ⟨hleft, hreserves⟩ := henlarge A hsuits hP hmade.left
    (List.Subset.trans hmakes'.builder.code hcode) hhosts
  obtain ⟨hright, hreserves'⟩ := henlarge' A (hsuits.after hmakes hmade.left) hP hmade.right
    hcode (hleft.hosts hhosts)
  exact ⟨hleft.trans hright, fun v hv => (List.mem_append.mp hv).elim (hreserves v) (hreserves' v)⟩

theorem of_computes {L : List String}
    (h : Ready scope bound s →
      Computes ctx s AnyError L (fun A => A.Suits ctx D s ∧ P A) m fun _ _ => True) :
    PerformsAt ctx scope D [] P bound [] m s := by
  intro s' hrun hready
  obtain ⟨hquiet, henlarge⟩ := (h hready).code (SameTables.refl s) hrun
  refine ⟨[], hquiet.makes, by simpa using hready.same hquiet.toSameTables,
    fun _ => singly_nil, ?_⟩
  intro A hsuits hP _ hcode hhosts
  exact ⟨(henlarge A hcode ⟨hsuits, hP⟩ hhosts).1, by simp⟩

theorem ready (h : Ready scope bound s → PerformsAt ctx scope D noted P bound new m s) :
    PerformsAt ctx scope D noted P bound new m s :=
  fun s' hrun hready => h hready s' hrun hready

theorem get_bind {f : State → Lower Unit} (h : PerformsAt ctx scope D noted P bound new (f s) s) :
    PerformsAt ctx scope D noted P bound new (get >>= f) s :=
  fun s' hrun => h s' hrun

theorem lift_bind {x : Except Error α} {f : α → Lower Unit}
    (h : ∀ a, x = .ok a → PerformsAt ctx scope D noted P bound new (f a) s) :
    PerformsAt ctx scope D noted P bound new (liftM x >>= f) s := by
  cases x with
  | error e =>
    intro s' hrun
    have hfails : (Except.error e : Except Error (Unit × State)) = .ok ((), s') := hrun
    simp at hfails
  | ok a => exact h a rfl

end PerformsAt

/-- A step that makes no variable, and what follows from its result. -/
theorem Computes.performs_bind {m : Lower α} {f : α → Lower Unit} {Q : Access → α → Prop}
    {s : State} {L : List String} (h : Ready scope bound s →
      Computes ctx s AnyError L (fun A => A.Suits ctx D s ∧ P A) m Q)
    (k : ∀ a s₁, SameTables s s₁ →
      PerformsAt ctx scope D noted (fun A => P A ∧ Q A a) bound new (f a) s₁) :
    PerformsAt ctx scope D noted P bound new (m >>= f) s := by
  intro s' hrun hready
  obtain ⟨a, s₁, hm, hf⟩ := run_bind hrun
  obtain ⟨hquiet, henlarge⟩ := (h hready).code (SameTables.refl s) hm
  obtain ⟨made, hmakes, hready', hsingly, henlarge'⟩ :=
    k a s₁ hquiet.toSameTables s' hf (hready.same hquiet.toSameTables)
  have hstep : Makes ctx [] s s₁ [] := hquiet.makes
  refine ⟨made, hstep.trans hmakes, hready', hsingly, ?_⟩
  intro A hsuits hP hmade hcode hhosts
  obtain ⟨hleft, hQ⟩ :=
    henlarge A (List.Subset.trans hmakes.builder.code hcode) ⟨hsuits, hP⟩ hhosts
  obtain ⟨hright, hreserves⟩ := henlarge' A (hsuits.after hstep (by simp [Has])) ⟨hP, hQ⟩ hmade
    hcode (hleft.hosts hhosts)
  exact ⟨hleft.trans hright, hreserves⟩

end

end Access

end ScriptCompiler.Lowering
