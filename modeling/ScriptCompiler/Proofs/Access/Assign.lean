import ScriptCompiler.Proofs.Access.Variables
import ScriptCompiler.Proofs.Numeric.Assign

/-!
# Assignments keep to an access

A first assignment reserves a slot and stores there a number, a word, an address, or the address of a
boxed record. The record is made on the spot, or it is that of another variable, if the rules let its
record be shared. A further assignment stores into the slot, or gives the record in it a new value.
Neither touches the slot of any other variable.
-/

namespace ScriptCompiler.Lowering.Access

open Ir

section

variable {ctx : Context} {scope : Scope} {D : Rules} {P : Access → Prop} {bound : List String}

/-! ## First assignments -/

/-- The value may be shared by a new variable of a name. -/
def Lends (A : Access) (name : String) (v : Typed) : Prop :=
  v.kind = .tracked → ∃ storage slot, A.Cell storage slot ∧ storage.isTracked = true ∧
    A.Reads v.value slot ∧ A.lends name slot

theorem writes_pushTwo {i j : Instr} (hi : ∀ A, P A → ∀ above, A.Allows above i)
    (hj : ∀ A, P A → ∀ above, i ∈ above → A.Allows above j) :
    Writes P (do Emit.push i; Emit.push j) fun _ _ => True := by
  intro b
  refine ⟨(extends_push b i).trans (extends_push _ j), fun A _ hP hhosts => ⟨?_, trivial⟩⟩
  have hboth : (b.push i).push j = pushAll b [i, j] := by
    simp only [Builder.push, Builder.modifyBlock, pushAll, List.modify_modify_eq]
    congr 3
    funext block
    simp [Block.push]
  have hfollows : ∀ above, A.Follows above [i, j] := fun above =>
    ⟨hi A hP above, hj A hP _ (by simp), trivial⟩
  show A.Enlarges b ((b.push i).push j)
  rw [hboth]
  exact .pushAll hhosts hfollows

theorem initBox_stack {slot : Value} {v : Typed} (h : v.kind = .scalar ∨ v.kind = .packed) :
    initBox slot v .stack = emit (do
      let scalar ← toScalar v
      let record ← Emit.alloca (.named recordTypeName)
      Emit.callVoid Catalog.boxInit [record, scalar]
      Emit.store record slot) := by
  have htracked : toTracked v .stack = .ok (newBox v .stack) := by
    unfold toTracked
    rcases h with h | h <;> rw [h]
  unfold initBox
  rw [htracked]
  rfl

variable {T : State} {F : Error → Prop} {v : Typed} {name : String} {storage : StorageClass} {slot : Value}

/-- Boxed records are in the frame of a function, and on the heap at top level. -/
def homeScope : BoxHome → Scope
  | .stack => .function
  | .heap => .topLevel

theorem isTracked_storage (home : BoxHome) : home.storage.isTracked = true := by
  cases home <;> rfl

theorem computes_initBox {home : BoxHome} (hkind : v.kind = .scalar ∨ v.kind = .packed)
    (hserves : ∀ A, P A → A.Serves ctx T) (hv : ∀ A, P A → A.Knows v)
    (hown : ∀ A, P A → A.own name home.storage slot) (hhome : T.scope = homeScope home) :
    Computes ctx T F [] P (initBox slot v home) fun _ _ => True := by
  cases home with
  | stack =>
    rw [initBox_stack hkind]
    refine Writes.computes ((writes_toScalar hv).bind fun scalar => ?_)
    refine (writes_alloca fun A hA => .inr ⟨(hserves A hA.1).scope.trans hhome, rfl⟩).bind
      fun record => writes_pushTwo ?_ ?_
    · rintro A ⟨⟨hP, hscalar⟩, dst, rfl, hreserved⟩ above
      exact .fill hreserved hscalar
    · rintro A ⟨⟨hP, -⟩, dst, rfl, hreserved⟩ above hfilled
      exact .storeBox (hown A hP) rfl (.stack hreserved hfilled)
  | heap =>
    rw [Stage.initBox_heap hkind]
    refine (writes_toScalar hv).computes.bind fun scalar => ?_
    refine (computes_allocate (by decide) (by decide) (fun A hA => hserves A hA.1)
      fun A hA => by simpa using hA.2).bind fun record => ?_
    refine (writes_store fun A hA above => ?_).computes
    obtain ⟨⟨hP, -⟩, -, dst, rfl, hmade⟩ := hA
    have htop : A.scope = .topLevel := (hserves A hP).scope.trans hhome
    exact .storeBox (hown A hP) rfl (.heap htop hmade)

theorem computes_freshLabel (stem : String) :
    Computes ctx T F [] P (freshLabel stem) fun _ _ => True :=
  .of_ok (fun _ => rfl) (fun s _ => Adds.quiet { Adds.refl s with } rfl) (fun _ => ⟨rfl, rfl⟩)
    fun _ _ _ _ _ => ⟨.refl _, trivial⟩

theorem extends_openBlock {b b' : Builder} {label : String}
    (hb : (b.appendBlock label).positionAtEnd label = .ok b') : Extends b b' := by
  unfold Builder.positionAtEnd at hb
  split at hb
  case h_2 => simp at hb
  case h_1 =>
    obtain rfl := Except.ok.inj hb
    exact ⟨by simp [Func.instrs, Builder.appendBlock], Nat.le_refl _, List.Subset.refl _⟩

/-- A block is found when it was just added. -/
theorem exists_positionAtEnd (b : Builder) (label : String) :
    ∃ b', (b.appendBlock label).positionAtEnd label = .ok b' := by
  unfold Builder.positionAtEnd
  cases hfind : (b.appendBlock label).func.blocks.findIdx? (·.label = label) with
  | some index => exact ⟨_, rfl⟩
  | none =>
    have hnone := List.findIdx?_eq_none_iff.mp hfind { label } (by simp [Builder.appendBlock])
    simp at hnone

theorem computes_openBlock (label : String) :
    Computes ctx T F [] P (openBlock label) fun _ _ => True := by
  choose next hnext using fun s : State => exists_positionAtEnd s.builder label
  refine .of_ok (a := fun _ => ()) (n := fun s => { s with builder := next s }) (fun s => ?_)
    (fun s _ => ?_) (fun _ => ⟨rfl, rfl⟩) fun s _ _ _ hhosts => ⟨.openBlock hhosts (hnext s), trivial⟩
  · show (liftM ((s.builder.appendBlock label).positionAtEnd label) >>= fun builder =>
      MonadState.modifyGet fun s => ((), { s with builder }) : Lower Unit) ctx _ = _
    rw [hnext s]
    rfl
  · exact Adds.quiet { Adds.refl s with builder := extends_openBlock (hnext s) } rfl

theorem writes_terminate {i : Instr} (h : i.isTerminator = true)
    (hloose : ∀ A, P A → ∀ v ∈ i.operands, ¬ A.Confined v) :
    Writes P (Emit.push i) fun _ _ => True :=
  writes_push fun A hP _ => .terminate h (hloose A hP)

theorem writes_br (label : String) : Writes P (Emit.br label) fun _ _ => True :=
  writes_terminate rfl (by simp [Instr.operands])

theorem computes_initBoxOnce {home : BoxHome} (hkind : v.kind = .scalar ∨ v.kind = .packed)
    (hserves : ∀ A, P A → A.Serves ctx T) (hv : ∀ A, P A → A.Knows v)
    (hown : ∀ A, P A → A.own name home.storage slot) (hhome : T.scope = homeScope home) :
    Computes ctx T F [] P (initBoxOnce slot v home) fun _ _ => True := by
  unfold initBoxOnce
  refine (computes_freshLabel _).seq fun _ => (computes_freshLabel _).seq fun _ =>
    (computes_freshLabel _).seq fun _ => ?_
  have hload : Writes P (Emit.load .ptr slot) fun A record => A.Reads record slot := by
    refine (writes_load fun A dst hP _ => ?_).mono (fun _ hP => hP) fun _ _ _ hQ => hQ.2.1 rfl
    rw [← slotType_of_isTracked (isTracked_storage home)]
    exact .load (.own (hown A hP)) dst
  refine hload.lifted.bind fun current => ?_
  refine writes_compareNull.lifted.bind fun _ => ?_
  refine (writes_terminate rfl fun A hA => by simpa [Instr.operands] using hA.2).lifted.seq
    fun _ => (computes_openBlock _).seq fun _ => ?_
  refine (computes_initBox hkind (fun A hA => hserves A hA.1.1) (fun A hA => hv A hA.1.1)
    (fun A hA => hown A hA.1.1) hhome).seq fun _ => ?_
  refine (writes_br _).lifted.seq fun _ => (computes_openBlock _).seq fun _ => ?_
  refine (writes_toScalar fun A hA => hv A hA.1.1).lifted.bind fun _ => ?_
  refine (writes_callVoid fun A hA _ => ?_).lifted.seq fun _ => ?_
  · exact .update (hown A hA.1.1.1) (isTracked_storage home) hA.1.1.2 hA.2
  exact (writes_br _).lifted.seq fun _ => computes_openBlock _

/-- The storage of a new variable is the one that suits its first value. -/
theorem computes_storeFirst {observed inLoop : Bool}
    (hstorage : storage = newStorage T.scope observed v.kind)
    (hserves : ∀ A, P A → A.Serves ctx T) (hv : ∀ A, P A → A.Knows v)
    (hlends : ∀ A, P A → A.Lends name v) (hown : ∀ A, P A → A.own name storage slot) :
    Computes ctx T F [] P (storeFirst storage slot v inLoop) fun _ _ => True := by
  have hstore : storage.isTracked = false → ∀ {P' : Access → Prop} value (kind : Kind),
      (∀ A, P' A → P A ∧ ¬ A.Confined value) →
      Computes ctx T F [] P' (do Emit.store value slot; return kind) fun _ _ => True := by
    intro hplain P' value kind hP'
    refine (writes_store fun A hA _ => ?_).lifted.seq fun _ => Computes.pure fun _ _ => trivial
    exact .storePlain (hown A (hP' A hA).1) hplain (hP' A hA).2
  have hbox : ∀ home : BoxHome, storage = home.storage → (v.kind = .scalar ∨ v.kind = .packed) →
      T.scope = homeScope home →
      Computes ctx T F [] P (storeFirst.box slot v inLoop home) fun _ _ => True := by
    rintro home rfl hkind hhome
    unfold storeFirst.box
    dsimp only
    split
    · exact (computes_initBoxOnce hkind hserves hv hown hhome).seq fun _ =>
        Computes.pure fun _ _ => trivial
    · exact (computes_initBox hkind hserves hv hown hhome).seq fun _ =>
        Computes.pure fun _ _ => trivial
  -- A boxed variable is made for a number or a word, in the frame of a function or on the heap.
  have hboxed : (v.kind = .scalar ∨ v.kind = .packed) → storage = newStorage.box T.scope →
      Computes ctx T F [] P (storeFirst storage slot v inLoop) fun _ _ => True := by
    intro hkind heq
    cases hscope : T.scope with
    | topLevel =>
      rw [hscope] at heq
      subst heq
      exact hbox .heap rfl hkind hscope
    | function =>
      rw [hscope] at heq
      subst heq
      exact hbox .stack rfl hkind hscope
  cases hkind : v.kind with
  | scalar =>
    rw [hkind] at hstorage
    cases observed with
    | true => exact hboxed (.inl hkind) hstorage
    | false =>
      obtain rfl : storage = .fastSlot := hstorage
      exact (writes_toScalar hv).lifted.bind fun _ => hstore rfl _ _ fun _ hA => hA
  | packed =>
    rw [hkind] at hstorage
    cases observed with
    | true => exact hboxed (.inr hkind) hstorage
    | false =>
      obtain rfl : storage = .packedSlot := hstorage
      refine (writes_pack fun A hP => (hv A hP).isPlain (by simp [hkind])).lifted.bind fun _ => ?_
      exact hstore rfl _ _ fun A hA => ⟨hA.1, not_confined_of_ty (by rw [hA.2]; decide)⟩
  | tracked =>
    rw [hkind] at hstorage
    obtain rfl : storage = .borrowed := hstorage
    refine (writes_store fun A hP above => ?_).lifted.seq fun _ => Computes.pure fun _ _ => trivial
    obtain ⟨lender, from', hcell, htracked, hreads, hlend⟩ := hlends A hP hkind
    exact .storeBox (hown A hP) rfl (.shared hcell htracked hreads hlend)
  | list | text =>
    rw [hkind] at hstorage
    obtain rfl : storage = .handle := hstorage
    exact hstore rfl _ _ fun A hP => ⟨hP, (hv A hP).loose (by simp [hkind])⟩
  | struct type =>
    rw [hkind] at hstorage
    obtain rfl : storage = .handle := hstorage
    exact hstore rfl _ _ fun A hP => ⟨hP, (hv A hP).loose (by simp [hkind])⟩

theorem run_seq_pure {m : Lower Unit} {kind kind' : Kind} {s s' : State}
    (h : (do m; return kind) ctx s = .ok (kind', s')) : kind' = kind := by
  obtain ⟨_, s₁, -, h⟩ := run_bind h
  exact (congrArg Prod.fst (Except.ok.inj h)).symm

theorem holds_of_newStorage {observed : Bool} {kind : Kind}
    (h : .handle = newStorage scope observed kind) : StorageClass.handle.Holds kind := by
  have hbox : newStorage.box scope ≠ .handle := by cases scope <;> simp [newStorage.box]
  cases kind with
  | scalar => cases observed <;> simp [newStorage, hbox.symm] at h
  | packed => cases observed <;> simp [newStorage, hbox.symm] at h
  | tracked => simp [newStorage] at h
  | list | text => exact ⟨rfl, by simp⟩
  | struct type => exact ⟨rfl, by simp⟩

theorem storeFirst_holds {observed inLoop : Bool} {kind : Kind} {s s' : State}
    (hstorage : storage = newStorage scope observed v.kind)
    (h : storeFirst storage slot v inLoop ctx s = .ok (kind, s')) : storage.Holds kind := by
  have hbox : ∀ home, storeFirst.box slot v inLoop home ctx s = .ok (kind, s') →
      kind = .tracked := by
    intro home h
    unfold storeFirst.box at h
    dsimp only at h
    split at h
    · exact run_seq_pure h
    · exact run_seq_pure h
  cases storage with
  | fastSlot =>
    obtain ⟨_, s₁, -, h⟩ := run_bind h
    exact run_seq_pure h
  | packedSlot =>
    obtain ⟨_, s₁, -, h⟩ := run_bind h
    exact run_seq_pure h
  | borrowed => exact run_seq_pure h
  | stackBox => exact hbox .stack h
  | heapBox => exact hbox .heap h
  | handle =>
    obtain rfl := run_seq_pure h
    exact holds_of_newStorage hstorage

/-- A slot in the frame is a new register, and any other slot the global of the variable. -/
def IsSlot (ctx : Context) (s s' : State) (name : String) (slot : Value) : SlotHome → Prop
  | .stack => slot = .reg s.builder.nextReg .ptr ∧ s.builder.nextReg < s'.builder.nextReg
  | .moduleGlobal => slot = .global (ctx.naming.globalSymbol name)

/-- A slot that is reserved and set to null at once. -/
theorem Enlarges.allocaWith {A : Access} {b : Builder} {storage : StorageClass} (h : A.Hosts b)
    (hcode : (Emit.allocaWith storage.slotType .null b).2.func.instrs ⊆ A.code)
    (hstore : A.Prepares (.store .null (.reg b.nextReg .ptr))) :
    A.Enlarges b (Emit.allocaWith storage.slotType .null b).2 ∧
      .alloca b.nextReg storage.slotType ∈ A.code := by
  obtain ⟨-, henlarge⟩ := writes_alloca (P := fun _ => True) (fun _ _ => .inl ⟨storage, rfl⟩) b
  have hsub := (extends_pushEntry (Emit.alloca storage.slotType b).2
    (.store .null (.reg b.nextReg .ptr))).code
  obtain ⟨henlarges, dst, hdst, hmem⟩ := henlarge A (List.Subset.trans hsub hcode) trivial h
  have hdst : Value.reg b.nextReg .ptr = .reg dst .ptr := hdst
  obtain rfl : b.nextReg = dst := by simpa [Value.reg] using hdst
  exact ⟨henlarges.trans (.pushEntry (henlarges.hosts h) hstore), hmem⟩

theorem stored_storage {naming : Naming} {d : Global} {globals : List Global}
    (hname : d.name = naming.globalSymbol name) (hinit : d.init.isSome = true)
    (hconstant : d.constant = false) (name' : String) :
    stored naming (globals ++ [d]) name' =
      stored naming globals name' + if name' = name then 1 else 0 := by
  unfold stored
  rw [List.countP_append, List.countP_singleton]
  by_cases heq : name' = name
  · simp [heq, hname, hinit, hconstant]
  · have hne : naming.globalSymbol name ≠ naming.globalSymbol name' := fun hsymbol =>
      heq (globalSymbol_injective naming hsymbol).symm
    simp [heq, hname, hne]

theorem newSlot_spec {home : SlotHome} {inLoop : Bool} {s s' : State}
    (h : newSlot name storage home inLoop ctx s = .ok (slot, s')) :
    Adds s s' ∧ IsSlot ctx s s' name slot home ∧
      (∀ name', stored ctx.naming s'.assembly.globals name' =
        stored ctx.naming s.assembly.globals name' +
          if home = .moduleGlobal ∧ name' = name then 1 else 0) ∧
      ∀ A : Access, s'.builder.func.instrs ⊆ A.code → A.own name storage slot →
        A.Hosts s.builder → A.Enlarges s.builder s'.builder ∧ A.Reserves storage slot := by
  cases home with
  | moduleGlobal =>
    unfold newSlot at h
    dsimp only at h
    rw [run_read] at h
    obtain ⟨_, s₁, hadd, hpure⟩ := run_bind h
    obtain ⟨rfl, rfl⟩ := Prod.mk.inj (Except.ok.inj hpure)
    obtain rfl := congrArg Prod.snd (Except.ok.inj hadd)
    refine ⟨{ Adds.refl s with }, rfl, fun name' => ?_, fun A _ _ _ => ⟨.refl _, ?_⟩⟩
    · rw [show ∀ a : Assembly, ∀ d, (a.addGlobal d).globals = a.globals ++ [d] from fun _ _ => rfl,
        stored_storage rfl rfl rfl]
      simp
    · intro r hr
      simp [Value.global, Value.reg] at hr
  | stack =>
    by_cases hloop : (inLoop && storage.isTracked) = true
    · simp only [newSlot, hloop, if_true] at h
      obtain ⟨rfl, rfl⟩ := Prod.mk.inj (Except.ok.inj h)
      have htracked : storage.isTracked = true := by simp_all
      have hext : Extends s.builder (Emit.allocaWith storage.slotType .null s.builder).2 :=
        (writes_alloca (P := fun _ => True) (fun _ _ => .inl ⟨storage, rfl⟩) s.builder).1.trans
          (extends_pushEntry _ _)
      refine ⟨{ Adds.refl s with builder := hext }, ⟨rfl, Nat.lt_succ_self _⟩, fun _ => by simp,
        fun A hcode hown hhosts => ?_⟩
      obtain ⟨henlarges, hmem⟩ := Enlarges.allocaWith hhosts hcode (.null hown htracked)
      refine ⟨henlarges, fun r hr => ?_⟩
      have hr : Value.reg s.builder.nextReg .ptr = .reg r .ptr := hr
      obtain rfl : s.builder.nextReg = r := by simpa [Value.reg] using hr
      exact hmem
    · simp only [newSlot, hloop] at h
      obtain ⟨rfl, rfl⟩ := Prod.mk.inj (Except.ok.inj h)
      obtain ⟨hext, henlarge⟩ := writes_alloca (P := fun _ => True)
        (fun _ _ => .inl ⟨storage, rfl⟩) s.builder
      refine ⟨{ Adds.refl s with builder := hext }, ⟨rfl, Nat.lt_succ_self _⟩, fun _ => by simp,
        fun A hcode _ hhosts => ?_⟩
      obtain ⟨henlarges, dst, hdst, hmem⟩ := henlarge A hcode trivial hhosts
      refine ⟨henlarges, fun r hr => ?_⟩
      obtain rfl : dst = r := by simpa [Value.reg] using hdst.symm.trans hr
      exact hmem

/-! ## Binding names -/

theorem own_bind (s : State) (name : String) (b : Binding) :
    (s.bind name b).own = Table.set s.own name b := by
  cases hscope : s.scope <;> simp [State.bind, State.own, hscope]

theorem scope_bind (s : State) (name : String) (b : Binding) :
    (s.bind name b).scope = s.scope := by
  cases hscope : s.scope <;> simp [State.bind, hscope]

theorem globals_bind (s : State) (name : String) (b : Binding) :
    (s.bind name b).globals = if s.scope = .topLevel then (s.bind name b).own else s.globals := by
  cases hscope : s.scope <;> simp [State.bind, State.own, hscope]

theorem lookup_own_bind {s : State} {name' : String} {b : Binding} :
    (s.bind name b).own.lookup name' = if name' = name then some b else s.own.lookup name' := by
  rw [own_bind, Numeric.lookup_set]

theorem Ready.bind {s : State} {b : Binding} (h : Ready scope bound s)
    (hb : b.storage.Holds b.kind) : Ready scope (bound ++ [name]) (s.bind name b) := by
  have hown : ∀ name' b', (s.bind name b).own.lookup name' = some b' → b'.storage.Holds b'.kind := by
    intro name' b' hb'
    rw [lookup_own_bind] at hb'
    split at hb'
    · exact Option.some.inj hb' ▸ hb
    · exact h.own name' b' hb'
  refine ⟨(scope_bind s name b).trans h.scope, hown, fun name' b' hb' => ?_, fun name' hlast => ?_,
    fun name' => ?_⟩
  · rw [globals_bind] at hb'
    split at hb'
    · exact hown name' b' hb'
    · exact h.outer name' b' hb'
  · have hlast : s.lastBound = some name' := by
      cases hscope : s.scope <;> simpa [State.bind, hscope] using hlast
    exact List.mem_append_left _ (h.last name' hlast)
  · rw [lookup_own_bind, List.mem_append, List.mem_singleton, h.bound]
    by_cases hname : name' = name <;> simp [hname]

theorem builder_bind (s : State) (name : String) (b : Binding) :
    (s.bind name b).builder = s.builder := by
  cases hscope : s.scope <;> simp [State.bind, hscope]

theorem assembly_bind (s : State) (name : String) (b : Binding) :
    (s.bind name b).assembly = s.assembly := by
  cases hscope : s.scope <;> simp [State.bind, hscope]

theorem functions_bind (s : State) (name : String) (b : Binding) :
    (s.bind name b).functions = s.functions := by
  unfold State.bind
  cases s.scope <;> rfl

theorem lookup_globals_bind {s : State} {name' : String} {b' : Binding}
    (h : s.globals.lookup name' = some b') (name : String) (b : Binding) :
    ∃ b'', (s.bind name b).globals.lookup name' = some b'' := by
  rw [globals_bind]
  split
  case isFalse => exact ⟨b', h⟩
  case isTrue htop =>
    rw [lookup_own_bind, own_of_topLevel htop]
    split
    · exact ⟨b, rfl⟩
    · exact ⟨b', h⟩

theorem makes_bind {s s₁ : State} {b : Binding} {made : List (String × Binding)}
    (hadds : Adds s s₁)
    (hstored : (∀ name' b', s₁.globals.lookup name' = some b' → Dotless name') → ∀ name',
      stored ctx.naming s₁.assembly.globals name' = stored ctx.naming s.assembly.globals name' ∨
        stored ctx.naming s₁.assembly.globals name' =
          stored ctx.naming s.assembly.globals name' + 1 ∧
            name' = name ∧ s.scope = .topLevel ∧ s.own.lookup name = none)
    (hfrom : ∃ b₀, (s.own.lookup name = some b₀ ∨ (name, b₀) ∈ made) ∧
      b.storage = b₀.storage ∧ b.slot = b₀.slot)
    (hnew : ∀ v ∈ made, v.1 = name ∧ IsNew ctx s (s₁.bind name b) v)
    (hapart : made.Pairwise fun v w => v.2.slot ≠ w.2.slot) :
    Makes ctx [] s (s₁.bind name b) made where
  scope := (scope_bind s₁ name b).trans hadds.scope
  settled := fun _ => (functions_bind s₁ name b).trans hadds.functions
  globals := fun hscope => by
    rw [globals_bind, hadds.scope, if_neg (by simp [hscope]), hadds.globals]
  builder := by
    rw [builder_bind]
    exact hadds.builder
  cleanup := fun e he => hadds.cleanup e (by
    cases hscope : s₁.scope <;> simpa [State.bind, hscope] using he)
  functions := (functions_bind s₁ name b).trans hadds.functions
  own := fun name' b' hb' => by
    rw [lookup_own_bind] at hb'
    split at hb'
    case isTrue hname =>
      obtain rfl := Option.some.inj hb'
      exact hname ▸ hfrom
    case isFalse => exact ⟨b', .inl (hadds.own ▸ hb'), rfl, rfl⟩
  kept := fun name' b' hb' => by
    rw [lookup_own_bind, hadds.own]
    split
    · exact ⟨b, rfl⟩
    · exact ⟨b', hb'⟩
  new := fun v hv => (hnew v hv).2
  bound := fun v hv => ⟨b, by rw [lookup_own_bind, if_pos (hnew v hv).1]⟩
  apart := hapart
  stored := fun hdot name' => by
    rw [assembly_bind]
    have hdot₁ : ∀ name'' b'', s₁.globals.lookup name'' = some b'' → Dotless name'' := by
      intro name'' b'' hb''
      obtain ⟨b', hb'⟩ := lookup_globals_bind hb'' name b
      exact hdot name'' b' hb'
    rcases hstored hdot₁ name' with hsame | ⟨hmore, heq, htop, hnone⟩
    · exact .inl hsame
    · exact .inr ⟨hmore, htop, heq ▸ hnone, b, by rw [lookup_own_bind, if_pos heq]⟩

theorem IsSlot.isNew {s s₁ s₂ : State} {b : Binding}
    (h : IsSlot ctx s s₁ name b.slot
      (slotHome s.scope storage ctx.naming.isLibrary (name ∈ ctx.shared)))
    (hquiet : Quiet ctx s₁ s₂) (hnone : s.scope = .topLevel → s.own.lookup name = none) :
    IsNew ctx s (s₂.bind name b) (name, b) := by
  cases hhome : slotHome s.scope storage ctx.naming.isLibrary (name ∈ ctx.shared) with
  | stack =>
    rw [hhome] at h
    refine .inl ⟨_, h.1, Nat.le_refl _, ?_, fun htop => ?_⟩
    · rw [builder_bind]
      exact Nat.lt_of_lt_of_le h.2 hquiet.builder.next
    · -- What a function reads, and every variable of a library, is in a global.
      rw [htop] at hhome
      unfold slotHome at hhome
      dsimp only at hhome
      split at hhome
      case isTrue => cases hhome
      case isFalse hneither => simpa using hneither
  | moduleGlobal =>
    rw [hhome] at h
    have htop : s.scope = .topLevel := by
      cases hscope : s.scope with
      | topLevel => rfl
      | function => simp [slotHome, hscope] at hhome
    exact .inr ⟨htop, h, hnone htop⟩

theorem performs_create (hnew : scope = .topLevel ∨ D.mayRepeat = false → name ∉ bound)
    (hv : ∀ A, P A → A.Knows v) (hlends : ∀ A, P A → A.Lends name v) :
    Performs ctx scope D [] P bound [name] (create name v) := by
  intro s s' hrun hready
  unfold create createAs at hrun
  rw [run_read, run_get, run_read, run_get] at hrun
  obtain ⟨slot, s₁, hslot, hrun⟩ := run_bind hrun
  obtain ⟨kind, s₂, hfirst, hbind⟩ := run_bind hrun
  obtain rfl : s₂.bind name ⟨_, kind, slot⟩ = s' := congrArg Prod.snd (Except.ok.inj hbind)
  clear hrun hbind
  generalize hstorage : newStorage s.scope (decide (name ∈ ctx.observed)) v.kind = storage at *
  generalize (!s.loopEnds.isEmpty) = inLoop at *
  obtain ⟨hadds, hisSlot, hcount, henlarge₁⟩ := newSlot_spec hslot
  have hcomputes : Computes ctx s₁ AnyError [] (fun A => A.Serves ctx s ∧ P A ∧ A.own name storage slot)
      (storeFirst storage slot v inLoop) fun _ _ => True :=
    computes_storeFirst (hadds.scope ▸ hstorage.symm)
      (fun A hA => { hA.1 with
        scope := hA.1.scope.trans hadds.scope.symm
        notes := fun ht => hA.1.notes ⟨hadds.scope.symm.trans ht.1, ht.2⟩ })
      (fun A hA => hv A hA.2.1) (fun A hA => hlends A hA.2.1) fun A hA => hA.2.2
  obtain ⟨hquiet, henlarge₂⟩ := hcomputes.code (SameTables.refl _) hfirst
  have hholds : storage.Holds kind := storeFirst_holds hstorage.symm hfirst
  have hadds₂ := hadds.trans hquiet.toAdds
  have hnone : s.scope = .topLevel → s.own.lookup name = none := fun htop =>
    hready.none_of_notMem (hnew (.inl (hready.scope.symm.trans htop)))
  have hstored : (∀ name' b', s₂.globals.lookup name' = some b' → Dotless name') → ∀ name',
      stored ctx.naming s₂.assembly.globals name' = stored ctx.naming s.assembly.globals name' ∨
        stored ctx.naming s₂.assembly.globals name' =
          stored ctx.naming s.assembly.globals name' + 1 ∧
            name' = name ∧ s.scope = .topLevel ∧ s.own.lookup name = none := by
    intro hdot name'
    rw [hquiet.stored (by rw [← hquiet.globals]; exact hdot), hcount]
    split
    case isFalse => exact .inl rfl
    case isTrue hglobal =>
      have htop : s.scope = .topLevel := by
        cases hscope : s.scope with
        | topLevel => rfl
        | function => simp [hscope, slotHome] at hglobal
      exact .inr ⟨rfl, hglobal.2, htop, hnone htop⟩
  have hisNew : IsNew ctx s (s₂.bind name ⟨storage, kind, slot⟩) (name, ⟨storage, kind, slot⟩) :=
    hisSlot.isNew hquiet hnone
  refine ⟨[(name, ⟨storage, kind, slot⟩)],
    makes_bind hadds₂ hstored ⟨_, .inr (List.mem_singleton.mpr rfl), rfl, rfl⟩
      (by simpa using hisNew) (List.pairwise_singleton _ _),
    (hready.same hadds₂.toSameTables).bind hholds,
    fun hD => ⟨by simpa using hnew (.inr hD), List.pairwise_singleton _ _⟩, ?_⟩
  intro A hsuits hP hmade hcode hhosts
  rw [builder_bind] at hcode ⊢
  have hown : A.own name storage slot := hmade _ (List.mem_singleton.mpr rfl)
  obtain ⟨henlarges₁, hreserves⟩ :=
    henlarge₁ A (List.Subset.trans hquiet.builder.code hcode) hown hhosts
  obtain ⟨henlarges₂, -⟩ :=
    henlarge₂ A hcode ⟨hsuits.toServes, hP, hown⟩ (henlarges₁.hosts hhosts)
  exact ⟨henlarges₁.trans henlarges₂, by simpa using hreserves⟩

/-! ## Further assignments -/

theorem performsAt_rebind {s : State} {b : Binding} {kind : Kind} (hb : s.own.lookup name = some b)
    (hkind : b.storage.Holds kind) :
    PerformsAt ctx scope D [] P bound [] (modify (·.bind name { b with kind })) s := by
  intro s' hrun hready
  obtain rfl : s.bind name { b with kind } = s' := congrArg Prod.snd (Except.ok.inj hrun)
  have hready' : Ready scope (bound ++ [name]) (s.bind name { b with kind }) := hready.bind hkind
  have hname : name ∈ bound := (hready.bound name).mpr ⟨b, hb⟩
  refine ⟨[], makes_bind (Adds.refl s) (fun _ _ => .inl rfl) ⟨b, .inl hb, rfl, rfl⟩ (by simp) .nil,
    ?_, fun _ => singly_nil, ?_⟩
  · have hsame : ∀ name', name' ∈ bound ++ [name] ↔ name' ∈ bound ++ [] := by
      intro name'
      simp only [List.mem_append, List.mem_singleton, List.append_nil]
      exact or_iff_left_of_imp fun heq => heq ▸ hname
    exact { hready' with
      last := fun name' hlast => (hsame name').mp (hready'.last name' hlast)
      bound := fun name' => (hsame name').symm.trans (hready'.bound name') }
  · intro A _ _ _ _ _
    rw [builder_bind]
    exact ⟨.refl _, by simp⟩

theorem isTracked_of_update {existing incoming : Kind}
    (h : update storage existing incoming = .ok .updateBox) : storage.isTracked = true := by
  unfold update at h
  cases storage with
  | stackBox | heapBox | borrowed => rfl
  | fastSlot => cases hn : incoming.isNumeric <;> simp [hn] at h
  | handle => cases ha : existing.accepts incoming <;> simp [ha] at h
  | packedSlot => simp at h

theorem performsAt_change {s : State} {b : Binding} (hb : s.own.lookup name = some b)
    (hv : ∀ A, P A → A.Knows v) : PerformsAt ctx scope D [] P bound [] (change name b v) s := by
  have hown : ∀ A : Access, A.Suits ctx D s ∧ P A → A.own name b.storage b.slot :=
    fun A hA => hA.1.own name b hb
  have hstore : b.storage.isTracked = false → ∀ {P' : Access → Prop} value,
      (∀ A, P' A → (A.Suits ctx D s ∧ P A) ∧ ¬ A.Confined value) →
      Computes ctx s AnyError [] P' (Emit.store value b.slot) fun _ _ => True := fun hplain _ value hP' =>
    (writes_store fun A hA _ => .storePlain (hown A (hP' A hA).1) hplain (hP' A hA).2).lifted
  unfold change changeBy
  refine PerformsAt.lift_bind fun u hu => ?_
  have hsuits := Stage.suits_of_update hu
  cases u with
  | storeScalar =>
    have hstorage : b.storage = .fastSlot := hsuits
    refine PerformsAt.of_computes (L := []) fun _ => ?_
    exact (writes_toScalar fun A hA => hv A hA.2).lifted.bind fun scalar =>
      hstore (by rw [hstorage]; rfl) scalar fun _ hA => hA
  | updateBox =>
    have htracked := isTracked_of_update hu
    refine PerformsAt.of_computes (L := []) fun _ => ?_
    refine (writes_toScalar fun A hA => hv A hA.2).lifted.bind fun scalar => ?_
    refine (writes_load fun A dst hA _ => ?_).lifted.bind fun record => ?_
    · rw [← slotType_of_isTracked htracked]
      exact .load (.own (hown A hA.1)) dst
    · exact (writes_callVoid fun A hA _ =>
        .update (hown A hA.1.1) htracked (hA.2.2.1 rfl) hA.1.2).lifted
  | rebind =>
    have hstorage : b.storage = .handle := hsuits
    dsimp only
    refine Computes.performs_bind (L := []) (Q := fun A w => ¬ A.Confined w.value) (fun hready => ?_)
      fun coerced s₁ h₁ => ?_
    · have hholds : StorageClass.handle.Holds b.kind := hstorage ▸ hready.own name b hb
      have hkind : reboundKind b.kind v.kind ≠ .tracked := (Stage.handle_holds_rebound hholds).2
      exact (Computes.perform (fun e he => writes_coerce hkind (fun A hA => hv A hA.2) he)
        fun _ _ => Or.inr trivial).mono (fun _ hA => hA) fun _ _ _ hQ => hQ.2.loose
    · refine Computes.performs_bind (L := []) (Q := fun _ _ => True) (fun _ => ?_) fun _ s₂ h₂ => ?_
      · refine (writes_store fun A hA _ => ?_).lifted
        exact .storePlain (hA.1.own name b (h₁.own ▸ hb)) (by rw [hstorage]; rfl) hA.2.2
      · have hb₂ : s₂.own.lookup name = some b := by rw [(h₁.trans h₂).own]; exact hb
        intro s' hrun hready
        have hholds : StorageClass.handle.Holds b.kind := hstorage ▸ hready.own name b hb₂
        refine performsAt_rebind hb₂ ?_ s' hrun hready
        rw [hstorage]
        exact Stage.handle_holds_rebound hholds
  | storePacked =>
    have hstorage : b.storage = .packedSlot := hsuits
    refine PerformsAt.of_computes (L := []) fun _ => ?_
    refine (writes_byValue fun A hA => hv A hA.2).lifted.bind fun w => ?_
    refine (writes_pack fun A hA => hA.2).lifted.bind fun word => ?_
    exact hstore (by rw [hstorage]; rfl) word fun A hA =>
      ⟨hA.1.1, not_confined_of_ty (by rw [hA.2]; decide)⟩

/-! ## Exports -/

theorem computes_defineExport {symbol : String} (h : (∀ name b, T.globals.lookup name = some b →
      Dotless name) → ∀ name, symbol ≠ ctx.naming.globalSymbol name) :
    Computes ctx T (Excusing F) [] P (defineExport symbol) fun _ _ => True := by
  unfold defineExport
  refine Computes.get_bind fun s _ => ?_
  dsimp only
  split
  case isFalse => exact Computes.pure fun _ _ => trivial
  case isTrue =>
    split
    case isTrue => exact Computes.diagnose_bind rfl
    case isFalse =>
      exact Computes.read_bind (computes_addGlobal rfl fun hdot => .inr (.inr (h hdot)))

theorem computes_publish {s : State} {B : List String}
    (hready : ∀ A, P A → Ready .topLevel B s) :
    Computes ctx s (Excusing F) [] (fun A => A.Suits ctx D s ∧ P A) (publish name) fun _ _ => True := by
  unfold publish
  refine Computes.read_bind (Computes.get_bind fun s₁ hs₁ => ?_)
  rw [hs₁.globals]
  split
  case h_2 => exact Computes.pure fun _ _ => trivial
  case h_1 symbol b hsymbol hb =>
    have hown (A : Access) (hP : P A) : s.own.lookup name = some b := by
      rw [own_of_topLevel (hready A hP).scope]
      exact hb
    refine (computes_defineExport fun hdot => exportSymbol_ne_globalSymbol (hdot name b hb)
      hsymbol).seq fun _ => ?_
    refine (writes_load_binding (fun A hA => .own (hA.1.own name b (hown A hA.2)))
      (fun A hA => hA.1.toServes) fun A hA => (hready A hA.2).own name b (hown A hA.2)).lifted.bind
      fun current => ?_
    refine (writes_byValue fun A hA => ?_).lifted.bind fun w => ?_
    · obtain ⟨⟨hsuits, hP⟩, hrecord, hword, hloose⟩ := hA
      exact ⟨fun ht => ⟨_, _, .own (hsuits.own name b (hown A hP)), hrecord ht⟩, hword, hloose⟩
    refine (writes_pack fun A hA => hA.2).lifted.seq fun word => ?_
    refine (writes_store fun A hA above => ?_).lifted
    obtain ⟨⟨⟨hsuits, hP⟩, -⟩, -⟩ := hA
    have htop : A.scope = .topLevel := hsuits.scope.trans (hready A hP).scope
    refine .storeTop word htop (.inl (hsuits.publishes _)) fun hnames name' storage hslot => ?_
    exact exportSymbol_ne_globalSymbol (hnames name _ _ (hsuits.own name b (hown A hP))) hsymbol name'
      (hsuits.symbols name' storage _ hslot)

/-! ## Assignments -/

theorem performs_note (hname : name ∈ bound) :
    Performs ctx scope D [] P bound [] (modify fun s => { s with lastBound := some name }) := by
  intro s s' hrun hready
  obtain rfl : { s with lastBound := some name } = s' := congrArg Prod.snd (Except.ok.inj hrun)
  refine ⟨[], ?_, ?_, fun _ => singly_nil, fun A _ _ _ _ _ => ⟨.refl _, by simp⟩⟩
  · exact { (Quiet.refl ctx s).makes with }
  · rw [List.append_nil]
    exact { hready with last := fun name' hlast => Option.some.inj hlast ▸ hname }

theorem performs_assign (hv : ∀ A, P A → A.Knows v)
    (hlends : name ∉ bound → ∀ A, P A → A.Lends name v) :
    Performs ctx scope D [] P bound [name] (assign name v) := by
  intro s
  rw [assign_eq]
  refine PerformsAt.get_bind (PerformsAt.ready fun hready => ?_)
  have hnote : Performs ctx scope D [] P (bound ++ [name]) []
      (modify fun s => { s with lastBound := some name }) := performs_note (by simp)
  have hrest : Performs ctx scope D [] P (bound ++ [name]) [] (do
      if s.scope = .topLevel then publish name
      modify fun s => { s with lastBound := some name }) := by
    intro s₁
    dsimp only
    split
    case isFalse => exact hnote s₁
    case isTrue htop =>
      obtain rfl : scope = .topLevel := hready.scope.symm.trans htop
      exact (PerformsAt.of_computes fun hready₁ => computes_publish fun _ _ => hready₁).seq
        (by simpa using hnote)
  dsimp only at hrest ⊢
  split
  case h_1 hnone =>
    have hname : name ∉ bound := fun hmem => by
      obtain ⟨b, hb⟩ := (hready.bound name).mp hmem
      simp [hnone] at hb
    exact (performs_create (fun _ => hname) hv (hlends hname) s).seq hrest
  case h_2 b hb =>
    have hname : name ∈ bound := (hready.bound name).mpr ⟨b, hb⟩
    refine ((performsAt_change hb hv).renamed fun name' => ?_).seq hrest
    simp only [List.append_nil, List.mem_append, List.mem_singleton]
    exact (or_iff_left_of_imp fun heq => heq ▸ hname).symm

end

end ScriptCompiler.Lowering.Access
