import ScriptCompiler.Proofs.Stage.Blocks

/-!
# Assignments in stages

An assignment stays in its block, except for the first one to a boxed variable inside a loop: that
one branches on whether the record exists, and the two branches are the only blocks that read
registers of the block before them.
-/

namespace ScriptCompiler.Lowering

open Ir

/-- The storage class of a variable whose record lives there. -/
def BoxHome.storage : BoxHome → StorageClass
  | .stack => .stackBox
  | .heap => .heapBox

namespace Stage

section

variable {ctx : Context} {P : Lexicon} {g g' : Stage}

theorem emit_bind {α β : Type} (e : Emit α) (f : α → Emit β) :
    emit (e >>= f) = emit e >>= fun a => emit (f a) :=
  rfl

theorem initBox_heap {slot : Value} {v : Typed} (h : v.kind = .scalar ∨ v.kind = .packed) :
    initBox slot v .heap = (do
      let scalar ← emit (toScalar v)
      let record ← Lowering.allocate Catalog.boxCreate [scalar] Catalog.boxDestroy
      emit (Emit.store record slot)) := by
  have htracked : toTracked v .heap = .ok (newBox v .heap) := by
    unfold toTracked
    rcases h with h | h <;> rw [h]
  have hnew : newBox v .heap = toScalar v >>= fun scalar =>
      Emit.call .ptr Catalog.boxCreate [scalar] >>= fun record => pure (.tracked record) := rfl
  unfold initBox Lowering.allocate
  rw [htracked]
  simp only [if_true, bind_assoc, pure_bind]
  show emit (newBox v .heap) >>= _ = _
  rw [hnew, emit_bind, bind_assoc]
  refine congrArg _ (funext fun scalar => ?_)
  rw [emit_bind, bind_assoc]
  rfl

theorem lowers_initBox {slot : Value} {v : Typed} {home : BoxHome} (hv : g.Holds P v)
    (hkind : v.kind = .scalar ∨ v.kind = .packed) (hslot : g.Cell ctx P slot .ptr)
    (hcosts : P.Costs) : Lowers ctx P g (initBox slot v home) fun _ _ => True := by
  cases home with
  | heap =>
    rw [initBox_heap hkind]
    refine (emits_toScalar hv).lowers.bind fun g1 scalar hm1 hscalar => ?_
    refine (lowers_allocate ⟨Catalog.boxCreate, .ptr, [.double]⟩ (by decide) (by decide)
      (.cons hscalar .nil) hcosts).bind fun g2 record hm2 hrecord => ?_
    refine (emits_store hrecord.1 (.inl ?_)).lowers
    rw [hrecord.2]
    exact ⟨rfl, hm2.cell (hm1.cell hslot)⟩
  | stack =>
    have htracked : toTracked v .stack = .ok (newBox v .stack) := by
      unfold toTracked
      rcases hkind with h | h <;> rw [h]
    unfold initBox
    rw [htracked]
    refine (emits_newBox_stack hv hcosts).lowers.bind fun g1 record hm1 hrecord => ?_
    have hptr : g1.HasType record.value .ptr := hrecord.1.hasType hrecord.2 id
    refine (emits_store hptr.1 (.inl ?_)).lowers
    rw [hptr.2]
    exact ⟨rfl, hm1.cell hslot⟩

theorem runs_initBoxOnce {slot : Value} {v : Typed} {home : BoxHome} (hready : g.Ready ctx)
    (hv : g.Holds P v) (hkind : v.kind = .scalar ∨ v.kind = .packed)
    (hslot : g.Cell ctx P slot .ptr) (hcosts : P.Costs) :
    Runs ctx P g (initBoxOnce slot v home) fun g' _ => Keeps g g' := by
  refine Leads.sound fun hg => ?_
  unfold initBoxOnce
  refine runs_threeLabels fun hopens1 hlive1 hsees1 => ?_
  refine Lowers.runs_bind (emits_load (.inl (.inl ⟨rfl, hsees1.cell _ _ hslot⟩))).lifted
    fun g2 current hm2 hcurrent => ?_
  refine Lowers.runs_bind (emits_icmp hcurrent (hasType_null g2) (.inr rfl)).lifted
    fun g3 isNull hm3 hnull => ?_
  have hsees3 : Sees ctx P g g3 := (hsees1.trans hm2.sees).trans hm3.sees
  have hfirst : ∀ g4, Steps ctx P g3 g4 → Sees ctx P g3 g4 → g4.Ready ctx →
      Runs ctx P g4 (initBox slot v home) fun g5 _ => Keeps g4 g5 ∧ Any g4 g5 :=
    fun g4 _ hsees _ => ((lowers_initBox (hsees.holds (hsees3.holds hv)) hkind
      (hsees.cell _ _ (hsees3.cell _ _ hslot)) hcosts).mono fun _ _ hm _ => ⟨hm.keeps, trivial⟩).steps
  have hsecond : ∀ g4, Steps ctx P g3 g4 → Sees ctx P g3 g4 → g4.Ready ctx → Runs ctx P g4 (do
      let scalar ← toScalar v
      Emit.callVoid Catalog.boxUpdate [current, scalar]) fun g5 _ => Keeps g4 g5 ∧ Any g4 g5 := by
    intro g4 _ hsees _
    refine (Lowers.mono (Q := fun _ _ => True) ((emits_toScalar
      (hsees.holds (hsees3.holds hv))).lifted.bind fun g5 scalar hm5 hscalar => ?_)
        fun _ _ hm _ => ⟨hm.keeps, trivial⟩).steps
    have hrecord : g5.HasType current .ptr := (hsees.hasType (hcurrent.mono hm3)).mono hm5
    exact (emits_cataloguedVoid ⟨Catalog.boxUpdate, .void, [.ptr, .double]⟩ (by decide)
      (by decide) rfl (.cons hrecord (.cons hscalar .nil))).lifted
  have hjoin : g3.live (g.newLabel "box_join" 2) = [] := by
    rw [hm3.live, hm2.live]
    exact hlive1 _ (by simp)
  have hdiamond := runs_diamond (liftM (Emit.br (g.newLabel "box_join" 2))) hg hready
    ((hopens1.keeps hm2.keeps).keeps hm3.keeps) (hm3.done.trans hm2.done) hjoin hnull
    (fun _ _ => rfl) hfirst hsecond
  simpa only [bind_assoc] using hdiamond.mono fun _ _ _ h => h.1

theorem lowers_newSlot {name : String} {storage : StorageClass} {home : SlotHome} {inLoop : Bool}
    (hname : home = .moduleGlobal → g.state.scope = .topLevel ∧ P name ∧ P.assigned name) :
    Lowers ctx P g (newSlot name storage home inLoop) fun g' slot =>
      g'.Cell ctx P slot storage.slotType := by
  unfold newSlot
  cases home with
  | stack =>
    dsimp only
    split
    case isTrue h =>
      have hptr : storage.slotType = .ptr := by
        cases storage <;> simp_all [StorageClass.isTracked, StorageClass.slotType]
      rw [hptr]
      exact emits_allocaWith_null.lifted
    case isFalse =>
      exact (emits_alloca _ fun h => by cases storage <;> simp [StorageClass.slotType] at h).lifted
  | moduleGlobal =>
    obtain ⟨htop, hname, hassigned⟩ := hname rfl
    refine Leads.read_bind ?_
    have hmove : Move ctx P g _ :=
      .storage name hname storage (initialValue storage) htop hassigned
    exact hmove.lowers rfl
      ⟨rfl, .own name rfl ⟨_, List.mem_append_right _ List.mem_cons_self, rfl, rfl⟩⟩

/-- The first value of a variable is stored, and the kind that is read back suits the storage. -/
theorem runs_storeFirst {scope : Scope} {observed inLoop : Bool} {slot : Value} {v : Typed}
    (hready : g.Ready ctx) (hv : g.Holds P v) (hobserved : observed = true → P.Costs)
    (hslot : g.Cell ctx P slot (newStorage scope observed v.kind).slotType) :
    Runs ctx P g (storeFirst (newStorage scope observed v.kind) slot v inLoop) fun g' kind =>
      Keeps g g' ∧ (newStorage scope observed v.kind).Holds kind ∧ (kind = .text → P.Costs) := by
  -- What stays in the block is stored there.
  have hstays : ∀ {storage : StorageClass},
      Lowers ctx P g (storeFirst storage slot v inLoop)
        (fun _ kind => storage.Holds kind ∧ (kind = .text → P.Costs)) →
      Runs ctx P g (storeFirst storage slot v inLoop) fun g' kind =>
        Keeps g g' ∧ storage.Holds kind ∧ (kind = .text → P.Costs) :=
    fun h => (h.mono fun _ _ hm hr => ⟨hm.keeps, hr⟩).steps
  -- A boxed record, wherever it lives.
  have hbox : ∀ home : BoxHome, v.kind = .scalar ∨ v.kind = .packed → g.Cell ctx P slot .ptr →
      P.Costs → Runs ctx P g (storeFirst home.storage slot v inLoop) fun g' kind =>
        Keeps g g' ∧ home.storage.Holds kind ∧ (kind = .text → P.Costs) := by
    intro home hkind hcell hcosts
    have hholds : home.storage.Holds .tracked := by cases home <;> rfl
    have hunfold : storeFirst home.storage slot v inLoop =
        storeFirst.box slot v inLoop home := by cases home <;> rfl
    cases inLoop with
    | true =>
      rw [hunfold]
      exact Leads.bind (runs_initBoxOnce hready hv hkind hcell hcosts) fun _ _ _ h =>
        Leads.pure ⟨h, hholds, nofun⟩
    | false =>
      refine hstays ?_
      rw [hunfold]
      exact (lowers_initBox hv hkind hcell hcosts).bind fun _ _ _ _ => Leads.pure ⟨hholds, nofun⟩
  -- An address is stored as it is.
  have haddress : ∀ kind : Kind, v.value.ty = .ptr → g.Cell ctx P slot .ptr →
      Lowers ctx P g (do Emit.store v.value slot; return kind) fun _ k => k = kind :=
    fun kind hty hcell =>
      (emits_store hv.1 (.inl ⟨hty ▸ rfl, hty ▸ hcell⟩)).lifted.bind fun _ _ _ _ => Leads.pure rfl
  obtain ⟨value, kind⟩ := v
  cases kind with
  | scalar =>
    cases observed with
    | false =>
      refine hstays ((emits_toScalar hv).lifted.bind fun g1 scalar hm1 hscalar => ?_)
      have hplace : g1.Place ctx P slot scalar.ty := .inl (hscalar.2 ▸ ⟨rfl, hm1.cell hslot⟩)
      exact (emits_store hscalar.1 hplace).lifted.bind fun _ _ _ _ => Leads.pure ⟨rfl, nofun⟩
    | true =>
      cases scope with
      | topLevel => exact hbox .heap (.inl rfl) hslot (hobserved rfl)
      | function => exact hbox .stack (.inl rfl) hslot (hobserved rfl)
  | packed =>
    cases observed with
    | false =>
      refine hstays ((emits_pack hv).lifted.bind fun g1 word hm1 hword => ?_)
      have hplace : g1.Place ctx P slot word.ty := .inl (hword.2 ▸ ⟨rfl, hm1.cell hslot⟩)
      exact (emits_store hword.1 hplace).lifted.bind fun _ _ _ _ => Leads.pure ⟨rfl, nofun⟩
    | true =>
      cases scope with
      | topLevel => exact hbox .heap (.inr rfl) hslot (hobserved rfl)
      | function => exact hbox .stack (.inr rfl) hslot (hobserved rfl)
  | tracked =>
    exact hstays ((haddress .tracked hv.2 hslot).mono fun _ _ _ h => ⟨h, by simp [h]⟩)
  | list =>
    exact hstays ((haddress .list hv.2 hslot).mono fun _ _ _ h => ⟨⟨h ▸ rfl, by simp [h]⟩, by simp [h]⟩)
  | text =>
    exact hstays ((haddress .text hv.2 hslot).mono fun _ _ _ h =>
      ⟨⟨h ▸ rfl, by simp [h]⟩, fun _ => hv.costs rfl⟩)
  | struct name =>
    exact hstays ((haddress (.struct name) hv.2 hslot).mono fun _ _ _ h =>
      ⟨⟨h ▸ rfl, by simp [h]⟩, by simp [h]⟩)

theorem lowers_bind {name : String} {b : Binding} (h : g.Binds ctx P b) :
    Lowers ctx P g (modify (·.bind name b)) fun _ _ => True :=
  (Move.bind name b h).lowers rfl trivial

theorem runs_create {name : String} {v : Typed}
    (hname : g.state.scope = .topLevel → P name ∧ P.assigned name)
    (hobserved : name ∈ ctx.observed → P.Costs) (hready : g.Ready ctx) (hv : g.Holds P v) :
    Runs ctx P g (create name v) fun g' _ => Keeps g g' := by
  unfold create createAs
  refine Leads.read_bind (Leads.get_bind (Leads.read_bind (Leads.get_bind ?_)))
  dsimp only
  have hhome : ∀ {storage library shared},
      slotHome g.state.scope storage library shared = .moduleGlobal →
        g.state.scope = .topLevel ∧ P name ∧ P.assigned name := by
    intro storage library shared h
    cases hscope : g.state.scope with
    | topLevel => exact ⟨rfl, hname hscope⟩
    | function => simp [slotHome, hscope] at h
  refine Lowers.runs_bind (lowers_newSlot hhome) fun g1 slot hm1 hslot => ?_
  refine Leads.bind (runs_storeFirst (hready.keeps hm1.keeps) (hm1.holds hv)
    (fun h => hobserved (of_decide_eq_true h)) hslot) fun g2 kind hs2 h2 => ?_
  have hbinds : g2.Binds ctx P ⟨_, kind, slot⟩ := ⟨h2.2.1, Steps.cell hs2 hslot, h2.2.2⟩
  exact ((lowers_bind hbinds).mono fun g3 _ hm3 _ => (hm1.keeps.keeps h2.1).keeps hm3.keeps).steps

/-- The storage classes that an update is for. -/
def Suits (storage : StorageClass) : Update → Prop
  | .storeScalar => storage = .fastSlot
  | .updateBox => storage.slotType = .ptr
  | .rebind => storage = .handle
  | .storePacked => storage = .packedSlot

theorem suits_of_update {storage : StorageClass} {existing incoming : Kind} {u : Update}
    (h : update storage existing incoming = .ok u) : Suits storage u := by
  unfold update at h
  cases storage with
  | fastSlot =>
    cases hn : incoming.isNumeric <;> simp only [hn] at h <;> cases h
    rfl
  | stackBox | heapBox | borrowed =>
    cases hn : incoming.isNumeric <;> simp only [hn] at h <;> cases h
    rfl
  | handle =>
    cases hn : existing.accepts incoming <;> simp only [hn] at h <;> cases h
    rfl
  | packedSlot =>
    cases h
    rfl

theorem handle_holds_rebound {existing incoming : Kind}
    (h : StorageClass.handle.Holds existing) :
    StorageClass.handle.Holds (reboundKind existing incoming) := by
  unfold reboundKind
  split
  · exact ⟨rfl, by simp⟩
  · exact h

theorem kind_of_rebound_text {existing incoming : Kind}
    (h : reboundKind existing incoming = .text) : existing = .text := by
  unfold reboundKind at h
  split at h
  · cases h
  · exact h

theorem eq_ptr_of_fits {kind : Kind} {ty : Ty} (h : kind.Fits .ptr) (hty : kind.Fits ty) :
    ty = .ptr := by
  cases kind with
  | scalar => simp [Kind.Fits] at h
  | packed => simp [Kind.Fits] at h
  | tracked => exact hty
  | list => exact hty
  | text => exact hty
  | struct name => exact hty

theorem update_error {storage : StorageClass} {existing incoming : Kind} {e : Error}
    (h : update storage existing incoming = .error e) :
    e = .invalidConversion incoming.title existing.title := by
  unfold update at h
  dsimp only at h
  split at h <;> cases h
  rfl

theorem lowers_change {name : String} {b : Binding} {v : Typed} (hb : g.Binds ctx P b)
    (hv : g.Holds P v) :
    Lowers ctx P g (change name b v) fun _ _ => True := by
  cases hupdate : update b.storage b.kind v.kind with
  | error e =>
    refine Leads.fail (e := e) ?_ (update_error hupdate ▸ .conversion _ _)
    unfold change
    rw [hupdate]
    rfl
  | ok u => ?_
  unfold change
  refine Leads.lift_bind (fun u' hu' => ?_) fun e he => nomatch hupdate.symm.trans he
  obtain rfl : u = u' := Except.ok.inj (hupdate.symm.trans hu')
  have hu := suits_of_update hupdate
  obtain ⟨hholds, hcell, hcosts⟩ := hb
  cases u with
  | storeScalar =>
    have hstorage : b.storage = .fastSlot := hu
    rw [hstorage] at hcell
    refine (emits_toScalar hv).lifted.bind fun g1 scalar hm1 hscalar => ?_
    exact (emits_store hscalar.1 (.inl (hscalar.2 ▸ ⟨rfl, hm1.cell hcell⟩))).lifted
  | updateBox =>
    have hptr : b.storage.slotType = .ptr := hu
    rw [hptr] at hcell
    refine (emits_toScalar hv).lifted.bind fun g1 scalar hm1 hscalar => ?_
    refine (emits_load (.inl (.inl ⟨rfl, hm1.cell hcell⟩))).lifted.bind fun g2 record hm2 hrecord => ?_
    exact (emits_cataloguedVoid ⟨Catalog.boxUpdate, .void, [.ptr, .double]⟩ (by decide) (by decide)
      rfl (.cons hrecord (.cons (hscalar.mono hm2) .nil))).lifted
  | rebind =>
    have hstorage : b.storage = .handle := hu
    rw [hstorage] at hholds hcell
    have hkind : StorageClass.handle.Holds (reboundKind b.kind v.kind) :=
      handle_holds_rebound hholds
    refine (lowers_coerce hv).bind fun g1 w hm1 hw => ?_
    have hptr : g1.HasType w.value .ptr := ⟨hw.has, eq_ptr_of_fits hkind.1 hw.fits⟩
    have hplace : g1.Place ctx P b.slot w.value.ty := .inl (hptr.2 ▸ ⟨rfl, hm1.cell hcell⟩)
    refine (emits_store hptr.1 hplace).lifted.bind fun g2 _ hm2 _ => ?_
    refine lowers_bind ⟨?_, ?_, fun htext => ?_⟩
    · rw [hstorage]
      exact hkind
    · rw [hstorage]
      exact hm2.cell (hm1.cell hcell)
    · exact hcosts (kind_of_rebound_text htext)
  | storePacked =>
    have hstorage : b.storage = .packedSlot := hu
    rw [hstorage] at hcell
    refine (emits_byValue hv).lifted.bind fun g1 w hm1 hw => ?_
    refine (emits_pack hw).lifted.bind fun g2 word hm2 hword => ?_
    have hcell2 := hm2.cell (hm1.cell hcell)
    exact (emits_store hword.1 (.inl (hword.2 ▸ ⟨rfl, hcell2⟩))).lifted

theorem lowers_defineExport {name symbol : String} (hname : P name) (hassigned : P.assigned name)
    (htop : g.state.scope = .topLevel) (h : ctx.naming.exportSymbol? name = some symbol) :
    Lowers ctx P g (defineExport symbol) fun g' _ => g'.Cell ctx P (.global symbol) .i64 := by
  unfold defineExport
  refine Leads.sound fun hg => Leads.get_bind ?_
  split
  case isTrue =>
    split
    case isTrue => exact Lowers.bind (Leads.throw rfl) fun _ _ _ (h : False) => h.elim
    case isFalse hfree =>
      refine Leads.read_bind ?_
      simp only [Bool.or_eq_true, not_or, Bool.not_eq_true] at hfree
      have hmove : Move ctx P g _ :=
        .exported name symbol hname h hfree.1 htop hassigned (hg.unnoted hfree.2)
      refine hmove.lowers rfl ⟨rfl, .exported name hname h ?_⟩
      exact List.mem_map.mpr ⟨_, List.mem_append_right _ List.mem_cons_self, rfl⟩
  case isFalse hsome =>
    refine Leads.pure ⟨rfl, .exported name hname h ?_⟩
    obtain ⟨d, hd⟩ := Option.isSome_iff_exists.mp (by simpa [Option.isSome_iff_ne_none] using hsome)
    exact List.mem_map.mpr ⟨d, List.mem_of_find?_eq_some hd, by simpa using List.find?_some hd⟩

theorem lowers_publish {name : String} (hname : P name) (hassigned : P.assigned name)
    (htop : g.state.scope = .topLevel) : Lowers ctx P g (publish name) fun _ _ => True := by
  refine Leads.sound fun hg => ?_
  unfold publish
  refine Leads.read_bind (Leads.get_bind ?_)
  split
  case h_2 => exact Leads.pure trivial
  case h_1 symbol b hsymbol hb =>
    have hbinds : g.Binds ctx P b := hg.globals _ (mem_of_lookup hb) (.inr htop)
    refine (lowers_defineExport hname hassigned htop hsymbol).bind fun g1 _ hm1 hcell => ?_
    refine (emits_loadBinding (hm1.binds hbinds)).lifted.bind fun g2 current hm2 hcurrent => ?_
    refine (emits_byValue hcurrent.1).lifted.bind fun g3 w hm3 hw => ?_
    refine (emits_pack hw).lifted.bind fun g4 word hm4 hword => ?_
    have hcell4 := hm4.cell (hm3.cell (hm2.cell hcell))
    exact (emits_store hword.1 (.inl (hword.2 ▸ ⟨rfl, hcell4⟩))).lifted

/-- The steps of an assignment after the variable has its value. -/
def afterAssign (scope : Scope) (name : String) : Lower Unit := do
  if scope = .topLevel then publish name
  modify fun s => { s with lastBound := some name }

theorem lowers_afterAssign {name : String} {scope : Scope} (hname : P name)
    (hassigned : P.assigned name) (hscope : g.state.scope = scope) :
    Lowers ctx P g (afterAssign scope name) fun _ _ => True := by
  have hlast : ∀ g1, Lowers ctx P g1 (modify fun s => { s with lastBound := some name })
      fun _ _ => True := by
    intro g1
    have hmove : Move ctx P g1 { g1 with state := { g1.state with lastBound := some name } } :=
      .note _ { SameCode.refl ctx P _ with }
    exact hmove.lowers rfl trivial
  unfold afterAssign
  split
  case isTrue htop =>
    exact (lowers_publish hname hassigned (hscope.trans htop)).bind fun g1 _ _ _ => hlast g1
  case isFalse => exact hlast g

theorem runs_assign {name : String} {v : Typed} (hname : P name) (hassigned : P.assigned name)
    (hobserved : name ∈ ctx.observed → P.Costs) (hready : g.Ready ctx) (hv : g.Holds P v) :
    Runs ctx P g (assign name v) fun g' _ => Keeps g g' := by
  refine Leads.sound fun hg => ?_
  rw [assign_eq]
  refine Leads.get_bind ?_
  have hrest : ∀ g1, Keeps g g1 →
      Runs ctx P g1 (afterAssign g.state.scope name) fun g' _ => Keeps g g' := fun g1 hkeeps =>
    ((lowers_afterAssign hname hassigned hkeeps.mode).mono fun _ _ hm _ =>
      hkeeps.keeps hm.keeps).steps
  dsimp only
  split
  case h_1 hb =>
    exact Leads.bind (runs_create (fun _ => ⟨hname, hassigned⟩) hobserved hready hv)
      fun g1 _ _ h => hrest g1 h
  case h_2 b hb =>
    have hbinds : g.Binds ctx P b := by
      cases hscope : g.state.scope with
      | topLevel =>
        exact hg.globals _ (mem_of_lookup (by simpa [State.own, hscope] using hb)) (.inr hscope)
      | function =>
        exact hg.locals _ (mem_of_lookup (by simpa [State.own, hscope] using hb)) hscope
    exact Lowers.runs_bind (lowers_change hbinds hv) fun g1 _ hm1 _ => hrest g1 hm1.keeps

theorem lowers_assignElement {target index value : Lower Typed} (ht : Evaluates ctx P target)
    (hi : Evaluates ctx P index) (hv : Evaluates ctx P value) :
    Lowers ctx P g (assignElement target index value) fun _ _ => True := by
  unfold assignElement
  refine (ht g).bind fun g1 target _ htarget => ?_
  have hrest : ∀ g2 (list : Typed), g2.HasType list.value .ptr → Lowers ctx P g2 (do
      let position ← toPosition (← index)
      let scalar ← toScalar (← value)
      Emit.callVoid Catalog.listSet [list.value, position, scalar]) fun _ _ => True := by
    intro g2 list hlist
    refine (hi g2).bind fun g3 i hm3 hindex => ?_
    refine (emits_toPosition hindex).lifted.bind fun g4 position hm4 hposition => ?_
    refine (hv g4).bind fun g5 v hm5 hvalue => ?_
    refine (emits_toScalar hvalue).lifted.bind fun g6 scalar hm6 hscalar => ?_
    have hlist6 := (((hlist.mono hm3).mono hm4).mono hm5).mono hm6
    exact (emits_cataloguedVoid ⟨Catalog.listSet, .void, [.ptr, .i64, .double]⟩ (by decide)
      (by decide) rfl (.cons hlist6 (.cons ((hposition.mono hm5).mono hm6)
        (.cons hscalar .nil)))).lifted
  have hlist : target.kind = .list ∨ target.kind = .packed →
      Lowers ctx P g1 (perform (coerce target .list)) fun g2 w => g2.HasType w.value .ptr :=
    fun hkind => (lowers_coerce htarget).mono fun _ _ _ hw =>
      ⟨hw.has, hw.fits⟩
  dsimp only
  split
  case h_1 hkind => exact (hlist (.inl hkind)).bind fun g2 list _ h => hrest g2 list h
  case h_2 hkind => exact (hlist (.inr hkind)).bind fun g2 list _ h => hrest g2 list h
  case h_3 => exact Lowers.bind Leads.refuse fun _ _ _ (h : False) => h.elim

end

end Stage

end ScriptCompiler.Lowering
