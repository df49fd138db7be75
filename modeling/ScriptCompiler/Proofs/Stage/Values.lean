import ScriptCompiler.Proofs.Stage.Run

/-!
# Values in stages

What each operation of the builder gives, and from it what the conversions between kinds give: a
number is a double, a word is an `i64`, a truth value is an `i1`, and a value at a kind has a type
that fits the kind.
-/

namespace ScriptCompiler.Lowering

open Ir

namespace Stage

variable {g : Stage} {v : Typed}

/-- A value that the next instruction may read, of the given type. -/
def HasType (g : Stage) (v : Value) (ty : Ty) : Prop := g.Has v ∧ v.ty = ty

theorem HasType.mono {g' : Stage} {v : Value} {ty : Ty} (h : g.HasType v ty) (hg : Grows g g') :
    g'.HasType v ty :=
  ⟨hg.has h.1, h.2⟩

theorem Holds.hasType {P : Lexicon} {kind : Kind} {ty : Ty} (h : g.Holds P v)
    (hkind : v.kind = kind) (hty : kind.Fits v.value.ty → v.value.ty = ty) : g.HasType v.value ty :=
  ⟨h.1, hty (hkind ▸ h.2)⟩

theorem HasType.number {P : Lexicon} {v : Value} (h : g.HasType v .double) :
    g.Holds P (.scalar v) :=
  ⟨h.1, .inr h.2, nofun⟩

theorem HasType.truth {P : Lexicon} {v : Value} (h : g.HasType v .bool) : g.Holds P (.scalar v) :=
  ⟨h.1, .inl h.2, nofun⟩

theorem hasType_float (g : Stage) (d : Double) : g.HasType (.float d) .double :=
  ⟨⟨fun r hr => by simp [Value.float] at hr, rfl⟩, rfl⟩

theorem hasType_int (g : Stage) {ty : Ty} (h : ty.isInt) (n : Int64) : g.HasType (.int ty n) ty :=
  ⟨⟨fun r hr => by simp [Value.int] at hr, h⟩, rfl⟩

theorem hasType_null (g : Stage) : g.HasType .null .ptr :=
  ⟨⟨fun r hr => by simp [Value.null] at hr, rfl⟩, rfl⟩

theorem hasType_global {name : String} (h : name ∈ g.globals.map (·.name)) :
    g.HasType (.global name) .ptr :=
  ⟨⟨fun r hr => by simp [Value.global] at hr, rfl, h⟩, rfl⟩

theorem hasType_of_mem {i : Instr} {r : Reg} {ty : Ty} (hi : i ∈ g.instrs) (hdst : i.dst? = some r)
    (hty : i.resultType? = some ty) : g.HasType (.reg r ty) ty := by
  refine ⟨⟨fun r' hr' => ?_, trivial⟩, rfl⟩
  obtain rfl : r = r' := by simpa [Value.reg] using hr'
  refine mem_scope.mpr (.inr (.inr (List.mem_filterMap.mpr ⟨i, hi, ?_⟩)))
  simp [Instr.definition?, hdst, hty, Value.reg]

theorem Field.has {v : Value} (h : g.Field v) : g.Has v := by
  obtain ⟨hty, r, element, base, index, hop, hmem⟩ := h
  obtain rfl : v = .reg r .ptr := by
    cases v
    simp_all [Value.reg]
  exact (hasType_of_mem hmem rfl rfl).1

theorem Place.has {ctx : Context} {v : Value} {ty : Ty} (h : g.Place ctx P v ty) :
    g.HasType v .ptr :=
  h.elim (fun h => ⟨h.2.has, h.2.1⟩) fun h => ⟨h.2.has, h.2.1⟩

section

variable {ctx : Context} {P : Lexicon} {g : Stage}

/-! ## Operations of the builder -/

theorem emits_define (f : Reg → Instr) {ty : Ty} (hdst : (f g.next).dst? = some g.next)
    (hty : (f g.next).resultType? = some ty) (h : g.Admits ctx P (f g.next)) :
    Emits ctx P g (Emit.define ty f) fun g' v =>
      g'.HasType v ty ∧ v = .reg g.next ty ∧ f g.next ∈ g'.instrs := by
  have hmem : f g.next ∈ (g.define (f g.next)).instrs :=
    List.mem_append_right _ List.mem_cons_self
  exact Emits.move (.define _ hdst h) rfl ⟨hasType_of_mem hmem hdst hty, rfl, hmem⟩

theorem emits_push {i : Instr} (hdst : i.dst? = none) (hinner : i.isTerminator = false)
    (h : g.Admits ctx P i) : Emits ctx P g (Emit.push i) fun _ _ => True :=
  Emits.move (.effect i hdst hinner h) rfl trivial

theorem emits_load {ty : Ty} {ptr : Value} (h : g.Place ctx P ptr ty ∨ g.Outside ptr ty) :
    Emits ctx P g (Emit.load ty ptr) fun g' v => g'.HasType v ty := by
  have hptr : g.HasType ptr .ptr := h.elim Place.has fun h => ⟨h.has, by
    obtain ⟨_, -, rfl, -⟩ := h
    rfl⟩
  refine (emits_define (.load · ty ptr) rfl rfl ⟨?_, ?_, h⟩).mono fun _ _ _ h => h.1
  · simpa [Instr.operands] using hptr.1
  · simpa [Instr.expected?] using hptr.2

theorem emits_store {value ptr : Value} (hv : g.Has value) (h : g.Place ctx P ptr value.ty) :
    Emits ctx P g (Emit.store value ptr) fun _ _ => True := by
  refine emits_push rfl rfl ⟨?_, ?_, h⟩
  · simpa [Instr.operands] using ⟨hv, h.has.1⟩
  · simpa [Instr.expected?] using h.has.2

theorem emits_gep {element : Ty} {base index : Value} (hb : g.HasType base .ptr)
    (hi : g.HasType index .i64) :
    Emits ctx P g (Emit.gep element base index) fun g' v => g'.Field v := by
  refine (emits_define (.gep · element base index) rfl rfl ⟨?_, ?_, trivial⟩).mono
    fun g' v _ h => ?_
  · simpa [Instr.operands] using ⟨hb.1, hi.1⟩
  · simp [Instr.expected?, hb.2, hi.2, Ty.isInt]
  · obtain ⟨-, rfl, hmem⟩ := h
    exact ⟨rfl, _, _, _, _, rfl, hmem⟩

theorem emits_binary {op : BinOp} {lhs rhs : Value} {ty : Ty} (hl : g.HasType lhs ty)
    (hr : g.HasType rhs ty) (hop : if op.isFloat then ty = .double else ty.isInt) :
    Emits ctx P g (Emit.binary op lhs rhs) fun g' v => g'.HasType v ty := by
  refine (emits_define (.binary · op lhs rhs) rfl rfl ⟨?_, ?_, trivial⟩).mono
    fun g' v _ h => hl.2 ▸ h.1
  · simpa [Instr.operands] using ⟨hl.1, hr.1⟩
  · simp only [Instr.expected?, hl.2, hr.2]
    exact if_pos ⟨trivial, hop⟩

theorem emits_fneg {operand : Value} (h : g.HasType operand .double) :
    Emits ctx P g (Emit.fneg operand) fun g' v => g'.HasType v .double := by
  refine (emits_define (.fneg · operand) rfl rfl ⟨?_, ?_, trivial⟩).mono fun g' v _ h => h.1
  · simpa [Instr.operands] using h.1
  · simp [Instr.expected?, h.2]

theorem emits_fcmp {pred : FloatPred} {lhs rhs : Value} (hl : g.HasType lhs .double)
    (hr : g.HasType rhs .double) :
    Emits ctx P g (Emit.fcmp pred lhs rhs) fun g' v => g'.HasType v .bool := by
  refine (emits_define (.fcmp · pred lhs rhs) rfl rfl ⟨?_, ?_, trivial⟩).mono
    fun g' v _ h => h.1
  · simpa [Instr.operands] using ⟨hl.1, hr.1⟩
  · simp [Instr.expected?, hl.2, hr.2]

theorem emits_icmp {pred : IntPred} {lhs rhs : Value} {ty : Ty} (hl : g.HasType lhs ty)
    (hr : g.HasType rhs ty) (hty : ty.isInt ∨ ty = .ptr) :
    Emits ctx P g (Emit.icmp pred lhs rhs) fun g' v => g'.HasType v .bool := by
  refine (emits_define (.icmp · pred lhs rhs) rfl rfl ⟨?_, ?_, trivial⟩).mono
    fun g' v _ h => h.1
  · simpa [Instr.operands] using ⟨hl.1, hr.1⟩
  · simp only [Instr.expected?, hl.2, hr.2]
    exact if_pos ⟨trivial, hty⟩

theorem emits_call {ret : Ty} {callee : String} {args : List Value}
    (hargs : ∀ v ∈ args, g.Has v) (h : Callable ctx P g.state ret callee (args.map (·.ty))) :
    Emits ctx P g (Emit.call ret callee args) fun g' v => g'.HasType v ret :=
  (emits_define (fun dst => .call (some dst) ret callee args) rfl rfl ⟨hargs, rfl, h⟩).mono
    fun _ _ _ h => h.1

theorem emits_callVoid {callee : String} {args : List Value} (hargs : ∀ v ∈ args, g.Has v)
    (h : Callable ctx P g.state .void callee (args.map (·.ty))) :
    Emits ctx P g (Emit.callVoid callee args) fun _ _ => True :=
  emits_push rfl rfl ⟨hargs, rfl, h⟩

theorem emits_alloca (ty : Ty) (hcosts : ty = .named recordTypeName → P.Costs) :
    Emits ctx P g (Emit.alloca ty) fun g' v => g'.Cell ctx P v ty := by
  refine Emits.move (.slot ty hcosts) rfl ⟨rfl, ?_⟩
  show Instr.alloca g.next ty ∈ g.head ++ [_]
  simp

theorem emits_allocaWith_null :
    Emits ctx P g (Emit.allocaWith .ptr .null) fun g' v => g'.Cell ctx P v .ptr := by
  refine Emits.move .nullSlot rfl ⟨rfl, ?_⟩
  show Instr.alloca g.next .ptr ∈ g.head ++ [_, _]
  simp

theorem hasType_foldConstant {op : CastOp} {v w : Value} {target : Ty}
    (hfits : op.fits v.ty target) (h : foldConstant? op v target = some w) :
    g.HasType w target := by
  obtain ⟨ty, o⟩ := v
  unfold foldConstant? at h
  cases op <;> cases o <;> simp only [reduceCtorEq] at h
  case uitofp.int n =>
    obtain rfl : target = .double := by simp_all [CastOp.fits]
    split at h <;> cases h <;> exact hasType_float g _
  case sitofp.int n =>
    obtain rfl : target = .double := by simp_all [CastOp.fits]
    cases h
    exact hasType_float g _
  case bitcast.int n =>
    split at h <;> cases h
    subst target
    exact hasType_float g _
  case bitcast.float n =>
    split at h <;> cases h
    subst target
    exact hasType_int g rfl _
  case ptrtoint.null =>
    cases h
    exact hasType_int g (by simp_all [CastOp.fits]) _
  case inttoptr.int n =>
    obtain rfl : target = .ptr := by simp_all [CastOp.fits]
    split at h <;> cases h
    exact hasType_null g
  case zext.int n =>
    split at h <;> cases h
    exact hasType_int g (by simp_all [CastOp.fits]) _

theorem hasType_undone (hg : g.Sound ctx P) {op : CastOp} {v w : Value} {target : Ty}
    (hv : g.Has v) (h : g.state.builder.undone? op v target = some w) : g.HasType w target := by
  simp only [Builder.undone?, Option.bind_eq_bind, Option.bind_eq_some_iff, Value.reg?] at h
  obtain ⟨r, hr, ⟨source, operand⟩, hlookup, h⟩ := h
  have hop : v.op = .reg r := by
    split at hr <;> simp_all
  split at h <;> cases h
  rename_i hundoes
  have hc := hg.casts _ (mem_of_lookup hlookup)
  exact ⟨⟨hc.scope _ (hv.1 r hop), hc.sane⟩, hundoes.2⟩

/-- A conversion: the value it stands for has the type asked for, whether an instruction computes
it, it is a constant, or it is what an earlier conversion started from. -/
theorem emits_cast {op : CastOp} {v : Value} {target : Ty} (hv : g.Has v)
    (hfits : op.fits v.ty target) :
    Emits ctx P g (Emit.cast op v target) fun g' w => g'.HasType w target := by
  refine Emits.sound fun hg => ?_
  unfold Emit.cast
  split
  case isTrue h => exact Emits.pure ⟨hv, h.1⟩
  case isFalse =>
    split
    case h_1 w hw => exact Emits.pure (hasType_foldConstant hfits hw)
    case h_2 =>
      refine Emits.get_bind ?_
      split
      case h_1 w hw => exact Emits.pure (hasType_undone hg hv hw)
      case h_2 =>
        refine Emits.move (.convert op v target hv hfits) rfl
          (hasType_of_mem (i := .cast _ op v target) ?_ rfl rfl)
        exact List.mem_append_right _ List.mem_cons_self

/-! ## Catalogued functions -/

theorem types_of_forall₂ {args : List Value} {tys : List Ty}
    (h : List.Forall₂ g.HasType args tys) :
    args.map (·.ty) = tys ∧ ∀ v ∈ args, g.Has v := by
  induction h with
  | nil => simp
  | cons h _ ih => exact ⟨by simp [h.2, ih.1], List.forall_mem_cons.mpr ⟨h.1, ih.2⟩⟩

theorem emits_catalogued (e : Catalog.Entry) {args : List Value} (mem : e ∈ Catalog.catalog)
    (free : e.name ∉ Catalog.costly)
    (h : List.Forall₂ g.HasType args (e.params.map (·.lower ctx.target))) :
    Emits ctx P g (Emit.call (e.ret.lower ctx.target) e.name args) fun g' v =>
      g'.HasType v (e.ret.lower ctx.target) := by
  obtain ⟨htypes, hargs⟩ := types_of_forall₂ h
  exact emits_call hargs (htypes ▸ .catalogued mem (.inl free))

theorem emits_cataloguedVoid (e : Catalog.Entry) {args : List Value} (mem : e ∈ Catalog.catalog)
    (free : e.name ∉ Catalog.costly) (hret : e.ret = .void)
    (h : List.Forall₂ g.HasType args (e.params.map (·.lower ctx.target))) :
    Emits ctx P g (Emit.callVoid e.name args) fun _ _ => True := by
  obtain ⟨htypes, hargs⟩ := types_of_forall₂ h
  have hcall : Callable ctx P g.state (e.ret.lower ctx.target) e.name
      (e.params.map (·.lower ctx.target)) := .catalogued mem (.inl free)
  rw [hret, ← htypes] at hcall
  exact emits_callVoid hargs hcall

/-! ## Conversions -/

/-- The number of a value is a double. -/
theorem emits_toScalar (h : g.Holds P v) :
    Emits ctx P g (toScalar v) fun g' w => g'.HasType w .double := by
  obtain ⟨value, kind⟩ := v
  obtain ⟨hhas, hfits, -⟩ := h
  -- The bits of an address go through a word.
  have hpointer : value.ty = .ptr → Emits ctx P g
      (do let bits ← Emit.cast .ptrtoint value .i64; Emit.cast .bitcast bits .double)
      fun g' w => g'.HasType w .double := fun hty =>
    (emits_cast hhas (by simp [CastOp.fits, hty, Ty.isInt])).bind fun g1 bits _ hbits =>
      emits_cast hbits.1 (by simp [CastOp.fits, hbits.2])
  cases kind with
  | scalar =>
    unfold toScalar
    dsimp only
    split
    case isTrue hty => exact emits_cast hhas (by simp [CastOp.fits, hty, Ty.isInt])
    case isFalse hty => exact Emits.pure ⟨hhas, hfits.resolve_left hty⟩
  | tracked =>
    exact emits_catalogued ⟨Catalog.boxValue, .double, [.ptr]⟩ (by decide) (by decide)
      (.cons ⟨hhas, hfits⟩ .nil)
  | packed => exact emits_cast hhas (by simp [CastOp.fits, show value.ty = .i64 from hfits])
  | list => exact hpointer hfits
  | text => exact hpointer hfits
  | struct name => exact hpointer hfits

theorem emits_newBox_stack (h : g.Holds P v) (hcosts : P.Costs) :
    Emits ctx P g (newBox v .stack) fun g' r => g'.Holds P r ∧ r.kind = .tracked := by
  unfold newBox
  refine (emits_toScalar h).bind fun g1 scalar _ hscalar => ?_
  refine (emits_alloca _ fun _ => hcosts).bind fun g2 record hm2 hrecord => ?_
  have hptr : g2.HasType record .ptr := ⟨hrecord.has, hrecord.1⟩
  refine (emits_cataloguedVoid ⟨Catalog.boxInit, .void, [.ptr, .double]⟩ (by decide) (by decide) rfl
    (.cons hptr (.cons (hscalar.mono hm2) .nil))).bind fun g3 _ hm3 _ => ?_
  exact Emits.pure ⟨⟨hm3.has hptr.1, hptr.2, nofun⟩, rfl⟩

theorem emits_isNonzero (h : g.Holds P v) :
    Emits ctx P g (isNonzero v) fun g' w => g'.HasType w .bool :=
  (emits_toScalar h).bind fun g1 _ _ hscalar => emits_fcmp hscalar (hasType_float g1 _)

/-- Every value has a truth, which is an `i1`. -/
theorem lowers_toBoolean (h : g.Holds P v) :
    Lowers ctx P g (perform (toBoolean v)) fun g' w => g'.HasType w .bool := by
  obtain ⟨⟨ty, o⟩, kind⟩ := v
  have hfits := h.2
  have hnonzero : Emits ctx P g _ _ := emits_isNonzero h
  have hnull : ty = .ptr → Emits ctx P g (Emit.icmp .ne ⟨ty, o⟩ .null) fun g' w => g'.HasType w .bool :=
    fun hty => emits_icmp ⟨h.1, hty⟩ (hasType_null g) (.inr rfl)
  cases kind with
  | scalar =>
    rcases hfits with rfl | rfl
    · exact Leads.perform rfl (Emits.pure ⟨h.1, rfl⟩)
    · exact Leads.perform rfl hnonzero
  | tracked | packed =>
    obtain rfl := hfits
    exact Leads.perform rfl hnonzero
  | list | text | struct name =>
    obtain rfl := hfits
    exact Leads.perform rfl (hnull rfl)

/-- The kind of a value on its way into a word says which type it has. -/
def SlotHas (g : Stage) : Slot → Prop
  | .number v => g.HasType v .double
  | .pointer v => g.HasType v .ptr
  | .word v => g.HasType v .i64

theorem SlotHas.mono {g' : Stage} {s : Slot} (h : g.SlotHas s) (hg : Grows g g') :
    g'.SlotHas s := by
  cases s with
  | number v => exact HasType.mono h hg
  | pointer v => exact HasType.mono h hg
  | word v => exact HasType.mono h hg

theorem emits_slotOfTyped (h : g.Holds P v) :
    Emits ctx P g (Slot.ofTyped v) fun g' s => g'.SlotHas s := by
  obtain ⟨value, kind⟩ := v
  cases kind with
  | scalar => exact (emits_toScalar h).bind fun _ _ _ hscalar => Emits.pure hscalar
  | tracked => exact Emits.pure ⟨h.1, h.2⟩
  | list => exact Emits.pure ⟨h.1, h.2⟩
  | text => exact Emits.pure ⟨h.1, h.2⟩
  | struct name => exact Emits.pure ⟨h.1, h.2⟩
  | packed => exact Emits.pure ⟨h.1, h.2⟩

theorem emits_erase {s : Slot} (h : g.SlotHas s) :
    Emits ctx P g s.erase fun g' w => g'.HasType w .i64 := by
  cases s with
  | number v => exact emits_cast h.1 (by simp [CastOp.fits, h.2])
  | pointer v => exact emits_cast h.1 (by simp [CastOp.fits, h.2, Ty.isInt])
  | word v => exact Emits.pure h

theorem emits_pack (h : g.Holds P v) : Emits ctx P g (pack v) fun g' w => g'.HasType w .i64 :=
  (emits_slotOfTyped h).bind fun _ _ _ hs => emits_erase hs

/-- A value is at a kind, and of a type that fits it. -/
structure At (g : Stage) (want : Kind) (v : Typed) : Prop where
  has : g.Has v.value
  kind : v.kind = want
  fits : want.Fits v.value.ty

theorem At.holds {kind : Kind} (h : g.At kind v) (hcosts : kind = .text → P.Costs) : g.Holds P v :=
  ⟨h.has, h.kind ▸ h.fits, fun hk => hcosts (h.kind ▸ hk)⟩

theorem emits_unpack {word : Value} {expected : Kind} (h : g.HasType word .i64) :
    Emits ctx P g (unpack word expected) fun g' v => g'.At expected v := by
  have hpointer : Emits ctx P g (Emit.cast .inttoptr word .ptr) fun g' w => g'.HasType w .ptr :=
    emits_cast h.1 (by simp [CastOp.fits, h.2, Ty.isInt])
  cases expected with
  | scalar =>
    refine (emits_cast h.1 (by simp [CastOp.fits, h.2])).bind fun _ _ _ hw => ?_
    exact Emits.pure ⟨hw.1, rfl, .inr hw.2⟩
  | packed => exact Emits.pure ⟨h.1, rfl, h.2⟩
  | tracked => exact hpointer.bind fun _ _ _ hw => Emits.pure ⟨hw.1, rfl, hw.2⟩
  | list => exact hpointer.bind fun _ _ _ hw => Emits.pure ⟨hw.1, rfl, hw.2⟩
  | text => exact hpointer.bind fun _ _ _ hw => Emits.pure ⟨hw.1, rfl, hw.2⟩
  | struct name => exact hpointer.bind fun _ _ _ hw => Emits.pure ⟨hw.1, rfl, hw.2⟩

theorem emits_coerce {want : Kind} (h : g.Holds P v) {e : Emit Typed} (he : coerce v want = .ok e) :
    Emits ctx P g e fun g' w => g'.At want w := by
  obtain ⟨value, kind⟩ := v
  unfold coerce at he
  split at he
  case isTrue hkind =>
    cases he
    exact Emits.pure ⟨h.has, hkind, hkind ▸ h.fits⟩
  case isFalse =>
    dsimp only at he
    split at he <;> cases he
    case h_1 => exact emits_unpack ⟨h.1, h.2⟩
    case h_2 => exact Emits.pure ⟨h.1, rfl, h.2⟩
    case h_3 => exact (emits_toScalar h).bind fun _ _ _ hw => Emits.pure ⟨hw.1, rfl, .inr hw.2⟩

theorem coerce_error {want : Kind} {e : Error} (h : coerce v want = .error e) :
    e = .invalidConversion v.kind.title want.title := by
  unfold coerce at h
  split at h
  case isTrue => cases h
  case isFalse => split at h <;> cases h <;> rfl

theorem lowers_coerce {want : Kind} (h : g.Holds P v) :
    Lowers ctx P g (perform (coerce v want)) fun g' w => g'.At want w := by
  cases hv : coerce v want with
  | error e => exact Leads.fail rfl (coerce_error hv ▸ .conversion _ _)
  | ok e => exact Leads.perform rfl (emits_coerce h hv)

theorem emits_byValue (h : g.Holds P v) : Emits ctx P g (byValue v) fun g' w => g'.Holds P w := by
  unfold byValue
  split
  case h_1 => exact (emits_toScalar h).bind fun _ _ _ hw => Emits.pure hw.number
  case h_2 => exact Emits.pure h

theorem fits_of_holds {storage : StorageClass} {kind : Kind} (h : storage.Holds kind) :
    kind.Fits storage.slotType := by
  cases storage with
  | fastSlot => exact h ▸ .inr rfl
  | packedSlot => exact h ▸ rfl
  | stackBox | heapBox | borrowed => exact h ▸ rfl
  | handle => exact h.1

theorem emits_loadBinding {b : Binding} (h : g.Binds ctx P b) :
    Emits ctx P g (Lowering.load b) fun g' v => g'.Holds P v ∧ v.kind = b.kind :=
  (emits_load (.inl (.inl ⟨by cases b.storage <;> rfl, h.cell⟩))).bind fun _ _ _ hw =>
    Emits.pure ⟨⟨hw.1, hw.2 ▸ fits_of_holds h.held, h.costs⟩, rfl⟩

end

end Stage

end ScriptCompiler.Lowering
