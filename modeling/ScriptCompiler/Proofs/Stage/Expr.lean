import ScriptCompiler.Proofs.Stage.Values

/-!
# Expressions in stages

The lowering of an expression stays in the current block and gives a value at a kind. The forms of
the language take the steps of their parts as arguments, so each lemma asks of those steps what the
last theorem, by recursion on the tree, gives: that they evaluate.
-/

namespace ScriptCompiler.Lowering

open Ir List

theorem expr_memberAccess (object : Node) (member : String) :
    expr (.memberAccess object member) = match object with
      | .identifier name => memberOf name member
      | object => (do fieldOf (← expr object) member) := by
  split
  · rw [expr]
  · rw [expr]
    assumption

theorem expr_relation (callee argument : Node) :
    expr (.relation callee argument) = match callee with
      | .identifier name => applyName name ⟨expr argument, writtenElements argument⟩
      | .memberAccess (.identifier module) member =>
        applyMember module member ⟨expr argument, writtenElements argument⟩
      | _ => applyOther := by
  split
  case h_1 | h_2 => rw [expr]
  case h_3 => rw [expr] <;> assumption
namespace Stage

/-- The step stays in the current block, wherever it is run, and gives a value at its kind. -/
def Evaluates (ctx : Context) (P : Lexicon) (m : Lower Typed) : Prop :=
  ∀ g, Lowers ctx P g m fun g' v => g'.Holds P v

section

variable {ctx : Context} {P : Lexicon} {g : Stage} {v : Typed} {a : Argument} {member : String}

/-! ## Memory, constants and names -/

theorem trackAllocation_of_tracks {s : State} {address : Value} {destroy : String}
    (h : Tracks ctx s) :
    let slot := "__cleanup." ++ toString s.cleanup.length
    trackAllocation address destroy ctx s = .ok ((), { s with
      builder := s.builder.push (.store address (.global slot))
      assembly := s.assembly.addGlobal
        { name := slot, ty := .ptr, visibility := .hidden, init := some .null }
      cleanup := s.cleanup ++ [⟨slot, destroy⟩] }) := by
  have htest : (decide (s.scope = .topLevel) && !ctx.naming.isLibrary) = true := by
    simp [h.1, h.2]
  unfold trackAllocation
  show (if _ then _ else _ : Lower Unit) ctx s = _
  rw [if_pos htest]
  rfl

theorem trackAllocation_of_not_tracks {s : State} {address : Value} {destroy : String}
    (h : ¬ Tracks ctx s) : trackAllocation address destroy ctx s = .ok ((), s) := by
  have htest : ¬ (decide (s.scope = .topLevel) && !ctx.naming.isLibrary) = true := by
    simpa [Tracks] using h
  unfold trackAllocation
  show (if _ then _ else _ : Lower Unit) ctx s = _
  rw [if_neg htest]
  rfl

/-- Reserving memory gives an address. Whether it is noted depends on where the code stands. -/
theorem lowers_allocate (e : Catalog.Entry) {destroy : String} {args : List Value}
    (mem : e ∈ Catalog.catalog) (owner : (e.name, destroy) ∈ Catalog.owners)
    (h : List.Forall₂ g.HasType args (e.params.map (·.lower ctx.target))) (hcosts : P.Costs) :
    Lowers ctx P g (Lowering.allocate e.name args destroy) fun g' v => g'.HasType v .ptr := by
  obtain ⟨htypes, hargs⟩ := types_of_forall₂ h
  by_cases ht : Tracks ctx g.state
  · refine (Move.reserve e destroy args mem owner hargs htypes ht hcosts).lowers
      (a := .reg g.next .ptr) ?_ (hasType_of_mem (i := .call (some g.next) .ptr e.name args) ?_
        rfl rfl)
    · show (trackAllocation (.reg g.next .ptr) destroy ctx (g.allocate e.name args).state >>=
        fun p => Except.ok (Value.reg g.next .ptr, p.2)) = _
      rw [trackAllocation_of_tracks (show Tracks ctx (g.allocate e.name args).state from ht)]
      rfl
    · exact mem_append_left _ (mem_append_right _ mem_cons_self)
  · refine (Move.allocate e destroy args mem owner hargs htypes ht hcosts).lowers
      (a := .reg g.next .ptr) ?_ (hasType_of_mem (i := .call (some g.next) .ptr e.name args) ?_
        rfl rfl)
    · show (trackAllocation (.reg g.next .ptr) destroy ctx (g.allocate e.name args).state >>=
        fun p => Except.ok (Value.reg g.next .ptr, p.2)) = _
      rw [trackAllocation_of_not_tracks
        (show ¬ Tracks ctx (g.allocate e.name args).state from ht)]
      rfl
    · exact mem_append_right _ mem_cons_self

theorem lowers_stringConstant (text : String) :
    Lowers ctx P g (stringConstant text) fun g' v => g'.HasType v .ptr := by
  refine (Move.constant text).lowers
    (a := .global (".str." ++ toString g.state.strings)) rfl (hasType_global ?_)
  show _ ∈ List.map _ (g.state.assembly.globals ++ [_])
  simp [textConstant]

theorem evaluates_literal (l : Literal) (h : ∀ text, l = .text text → P.Costs) :
    Evaluates ctx P (literal l) := by
  intro g
  cases l with
  | number value => exact Leads.pure (hasType_float g value).number
  | null => exact Leads.pure (hasType_float g .zero).number
  | text value =>
    refine (lowers_stringConstant value).bind fun g1 bytes _ hbytes => ?_
    refine (lowers_allocate ⟨Catalog.stringCreate, .ptr, [.ptr]⟩ (by decide) (by decide)
      (.cons hbytes .nil) (h value rfl)).bind fun g2 v _ hv => ?_
    exact Leads.pure ⟨hv.1, hv.2, fun _ => h value rfl⟩

theorem Sound.find? (hg : g.Sound ctx P) {name : String} {b : Binding}
    (h : g.state.find? name = some b) : g.Binds ctx P b := by
  unfold State.find? at h
  split at h
  case h_1 hs => exact hg.globals _ (mem_of_lookup h) (.inr hs)
  case h_2 hs =>
    rcases Option.or_eq_some_iff.mp h with h | ⟨-, h⟩
    · exact hg.locals _ (mem_of_lookup h) hs
    · obtain ⟨h, hb⟩ := Option.filter_eq_some_iff.mp h
      exact hg.globals _ (mem_of_lookup h) (.inl hb)

theorem defers_of_mayDefer {s : State} {name : String}
    (h : ctx.naming.mayDefer name s.scope = true) : Defers ctx s name := by
  intro htop
  have hmem : name ∈ ctx.naming.importedNames := by simpa [Naming.mayDefer, htop] using h
  simp [Naming.mayImport, hmem]

theorem defers_of_mayDeferMember {s : State} {module : String}
    (h : ctx.naming.mayDeferMember module member s.scope = true) :
    Defers ctx s (memberSymbol module member) := by
  intro htop
  have h : module ∈ ctx.naming.importedModules ∨
      memberSymbol module member ∈ ctx.naming.importedNames := by
    simpa [Naming.mayDeferMember, htop] using h
  rcases h with h | h
  · have hstarts : Text.startsWith (module ++ "_") (memberSymbol module member) = true :=
      Text.startsWith_append (module ++ "_") member
    simp only [Naming.mayImport, Bool.or_eq_true, any_eq_true]
    exact .inr ⟨module, h, hstarts⟩
  · simp [Naming.mayImport, h]

theorem Sound.unnoted (hg : g.Sound ctx P) {symbol : String}
    (h : (g.state.routineOf? symbol).isSome = false) : P.Unnoted symbol := by
  have hall : ∀ r ∈ g.state.functions, r.symbol ≠ symbol := by simpa [State.routineOf?] using h
  exact fun r hr => hall r (hg.noted hr)

theorem lowers_loadExternal {symbol : String} (h : IsExternal P symbol)
    (hdefers : Defers ctx g.state symbol) :
    Lowers ctx P g (loadExternal symbol) fun g' v => g'.Holds P v := by
  unfold loadExternal
  refine Leads.sound fun hg => Leads.get_bind ?_
  split
  case isTrue => exact Leads.throw rfl
  case isFalse hnone =>
    refine Leads.lift_bind (fun p hp => ?_) fun e he => ?_
    case refine_2 =>
      unfold Externals.useVariable at he
      split_ifs at he
      cases he
      rfl
    obtain ⟨externals, assembly⟩ := p
    have hmove : Move ctx P g _ := .useVariable symbol externals assembly h hp hdefers
      (hg.unnoted (by simpa using hnone))
    refine (hmove.lowers (Q := fun g' _ => symbol ∈ g'.state.externals.vars) rfl
      (useVariable_globals hp).2.2.1).bind fun g1 _ _ hmem => Leads.sound fun hg1 => ?_
    refine Emits.lifted ((emits_load (.inr ?_)).bind fun g2 w _ hw => Emits.pure ⟨hw.1, hw.2, nofun⟩)
    exact ⟨symbol, hmem, rfl, rfl, hg1.externals symbol hmem⟩

theorem predicate?_mem {name check : String} (h : Catalog.predicate? name = some check) :
    (⟨check, .bool, [.ptr]⟩ : Catalog.Entry) ∈ Catalog.catalog ∧ check ∉ Catalog.costly := by
  unfold Catalog.predicate? at h
  split at h <;> cases h <;> decide

theorem lowers_predicateOfLast {name check : String} (h : Catalog.predicate? name = some check) :
    Lowers ctx P g (predicateOfLast check) fun g' v => g'.Holds P v := by
  have hfalse (g : Stage) : g.Holds P (.scalar (.bool false)) :=
    (hasType_int g rfl _).truth
  unfold predicateOfLast
  refine Leads.sound fun hg => Leads.get_bind ?_
  split
  case h_2 => exact Leads.pure (hfalse g)
  case h_1 b hb =>
    split
    case isFalse => exact Leads.pure (hfalse g)
    case isTrue htracked =>
      obtain ⟨name, -, hfind⟩ := Option.bind_eq_some_iff.mp hb
      have hcell : g.Cell ctx P b.slot .ptr := by
        have hslot := (hg.find? hfind).cell
        cases hs : b.storage <;> simp_all [StorageClass.isTracked, StorageClass.slotType]
      refine (emits_load (.inl (.inl ⟨rfl, hcell⟩))).lifted.bind fun g1 record _ hrecord => ?_
      obtain ⟨hmem, hfree⟩ := predicate?_mem h
      refine (emits_catalogued _ hmem hfree (.cons hrecord .nil)).lifted.bind fun g2 v _ hv => ?_
      exact Leads.pure hv.truth

/-- A name that is no variable in reach is a predicate, or left to the linker, unless it is a
variable at top level that a function does not reach. -/
theorem lowers_unboundName {name : String} (h : P name) (hread : P.read name)
    (hfind : g.state.find? name = none) :
    Lowers ctx P g (unboundName name) fun g' v => g'.Holds P v := by
  by_cases hreach : g.state.scope = .function ∧ ∃ b, g.state.globals.lookup name = some b
  · obtain ⟨hscope, b, hb⟩ := hreach
    have hframed : b.isModuleLevel = false := by
      simp only [State.find?, hscope, hb, Option.or_eq_none_iff] at hfind
      simpa using hfind.2
    refine Leads.fail ?_ (.outOfReach hscope hb hframed hread)
    unfold unboundName
    rw [run_get]
    simp only [hscope, hb]
    rfl
  · unfold unboundName
    refine Leads.get_bind ?_
    split
    case h_1 b hscope hb => exact absurd ⟨hscope, b, hb⟩ hreach
    case h_2 =>
      split
      case h_1 check hcheck => exact lowers_predicateOfLast hcheck
      case h_2 =>
        refine Leads.read_bind ?_
        split
        case isTrue hmay => exact lowers_loadExternal (.inl h) (defers_of_mayDefer hmay)
        case isFalse => exact Leads.get_bind (Leads.throw rfl)

theorem evaluates_identifier {name : String} (h : P name) (hread : P.read name) :
    Evaluates ctx P (identifier name) := by
  intro g
  unfold identifier
  split
  case isTrue => exact Leads.pure (hasType_int g rfl _).truth
  case isFalse =>
    split
    case isTrue => exact Leads.pure (hasType_int g rfl _).truth
    case isFalse =>
      refine Leads.sound fun hg => Leads.get_bind ?_
      split
      case h_1 b hb => exact (emits_loadBinding (hg.find? hb)).lifted.mono fun _ _ _ hv => hv.1
      case h_2 hnone => exact lowers_unboundName h hread hnone

/-! ## Composite values -/

theorem lowers_storeElements {list : Value} {elements : List (Lower Typed)}
    (h : ∀ m ∈ elements, Evaluates ctx P m) :
    ∀ {g : Stage} (index : Nat), g.HasType list .ptr →
      Lowers ctx P g (storeElements list index elements) fun _ _ => True := by
  induction elements with
  | nil => intro g index _; exact Leads.pure trivial
  | cons element rest ih =>
    intro g index hlist
    unfold storeElements
    refine (h element (by simp) g).bind fun g1 v hm1 hv => ?_
    refine (emits_toScalar hv).lifted.bind fun g2 scalar hm2 hscalar => ?_
    have hlist2 : g2.HasType list .ptr := hlist.mono (hm1.trans hm2)
    refine (emits_cataloguedVoid ⟨Catalog.listSet, .void, [.ptr, .i64, .double]⟩ (by decide)
      (by decide) rfl (.cons hlist2 (.cons (hasType_int g2 rfl _) (.cons hscalar .nil)))).lifted.bind
        fun g3 _ hm3 _ => ?_
    exact ih (fun m hm => h m (by simp [hm])) (index + 1) (hlist2.mono hm3)

theorem evaluates_listOf {elements : List (Lower Typed)} (h : ∀ m ∈ elements, Evaluates ctx P m)
    (hcosts : P.Costs) : Evaluates ctx P (listOf elements) := by
  intro g
  unfold listOf
  refine (lowers_allocate ⟨Catalog.listCreate, .ptr, [.i64]⟩ (by decide) (by decide)
    (.cons (hasType_int g rfl _) .nil) hcosts).bind fun g1 list _ hlist => ?_
  refine (lowers_storeElements h 0 hlist).bind fun g2 _ hm2 _ => ?_
  exact Leads.pure ⟨hm2.has hlist.1, hlist.2, nofun⟩

theorem lowers_storeFields {object : Value} {fields : List (Lower Typed)}
    (h : ∀ m ∈ fields, Evaluates ctx P m) :
    ∀ {g : Stage} (index : Nat), g.HasType object .ptr →
      Lowers ctx P g (storeFields object index fields) fun _ _ => True := by
  induction fields with
  | nil => intro g index _; exact Leads.pure trivial
  | cons field rest ih =>
    intro g index hobject
    unfold storeFields
    refine (h field (by simp) g).bind fun g1 v hm1 hv => ?_
    refine (emits_byValue hv).lifted.bind fun g2 w hm2 hw => ?_
    refine (emits_pack hw).lifted.bind fun g3 word hm3 hword => ?_
    have hobject3 : g3.HasType object .ptr :=
      hobject.mono ((hm1.trans hm2).trans hm3)
    refine (emits_gep hobject3 (hasType_int g3 rfl _)).lifted.bind fun g4 address hm4 hfield => ?_
    refine (emits_store (hm4.has hword.1) (.inr ⟨hword.2, hfield⟩)).lifted.bind
      fun g5 _ hm5 _ => ?_
    exact ih (fun m hm => h m (by simp [hm])) (index + 1)
      (hobject3.mono (hm4.trans hm5))

theorem evaluates_structOf {name : String} {args : List (Lower Typed)}
    (h : ∀ m ∈ args, Evaluates ctx P m) (hcosts : P.Costs) :
    Evaluates ctx P (structOf name args) := by
  intro g
  unfold structOf
  refine Leads.get_bind ?_
  split
  case h_1 => exact Leads.throw rfl
  case h_2 fields _ =>
    split
    case isTrue => exact Leads.throw rfl
    case isFalse =>
      refine Leads.read_bind ?_
      have hsize : ctx.target.sizeType.isInt = true := rfl
      have hcall : Callable ctx P g.state .ptr Catalog.malloc [ctx.target.sizeType] :=
        .catalogued (e := ⟨Catalog.malloc, .ptr, [.size]⟩) (by decide) (.inr ⟨rfl, hcosts⟩)
      refine (emits_call (forall_mem_singleton.mpr (hasType_int g hsize _).1)
        hcall).lifted.bind fun g1 object _ hobject => ?_
      refine (lowers_storeFields h 0 hobject).bind fun g2 _ hm2 _ => ?_
      exact Leads.pure ⟨hm2.has hobject.1, hobject.2, nofun⟩

theorem lowers_fieldOf {object : Typed} {field : String} (h : g.Holds P object) :
    Lowers ctx P g (fieldOf object field) fun g' v => g'.Holds P v := by
  unfold fieldOf
  have htype : Lowers ctx P g (structType object field) fun g' type =>
      g'.Holds P object ∧ (object.kind = .struct type ∨ object.kind = .packed) := by
    unfold structType
    split
    case h_1 hkind => exact Leads.pure ⟨h, .inl hkind⟩
    case h_2 hkind =>
      refine Leads.get_bind (Leads.lift (fun _ _ => ⟨h, .inr hkind⟩) fun e he => ?_)
      unfold ownerOf at he
      split at he <;> cases he <;> rfl
    case h_3 => exact Leads.refuse
  refine htype.bind fun g1 type _ hobject => ?_
  refine (lowers_coerce hobject.1).bind fun g2 w _ hw => ?_
  refine Leads.get_bind ?_
  dsimp only
  split
  case h_2 => exact Leads.throw rfl
  case h_1 index _ =>
    refine (emits_gep ⟨hw.has, hw.fits⟩ (hasType_int g2 rfl _)).lifted.bind fun g3 address _ hfield => ?_
    refine (emits_load (.inl (.inr ⟨rfl, hfield⟩))).lifted.bind fun g4 word _ hword => ?_
    exact Leads.pure ⟨hword.1, hword.2, nofun⟩

theorem lowers_deferredMember {module : String} :
    Lowers ctx P g (deferredMember module member) fun g' symbol =>
      symbol = memberSymbol module member ∧ Defers ctx g'.state symbol := by
  unfold deferredMember
  refine Leads.read_bind (Leads.get_bind ?_)
  split
  case isTrue hmay => exact Leads.pure ⟨rfl, defers_of_mayDeferMember hmay⟩
  case isFalse => exact Leads.throw rfl

theorem evaluates_memberOf {name : String} (hname : P name) (hread : P.read name)
    (hmember : P member) : Evaluates ctx P (memberOf name member) := by
  intro g
  unfold memberOf
  refine Leads.get_bind ?_
  split
  case h_1 =>
    refine lowers_deferredMember.bind ?_
    rintro g1 symbol - ⟨rfl, hdefers⟩
    exact lowers_loadExternal (.inr ⟨name, member, hname, hmember, rfl⟩) hdefers
  case h_2 =>
    exact (evaluates_identifier hname hread g).bind fun g1 v _ hv => lowers_fieldOf hv

theorem question?_mem {word accessor : String} {question : Catalog.Question}
    (h : Catalog.question? word = some question) (ha : question.accessor = some accessor) :
    ∃ e ∈ Catalog.catalog, e.name = accessor ∧ e.params = [.ptr] ∧ accessor ∉ Catalog.costly ∧
      (e.ret = .double ∨ e.ret = .i64) ∧ ∀ target,
        (Catalog.returnType? target accessor).getD .double = e.ret.lower target := by
  unfold Catalog.question? at h
  split at h <;> cases h <;> cases ha
  · exact ⟨⟨Catalog.boxGradient, .double, [.ptr]⟩, by decide, rfl, rfl, by decide, .inl rfl,
      fun _ => rfl⟩
  · exact ⟨⟨Catalog.boxStability, .double, [.ptr]⟩, by decide, rfl, rfl, by decide, .inl rfl,
      fun _ => rfl⟩
  · exact ⟨⟨Catalog.boxIteration, .i64, [.ptr]⟩, by decide, rfl, rfl, by decide, .inr rfl,
      fun _ => rfl⟩

theorem evaluates_answer {word : String} {target : Lower Typed} (h : Evaluates ctx P target) :
    Evaluates ctx P (answer word target) := by
  intro g
  unfold answer
  split
  case h_1 => exact Leads.refuse
  case h_2 question hquestion =>
    refine (h g).bind fun g1 subject _ hsubject => ?_
    split
    case h_1 => exact Leads.pure hsubject
    case h_2 accessor haccessor =>
      split
      case isTrue => exact Leads.pure (hasType_float g1 _).number
      case isFalse hkind =>
        refine Leads.read_bind ?_
        obtain ⟨e, hmem, rfl, hparams, hfree, hret, htype⟩ := question?_mem hquestion haccessor
        have hptr : g1.HasType subject.value .ptr := hsubject.hasType (not_not.mp hkind) id
        dsimp only
        rw [htype]
        refine (emits_catalogued e hmem hfree (hparams ▸ .cons hptr .nil)).lifted.bind
          fun g2 v _ hv => ?_
        rcases hret with hret | hret
        · rw [hret] at hv ⊢
          exact Leads.pure hv.number
        · rw [hret] at hv ⊢
          refine (emits_cast hv.1 (by rw [hv.2]; rfl)).lifted.bind fun g3 w _ hw => ?_
          exact Leads.pure hw.number

/-! ## Operators -/

theorem lowers_numberText (h : g.Holds P v) (hcosts : P.Costs) :
    Lowers ctx P g (numberText v) fun g' w => g'.HasType w .ptr := by
  unfold numberText
  refine (emits_toScalar h).lifted.bind fun g1 scalar _ hscalar => ?_
  exact lowers_allocate ⟨Catalog.numberToString, .ptr, [.double]⟩ (by decide) (by decide)
    (.cons hscalar .nil) hcosts

/-- An operand of an operation on strings is an address. -/
theorem lowers_asText (h : g.Holds P v) (htext : v.kind.isTextual = true ∨ P.Costs) :
    Lowers ctx P g (asText v) fun g' w => g'.HasType w .ptr := by
  unfold asText
  split
  case h_1 hkind => exact Leads.pure (h.hasType hkind id)
  case h_2 hkind =>
    refine (lowers_coerce h).bind fun g1 w _ hw => ?_
    exact Leads.pure ⟨hw.has, hw.fits⟩
  case h_3 hkind | h_4 hkind =>
    exact lowers_numberText h (htext.resolve_left (by simp [hkind, Kind.isTextual]))
  case h_5 | h_6 => exact Leads.refuse

theorem lowers_concat {lhs rhs : Typed} (hl : g.Holds P lhs) (hr : g.Holds P rhs)
    (hcosts : P.Costs) :
    Lowers ctx P g (concat lhs rhs) fun g' v => g'.Holds P v := by
  unfold concat
  refine (lowers_asText hl (.inr hcosts)).bind fun g1 l hm1 hl1 => ?_
  refine (lowers_asText (hm1.holds hr) (.inr hcosts)).bind fun g2 r hm2 hr2 => ?_
  refine (lowers_allocate ⟨Catalog.stringConcat, .ptr, [.ptr, .ptr]⟩ (by decide) (by decide)
    (.cons (hl1.mono hm2) (.cons hr2 .nil)) hcosts).bind fun g3 v _ hv => ?_
  exact Leads.pure ⟨hv.1, hv.2, fun _ => hcosts⟩

theorem lowers_textEquality {negated : Bool} {lhs rhs : Typed} (hl : g.Holds P lhs)
    (hr : g.Holds P rhs) : Lowers ctx P g (textEquality negated lhs rhs) fun g' v => g'.Holds P v := by
  unfold textEquality
  split
  case isFalse => exact Leads.pure (hasType_int g rfl _).truth
  case isTrue htext =>
    obtain ⟨hltext, hrtext⟩ := Bool.and_eq_true_iff.mp htext
    refine (lowers_asText hl (.inl hltext)).bind fun g1 l hm1 hl1 => ?_
    refine (lowers_asText (hm1.holds hr) (.inl hrtext)).bind fun g2 r hm2 hr2 => ?_
    refine (emits_catalogued ⟨Catalog.stringEquals, .i64, [.ptr, .ptr]⟩ (by decide) (by decide)
      (.cons (hl1.mono hm2) (.cons hr2 .nil))).lifted.bind fun g3 same _ hsame => ?_
    refine (emits_icmp hsame (hasType_int g3 rfl _) (.inl rfl)).lifted.bind fun g4 v _ hv => ?_
    exact Leads.pure hv.truth

theorem isFloat_of_arithmetic? {op : String} {bin : BinOp} (h : arithmetic? op = some bin) :
    bin.isFloat = true := by
  unfold arithmetic? at h
  split at h <;> cases h <;> rfl

theorem isFloat_of_logic? {op : String} {bin : BinOp} (h : logic? op = some bin) :
    bin.isFloat = false := by
  unfold logic? at h
  split at h <;> cases h <;> rfl

theorem lowers_plainBinary {op : String} {lhs rhs : Typed} (hl : g.Holds P lhs) (hr : g.Holds P rhs) :
    Lowers ctx P g (plainBinary op lhs rhs) fun g' v => g'.Holds P v := by
  unfold plainBinary
  split
  case h_1 bin hbin =>
    refine (emits_toScalar hl).lifted.bind fun g1 l hm1 hl1 => ?_
    refine (emits_toScalar (hm1.holds hr)).lifted.bind fun g2 r hm2 hr2 => ?_
    refine (emits_binary (hl1.mono hm2) hr2 (by rw [isFloat_of_arithmetic? hbin]; rfl)).lifted.bind
      fun g3 v _ hv => ?_
    exact Leads.pure hv.number
  case h_2 =>
    refine (emits_toScalar hl).lifted.bind fun g1 l hm1 hl1 => ?_
    refine (emits_toScalar (hm1.holds hr)).lifted.bind fun g2 r hm2 hr2 => ?_
    refine (emits_fcmp (hl1.mono hm2) hr2).lifted.bind fun g3 v _ hv => ?_
    exact Leads.pure hv.truth
  case h_3 bin _ _ hbin =>
    refine (lowers_toBoolean hl).bind fun g1 l hm1 hl1 => ?_
    refine (lowers_toBoolean (hm1.holds hr)).bind fun g2 r hm2 hr2 => ?_
    refine (emits_binary (hl1.mono hm2) hr2 (by rw [isFloat_of_logic? hbin]; rfl)).lifted.bind
      fun g3 v _ hv => ?_
    exact Leads.pure hv.truth
  case h_4 => exact Leads.refuse

theorem lowers_binary {op : String} {lhs rhs : Typed} (hl : g.Holds P lhs) (hr : g.Holds P rhs) :
    Lowers ctx P g (binary op lhs rhs) fun g' v => g'.Holds P v := by
  unfold Lowering.binary
  split
  case isFalse => exact lowers_plainBinary hl hr
  case isTrue hkinds =>
    unfold textBinary
    split
    case h_1 =>
      have hcosts : P.Costs := (by simpa using hkinds : _ ∨ _).elim hl.costs hr.costs
      exact lowers_concat hl hr hcosts
    case h_2 | h_3 => exact lowers_textEquality hl hr
    case h_4 => exact Leads.refuse

theorem lowers_unary {op : String} {operand : Typed} (h : g.Holds P operand) :
    Lowers ctx P g (unary op operand) fun g' v => g'.Holds P v := by
  unfold unary
  split
  case h_1 =>
    refine (lowers_toBoolean h).bind fun g1 flag _ hflag => ?_
    refine (emits_binary hflag (hasType_int g1 rfl _) (by rfl)).lifted.bind fun g2 v _ hv => ?_
    exact Leads.pure hv.truth
  case h_2 =>
    refine (emits_toScalar h).lifted.bind fun g1 scalar _ hscalar => ?_
    refine (emits_fneg hscalar).lifted.bind fun g2 v _ hv => ?_
    exact Leads.pure hv.number
  case h_3 => exact Leads.refuse

theorem emits_toPosition {index : Typed} (h : g.Holds P index) :
    Emits ctx P g (toPosition index) fun g' v => g'.HasType v .i64 :=
  (emits_toScalar h).bind fun _ _ _ hscalar =>
    emits_cast hscalar.1 (by simp [CastOp.fits, hscalar.2, Ty.isInt])

theorem lowers_elementAt {target : Typed} {position : Value} (h : g.Holds P target)
    (hp : g.HasType position .i64) :
    Lowers ctx P g (elementAt target position) fun g' v => g'.Holds P v := by
  unfold elementAt
  have hlist : target.kind = .list ∨ target.kind = .packed → Lowers ctx P g (do
      let list ← perform (coerce target .list)
      let element ← Emit.call .double Catalog.listGet [list.value, position]
      return .packed (← Emit.cast .bitcast element .i64)) fun g' v => g'.Holds P v := by
    intro hkind
    refine (lowers_coerce h).bind fun g1 list hm1 hlist => ?_
    refine (emits_catalogued ⟨Catalog.listGet, .double, [.ptr, .i64]⟩ (by decide) (by decide)
      (.cons ⟨hlist.has, hlist.fits⟩ (.cons (hp.mono hm1) .nil))).lifted.bind
        fun g2 element _ helement => ?_
    refine (emits_cast helement.1 (by rw [helement.2]; rfl)).lifted.bind fun g3 w _ hw => ?_
    exact Leads.pure ⟨hw.1, hw.2, nofun⟩
  split
  case h_1 hkind =>
    refine (emits_catalogued ⟨Catalog.charAt, .i64, [.ptr, .i64]⟩ (by decide) (by decide)
      (.cons (h.hasType hkind id) (.cons hp .nil))).lifted.bind fun g1 code _ hcode => ?_
    refine (emits_cast hcode.1 (by rw [hcode.2]; rfl)).lifted.bind fun g2 v _ hv => ?_
    exact Leads.pure hv.number
  case h_2 hkind => exact hlist (.inl hkind)
  case h_3 hkind => exact hlist (.inr hkind)
  case h_4 => exact Leads.refuse

/-! ## Applications -/

/-- The argument may be one value. -/
def IsSingle (P : Lexicon) (a : Argument) : Prop := a.elements = none ∨ P.Costs

/-- The steps of an argument evaluate. A written list is one value only where it may need memory. -/
structure ArgumentEvaluates (ctx : Context) (P : Lexicon) (callee : Node) (a : Argument) : Prop where
  whole : IsSingle P a → Evaluates ctx P a.whole
  elements : ∀ elements, a.elements = some elements → ∀ m ∈ elements, Evaluates ctx P m
  apart : ∀ T, P.thrift = some T → a.elements ≠ none → T.takesApart callee = true

theorem ArgumentEvaluates.single_or {callee : Node} (h : ArgumentEvaluates ctx P callee a) :
    IsSingle P a ∨ ∃ T, P.thrift = some T ∧ T.takesApart callee = true := by
  by_cases hnone : a.elements = none
  · exact .inl (.inl hnone)
  · cases hT : P.thrift with
    | none => exact .inl (.inr hT)
    | some T => exact .inr ⟨T, rfl, h.apart T hT hnone⟩

/-- A name that takes a list apart is that of a function with parameters enough, or stands for the
power function. -/
theorem ArgumentEvaluates.taken {name : String} (h : ArgumentEvaluates ctx P (.identifier name) a)
    (hg : g.Sound ctx P) :
    IsSingle P a ∨ (∃ r, g.state.routine? name = some r ∧ 1 < r.params.length) ∨
      name = "pow" ∧ g.state.routine? name = none := by
  refine h.single_or.imp id ?_
  rintro ⟨T, hT, h⟩
  unfold Thrift.takesApart at h
  dsimp only at h
  split at h
  case h_1 r hr => exact .inl ⟨r, (hg.early T hT).find?_eq_some hr, of_decide_eq_true h⟩
  case h_2 =>
    simp only [Bool.and_eq_true, decide_eq_true_eq] at h
    refine .inr ⟨h.1, ?_⟩
    -- Every function that is noted is one of the unit.
    refine List.find?_eq_none.mpr fun r hr hname => h.2 ?_
    exact of_decide_eq_true hname ▸ ((hg.routines r hr).thrifty T hT).name

theorem ArgumentEvaluates.taken_member {module : String}
    (h : ArgumentEvaluates ctx P (.memberAccess (.identifier module) member) a) (hg : g.Sound ctx P) :
    IsSingle P a ∨
      ∃ r, g.state.routineOf? (memberSymbol module member) = some r ∧ 1 < r.params.length := by
  refine h.single_or.imp id ?_
  rintro ⟨T, hT, h⟩
  obtain ⟨r, hr, hlt⟩ := (Option.any_eq_true _ _).mp h
  exact ⟨r, (hg.early T hT).find?_eq_some hr, of_decide_eq_true hlt⟩

theorem lowers_mapM {steps : List (Lower Typed)} (h : ∀ m ∈ steps, Evaluates ctx P m) :
    ∀ {g : Stage}, Lowers ctx P g (steps.mapM id) fun g' vs => ∀ v ∈ vs, g'.Holds P v := by
  induction steps with
  | nil => intro g; rw [mapM_nil]; exact Leads.pure (by simp)
  | cons m rest ih =>
    intro g
    rw [mapM_cons]
    refine (h m (by simp) g).bind fun g1 v hm1 hv => ?_
    refine (ih fun m' hm' => h m' (by simp [hm'])).bind fun g2 vs hm2 hvs => ?_
    exact Leads.pure (forall_mem_cons.mpr ⟨hm2.holds hv, hvs⟩)

theorem lowers_values {callee : Node} (h : ArgumentEvaluates ctx P callee a) {spread : Bool}
    (hspread : IsSingle P a ∨ spread = true) :
    Lowers ctx P g (a.values spread) fun g' vs => ∀ v ∈ vs, g'.Holds P v := by
  unfold Argument.values
  split
  case h_1 elements _ helements => exact lowers_mapM (h.elements _ helements)
  case h_2 hnot =>
    have hsingle : IsSingle P a := by
      refine hspread.elim id fun hspread => .inl (Option.eq_none_iff_forall_ne_some.mpr ?_)
      exact fun elements helements => hnot elements helements hspread
    exact (h.whole hsingle g).bind fun g1 v _ hv => Leads.pure (by simpa using hv)

theorem slotHas_fitted {slots : List Slot} (h : ∀ s ∈ slots, g.SlotHas s) (arity : Nat) :
    ∀ s ∈ fitted slots arity, g.SlotHas s := by
  intro s hs
  rcases mem_append.mp hs with hs | hs
  · exact h s (mem_of_mem_take hs)
  · rw [eq_of_mem_replicate hs]
    exact hasType_float g .zero

theorem length_fitted (slots : List Slot) (arity : Nat) : (fitted slots arity).length = arity := by
  simp only [fitted, length_append, length_take, length_replicate]
  omega

theorem map_ty_words {words : List Value} (h : ∀ w ∈ words, g.HasType w .i64) :
    words.map (·.ty) = List.replicate words.length .i64 :=
  eq_replicate_iff.mpr ⟨by simp, by simpa using fun w hw => (h w hw).2⟩

theorem lowers_warn (message : String) : Lowers ctx P g (warn message) fun _ _ => True := by
  have hmove : Move ctx P g
      { g with state := { g.state with warnings := g.state.warnings ++ [message] } } :=
    .note _ { SameCode.refl ctx P _ with }
  exact hmove.lowers rfl trivial

theorem lowers_callFunction {symbol callee : String} {arity : Nat} {args : List Typed}
    (h : ∀ v ∈ args, g.Holds P v)
    (hcall : ∀ g', Grows g g' → Callable ctx P g'.state .i64 symbol (List.replicate arity .i64)) :
    Lowers ctx P g (callFunction symbol callee arity args) fun g' v => g'.Holds P v := by
  unfold callFunction
  have hslots : Emits ctx P g (args.mapM fun arg => do Slot.ofTyped (← byValue arg))
      fun g' slots => slots.length = args.length ∧ ∀ s ∈ slots, g'.SlotHas s :=
    Emits.mapM (fun _ _ _ hm hs => hs.mono hm) fun v hv g' hm =>
      (emits_byValue (hm.holds (h v hv))).bind fun _ _ _ hw => emits_slotOfTyped hw
  refine hslots.lowers.bind fun g1 slots hm1 hs => ?_
  have hrest : ∀ g2, Grows g1 g2 → Lowers ctx P g2 (do
      let words ← emit ((fitted slots arity).mapM Slot.erase)
      return .packed (← Emit.call .i64 symbol words)) fun g' v => g'.Holds P v := by
    intro g2 hm2
    have hwords : Emits ctx P g2 ((fitted slots arity).mapM Slot.erase) fun g' words =>
        words.length = (fitted slots arity).length ∧ ∀ w ∈ words, g'.HasType w .i64 :=
      Emits.mapM (fun _ _ _ hm hw => hw.mono hm) fun s hs' g' hm =>
        emits_erase ((slotHas_fitted hs.2 arity s hs').mono (hm2.trans hm))
    refine hwords.lowers.bind fun g3 words hm3 hw => ?_
    rw [length_fitted] at hw
    have hc := hcall g3 ((hm1.trans hm2).trans hm3)
    rw [← hw.1, ← map_ty_words hw.2] at hc
    refine (emits_call (fun w hw' => (hw.2 w hw').1) hc).lifted.bind fun g4 v _ hv => ?_
    exact Leads.pure ⟨hv.1, hv.2, nofun⟩
  dsimp only
  split
  case h_1 message _ => exact (lowers_warn message).bind fun g2 _ hm2 _ => hrest g2 hm2
  case h_2 => exact hrest g1 (Grows.refl g1)

theorem lowers_callRoutine {node : Node} {r : Routine} {callee : String}
    (h : ArgumentEvaluates ctx P node a) (hr : r ∈ g.state.functions)
    (htaken : IsSingle P a ∨ 1 < r.params.length) :
    Lowers ctx P g (callRoutine r callee a) fun g' v => g'.Holds P v := by
  unfold callRoutine
  refine (lowers_values h (htaken.imp id (decide_eq_true ·))).bind fun g1 args hm1 hargs => ?_
  exact lowers_callFunction hargs fun g2 hm2 => .routine (hm2.routines (hm1.routines hr))

theorem lowers_callExternal {callee : Node} {symbol : String} (hsymbol : IsExternal P symbol)
    (hdefers : Defers ctx g.state symbol) (h : ArgumentEvaluates ctx P callee a)
    (htaken : g.Sound ctx P → IsSingle P a ∨
      ∃ r, g.state.routineOf? symbol = some r ∧ 1 < r.params.length) :
    Lowers ctx P g (callExternal symbol a) fun g' v => g'.Holds P v := by
  unfold callExternal
  refine Leads.sound fun hg => Leads.get_bind ?_
  split
  case h_1 r hr =>
    refine lowers_callRoutine h (mem_of_find?_eq_some hr) ((htaken hg).imp id ?_)
    rintro ⟨r', hr', hlt⟩
    obtain rfl := Option.some.inj (hr.symm.trans hr')
    exact hlt
  case h_2 hnone =>
    have hsingle : IsSingle P a := (htaken hg).resolve_right (by simp [hnone])
    refine (lowers_values h (.inl hsingle)).bind fun g1 args hm1 hargs => ?_
    refine Leads.get_bind (Leads.lift_bind (fun p hp => ?_) fun e he => ?_)
    case refine_2 =>
      unfold Externals.useFunction at he
      split at he
      · cases he
      · split at he <;> cases he
        rfl
    obtain ⟨arity, externals, assembly⟩ := p
    have hmove : Move ctx P g1 _ :=
      .useFunction symbol args.length arity externals assembly hsymbol hp
        (fun htop => hdefers (hm1.mode ▸ htop)) (hg.unnoted (by simp [hnone]))
    refine (hmove.lowers (Q := fun g' _ => (symbol, arity) ∈ g'.state.externals.functions) rfl
      (useFunction_globals hp).2.2.2.1).bind fun g2 _ hm2 hmem => ?_
    exact lowers_callFunction (fun v hv => hm2.holds (hargs v hv)) fun g3 hm3 =>
      .external (hm3.uses hmem)

/-! ## Predicates and builtins -/

theorem lowers_predicateOf {name check : String} (h : Evaluates ctx P a.whole)
    (hcheck : Catalog.predicate? name = some check) :
    Lowers ctx P g (predicateOf check a) fun g' v => g'.Holds P v := by
  unfold predicateOf
  refine (h g).bind fun g1 subject _ hsubject => ?_
  split
  case isTrue hkind =>
    obtain ⟨hmem, hfree⟩ := predicate?_mem hcheck
    refine (emits_catalogued _ hmem hfree (.cons (hsubject.hasType hkind id) .nil)).lifted.bind
      fun g2 v _ hv => ?_
    exact Leads.pure hv.truth
  case isFalse => exact Leads.pure (hasType_int g1 rfl _).truth

theorem lowers_print (h : g.Holds P v) : Lowers ctx P g (print v) fun g' w => g'.Holds P w := by
  have hzero (g : Stage) : Lowers ctx P g (pure (.scalar (.float .zero))) fun g' w => g'.Holds P w :=
    Leads.pure (hasType_float g .zero).number
  have hnumber (e : Catalog.Entry) (mem : e ∈ Catalog.catalog) (free : e.name ∉ Catalog.costly)
      (hret : e.ret = .void) (hparams : e.params = [.double]) : Lowers ctx P g (do
        let scalar ← toScalar v
        Emit.callVoid e.name [scalar]
        return .scalar (.float .zero)) fun g' w => g'.Holds P w :=
    (emits_toScalar h).lifted.bind fun g1 scalar _ hscalar =>
      (emits_cataloguedVoid e mem free hret (hparams ▸ .cons hscalar .nil)).lifted.bind
        fun g2 _ _ _ => hzero g2
  unfold print
  dsimp only
  split
  case h_1 hkind =>
    exact (emits_cataloguedVoid ⟨Catalog.printString, .void, [.ptr]⟩ (by decide) (by decide) rfl
      (.cons (h.hasType hkind id) .nil)).lifted.bind fun g1 _ _ _ => hzero g1
  case h_2 => exact hnumber ⟨Catalog.printValue, .void, [.double]⟩ (by decide) (by decide) rfl rfl
  case h_3 | h_4 =>
    exact hnumber ⟨Catalog.printDouble, .void, [.double]⟩ (by decide) (by decide) rfl rfl
  case h_5 | h_6 => exact Lowers.bind Leads.refuse fun _ _ _ (h : False) => h.elim

theorem lowers_lengthOf (h : g.Holds P v) :
    Lowers ctx P g (lengthOf v) fun g' w => g'.Holds P w := by
  have hrest (g : Stage) (count : Value) (hcount : g.HasType count .i64) :
      Lowers ctx P g (do return .scalar (← Emit.cast .sitofp count .double))
        fun g' w => g'.Holds P w :=
    (emits_cast hcount.1 (by rw [hcount.2]; rfl)).lifted.bind fun _ _ _ hw => Leads.pure hw.number
  have hlist : v.kind = .list ∨ v.kind = .packed → Lowers ctx P g (do
      let list ← perform (coerce v .list)
      let count ← Emit.call .i64 Catalog.listLength [list.value]
      return .scalar (← Emit.cast .sitofp count .double)) fun g' w => g'.Holds P w := fun hkind =>
    (lowers_coerce h).bind fun g1 list _ hlist =>
      (emits_catalogued ⟨Catalog.listLength, .i64, [.ptr]⟩ (by decide) (by decide)
        (.cons ⟨hlist.has, hlist.fits⟩ .nil)).lifted.bind fun g2 count _ hcount =>
          hrest g2 count hcount
  unfold lengthOf
  dsimp only
  split
  case h_1 hkind =>
    exact (emits_catalogued ⟨Catalog.stringLength, .i64, [.ptr]⟩ (by decide) (by decide)
      (.cons (h.hasType hkind id) .nil)).lifted.bind fun g1 count _ hcount => hrest g1 count hcount
  case h_2 hkind => exact hlist (.inl hkind)
  case h_3 hkind => exact hlist (.inr hkind)
  case h_4 => exact Lowers.bind Leads.refuse fun _ _ _ (h : False) => h.elim

theorem lowers_append
    (h : ∀ elements, a.elements = some elements → ∀ m ∈ elements, Evaluates ctx P m) :
    Lowers ctx P g (append a) fun g' v => g'.Holds P v := by
  unfold append
  split
  case h_2 => exact Leads.refuse
  case h_1 list value helements =>
    have hparts := h _ helements
    refine (hparts list (by simp) g).bind fun g1 l _ hl => ?_
    refine (lowers_coerce hl).bind fun g2 l2 _ hl2 => ?_
    refine (hparts value (by simp) g2).bind fun g3 v hm3 hv => ?_
    refine (emits_toScalar hv).lifted.bind fun g4 scalar hm4 hscalar => ?_
    have hlist := hm4.holds (hm3.holds (P := P) (hl2.holds nofun))
    refine (emits_cataloguedVoid ⟨Catalog.listAppend, .void, [.ptr, .double]⟩ (by decide)
      (by decide) rfl (.cons (hlist.hasType hl2.kind id) (.cons hscalar .nil))).lifted.bind
        fun g5 _ hm5 _ => ?_
    exact Leads.pure (hm5.holds hlist)

theorem lowers_textOf (h : g.Holds P v) (hcosts : P.Costs) :
    Lowers ctx P g (textOf v) fun g' w => g'.Holds P w := by
  unfold textOf
  split
  case isTrue => exact Leads.pure h
  case isFalse =>
    exact (lowers_numberText h hcosts).bind fun _ _ _ hw => Leads.pure ⟨hw.1, hw.2, fun _ => hcosts⟩

theorem lowers_numberOf (h : g.Holds P v) :
    Lowers ctx P g (numberOf v) fun g' w => g'.Holds P w := by
  unfold numberOf
  split
  case isTrue hkind =>
    refine (lowers_asText h (.inl hkind)).bind fun g1 text _ htext => ?_
    refine (emits_catalogued ⟨Catalog.stringToNumber, .double, [.ptr]⟩ (by decide) (by decide)
      (.cons htext .nil)).lifted.bind fun g2 w _ hw => ?_
    exact Leads.pure hw.number
  case isFalse => exact (emits_toScalar h).lifted.bind fun _ _ _ hw => Leads.pure hw.number

theorem lowers_power {callee : Node} (h : ArgumentEvaluates ctx P callee a) :
    Lowers ctx P g (power a) fun g' v => g'.Holds P v := by
  unfold power
  refine (lowers_values h (.inr rfl)).bind fun g1 args _ hargs => ?_
  split
  case h_2 => exact Leads.refuse
  case h_1 base exponent =>
    refine (emits_toScalar (hargs base (by simp))).lifted.bind fun g2 b hm2 hb => ?_
    refine (emits_toScalar (hm2.holds (hargs exponent (by simp)))).lifted.bind
      fun g3 e hm3 he => ?_
    refine (emits_catalogued ⟨Catalog.pow, .double, [.double, .double]⟩ (by decide) (by decide)
      (.cons (hb.mono hm3) (.cons he .nil))).lifted.bind fun g4 w _ hw => ?_
    exact Leads.pure hw.number

theorem mathFunction?_mem {name symbol : String} (h : Catalog.mathFunction? name = some symbol) :
    (⟨symbol, .double, [.double]⟩ : Catalog.Entry) ∈ Catalog.catalog ∧
      symbol ∉ Catalog.costly := by
  unfold Catalog.mathFunction? at h
  split at h <;> cases h <;> decide

theorem lowers_mathOf {name symbol : String} (h : g.Holds P v)
    (hsymbol : Catalog.mathFunction? name = some symbol) :
    Lowers ctx P g (mathOf symbol v) fun g' w => g'.Holds P w := by
  unfold mathOf
  obtain ⟨hmem, hfree⟩ := mathFunction?_mem hsymbol
  refine (emits_toScalar h).lifted.bind fun g1 scalar _ hscalar => ?_
  refine (emits_catalogued _ hmem hfree (.cons hscalar .nil)).lifted.bind fun g2 w _ hw => ?_
  exact Leads.pure hw.number

theorem lowers_builtin {callee : Node} {name : String} {builtin : Argument → Lower Typed}
    (hbuiltin : builtin? name = some builtin) (h : ArgumentEvaluates ctx P callee a)
    (hsingle : name ≠ "pow" → IsSingle P a) (hstr : name = "str" → P.Costs) :
    Lowers ctx P g (builtin a) fun g' v => g'.Holds P v := by
  have hwhole : name ≠ "pow" → Evaluates ctx P a.whole := fun hname => h.whole (hsingle hname)
  unfold builtin? at hbuiltin
  split at hbuiltin
  case h_1 => cases hbuiltin; exact (hwhole (by decide) g).bind fun _ _ _ hv => lowers_print hv
  case h_2 => cases hbuiltin; exact (hwhole (by decide) g).bind fun _ _ _ hv => lowers_lengthOf hv
  case h_3 => cases hbuiltin; exact lowers_append h.elements
  case h_4 =>
    cases hbuiltin
    exact (hwhole (by decide) g).bind fun _ _ _ hv => lowers_textOf hv (hstr rfl)
  case h_5 => cases hbuiltin; exact (hwhole (by decide) g).bind fun _ _ _ hv => lowers_numberOf hv
  case h_6 => cases hbuiltin; exact lowers_power h
  case h_7 hname =>
    obtain ⟨symbol, hsymbol, rfl⟩ := Option.map_eq_some_iff.mp hbuiltin
    exact (hwhole hname g).bind fun _ _ _ hv => lowers_mathOf hv hsymbol

/-! ## The tree -/

theorem evaluates_applyName {name : String} (hname : P name)
    (h : ArgumentEvaluates ctx P (.identifier name) a) (hstr : name = "str" → P.Costs) :
    Evaluates ctx P (applyName name a) := by
  intro g
  unfold applyName
  refine Leads.sound fun hg => Leads.get_bind ?_
  -- Only the power function takes a list apart that is none of the functions of the unit.
  have hsingle : g.state.routine? name = none → name ≠ "pow" → IsSingle P a := fun hnone hpow =>
    (h.taken hg).resolve_right (by simp [hnone, hpow])
  split
  case h_1 r _ _ hr =>
    refine lowers_callRoutine h (mem_of_find?_eq_some hr) ((h.taken hg).imp id ?_)
    rintro (⟨r', hr', hlt⟩ | ⟨-, hnone⟩)
    · obtain rfl := Option.some.inj (hr.symm.trans hr')
      exact hlt
    · exact nomatch hr.symm.trans hnone
  case h_2 check _ hnone hcheck =>
    refine lowers_predicateOf (h.whole (hsingle hnone ?_)) hcheck
    rintro rfl
    simp [Catalog.predicate?] at hcheck
  case h_3 builtin hnone _ hbuiltin => exact lowers_builtin hbuiltin h (hsingle hnone) hstr
  case h_4 hnone _ hnot =>
    refine Leads.read_bind ?_
    split
    case isTrue hmay =>
      refine lowers_callExternal (.inl hname) (defers_of_mayDefer hmay) h fun _ =>
        .inl (hsingle hnone ?_)
      rintro rfl
      simp [builtin?] at hnot
    case isFalse => exact Leads.get_bind (Leads.throw rfl)

theorem evaluates_applyMember {module : String} (hmodule : P module) (hmember : P member)
    (h : ArgumentEvaluates ctx P (.memberAccess (.identifier module) member) a) :
    Evaluates ctx P (applyMember module member a) := by
  refine fun _ => lowers_deferredMember.bind ?_
  rintro g1 symbol - ⟨rfl, hdefers⟩
  exact lowers_callExternal (.inr ⟨module, member, hmodule, hmember, rfl⟩) hdefers h h.taken_member

mutual

/-- Lowering an expression stays in the current block and gives a value at its kind. -/
theorem evaluates_expr : (node : Node) → P.Covers node.names node.reads (·.allows node) →
    Evaluates ctx P (expr node)
  | .literal value, h => by
    rw [expr]
    refine evaluates_literal value ?_
    rintro text rfl
    exact h.costs fun _ => by simp [Thrift.allows]
  | .identifier name, h => by
    rw [expr]
    exact evaluates_identifier (h.named name mem_cons_self) (h.read name mem_cons_self)
  | .binary op left right, h => by
    rw [expr]
    obtain ⟨hl, hr⟩ := h.split
    intro g
    refine (evaluates_expr left hl g).bind fun g1 lhs _ hl => ?_
    refine (evaluates_expr right hr g1).bind fun g2 rhs hm2 hr => ?_
    exact lowers_binary (hm2.holds hl) hr
  | .unary op operand, h => by
    rw [expr]
    intro g
    exact (evaluates_expr operand h g).bind fun g1 v _ hv => lowers_unary hv
  | .listLiteral elements, h => by
    rw [expr]
    have hcosts : P.Costs := h.costs fun _ => by simp [Thrift.allows]
    exact evaluates_listOf (evaluates_exprs elements (h.loose hcosts _)) hcosts
  | .index list index, h => by
    rw [expr]
    obtain ⟨hl, hi⟩ := h.split
    intro g
    refine (evaluates_expr list hl g).bind fun g1 target _ ht => ?_
    refine (evaluates_expr index hi g1).bind fun g2 position hm2 hp => ?_
    refine (emits_toPosition hp).lifted.bind fun g3 position hm3 hp3 => ?_
    exact lowers_elementAt (hm3.holds (hm2.holds ht)) hp3
  | .memberAccess object member, h => by
    have ho : P.Covers object.names object.reads (·.allows object) :=
      h.mono (subset_cons_self _ _) (List.Subset.refl _) fun T _ ha => by
        simpa [Thrift.allows] using ha
    have hobject := evaluates_expr object ho
    rw [expr_memberAccess]
    split
    case h_1 name =>
      exact evaluates_memberOf (ho.named name mem_cons_self) (ho.read name mem_cons_self)
        (h.named member mem_cons_self)
    case h_2 => exact fun g => (hobject g).bind fun _ _ _ hv => lowers_fieldOf hv
  | .structLiteral name args, h => by
    rw [expr]
    have hcosts : P.Costs := h.costs fun _ => by simp [Thrift.allows]
    have hargs := h.mono (subset_cons_self _ _) (List.Subset.refl _) fun _ _ ha => ha
    exact evaluates_structOf (evaluates_exprs args (hargs.loose hcosts _)) hcosts
  | .interrogative word target, h => by
    rw [expr]
    exact evaluates_answer (evaluates_expr target h)
  | .relation callee argument, h => by
    have hreads : argument.reads ⊆ (Node.relation callee argument).reads := by
      cases callee with
      | identifier name => exact List.Subset.refl _
      | _ => exact subset_append_right _ _
    have hcovers : ∀ allows, (∀ T, P.thrift = some T → allows T = true) →
        P.Covers argument.names argument.reads allows := fun allows hallows =>
      h.mono (subset_append_right _ _) hreads fun T hT _ => hallows T hT
    have hallowed := fun T hT => allows_relation (h.allowed T hT)
    have ha : ArgumentEvaluates ctx P callee ⟨expr argument, writtenElements argument⟩ := by
      refine ⟨fun hsingle => evaluates_expr argument (hcovers _ fun T hT => ?_),
        evaluates_writtenElements argument ?_, fun T hT hsome => ?_⟩
      · exact (hallowed T hT).2.1 (hsingle.resolve_right fun hcosts => nomatch hcosts.symm.trans hT)
      · rintro nodes rfl
        exact hcovers _ fun T hT => ((hallowed T hT).2.2 nodes rfl).2
      · cases argument with
        | listLiteral nodes => exact ((hallowed T hT).2.2 nodes rfl).1
        | _ => exact absurd rfl hsome
    have hcallee : ∀ name ∈ callee.names, P name := fun name hname =>
      h.named name (mem_append_left _ hname)
    rw [expr_relation]
    split
    case h_1 name =>
      refine evaluates_applyName (hcallee name mem_cons_self) ha fun hname => ?_
      exact Lexicon.costs_of_not fun T hT => by simpa [Node.isStr, hname] using (hallowed T hT).1
    case h_2 module member =>
      exact evaluates_applyMember (hcallee module (by simp [Node.names]))
        (hcallee member mem_cons_self) ha
    case h_3 => exact fun _ => Leads.refuse
  | .assignment .., _ | .indexedAssignment .., _ | .functionDef .., _ | .ret _, _ | .breakLoop, _
  | .conditional .., _ | .loop .., _ | .structDef .., _ | .importModule _, _ =>
    fun _ => Leads.fail rfl (.statement _)

theorem evaluates_exprs : (nodes : List Node) →
    P.Covers (Node.namesAll nodes) (Node.readsAll nodes) (·.allowsAll nodes) →
    ∀ m ∈ exprs nodes, Evaluates ctx P m
  | [], _ => by simp [exprs]
  | node :: rest, h => by
    obtain ⟨hnode, hrest⟩ := h.split
    rw [exprs]
    exact forall_mem_cons.mpr ⟨evaluates_expr node hnode, evaluates_exprs rest hrest⟩

theorem evaluates_writtenElements (node : Node)
    (h : ∀ nodes, node = .listLiteral nodes →
      P.Covers (Node.namesAll nodes) (Node.readsAll nodes) (·.allowsAll nodes))
    (elements : List (Lower Typed)) (helements : writtenElements node = some elements) :
    ∀ m ∈ elements, Evaluates ctx P m := by
  cases node with
  | listLiteral nodes =>
    rw [writtenElements, Option.some.injEq] at helements
    exact helements ▸ evaluates_exprs nodes (h nodes rfl)
  | _ => simp [writtenElements] at helements

end

theorem evaluates_any (node : Node) : Evaluates ctx .any (expr node) :=
  evaluates_expr node (Lexicon.covers_any _ _ _)

end

end Stage

end ScriptCompiler.Lowering
