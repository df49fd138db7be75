import ScriptCompiler.Proofs.Kinds
import ScriptCompiler.Proofs.Linkage
import ScriptCompiler.Proofs.Stage.Emits

/-!
# Memory is used at its types

Addresses have no types of their own, so nothing in a load or a store shows whether it agrees with
the slot or the global behind it. In generated code it does: `TypedMemory` says what this means for
a function, and `generate_typedMemory` that it holds of every unit whose names are identifiers. It
also says that symbols tell globals apart, so that there is one type for each of them, and that at
every point of the lowering the kind of each variable is the one that its storage class dictates.

The argument is an invariant of steps: the address in a load or a store that is written is that of a
slot of the type, of a global of the type, or of a field (`Emitted.accesses`), and slots and globals
stay what they are.
-/

namespace ScriptCompiler

namespace Ir

/-- The address that an instruction loads from or stores to, with the type of what it loads or
stores. -/
def Instr.access? : Instr → Option (Value × Ty)
  | .load _ ty ptr => some (ptr, ty)
  | .store value ptr => some (ptr, value.ty)
  | _ => none

/-- The loads and stores of a function agree with the types of its slots and of the globals. -/
structure TypedMemory (globals : List Global) (f : Func) : Prop where
  /-- Numbers, addresses and words are loaded and stored. -/
  storable : ∀ i ∈ f.instrs, ∀ ptr ty, i.access? = some (ptr, ty) →
    ty = .double ∨ ty = .ptr ∨ ty = .i64
  /-- A slot is used at the type at which it is reserved. -/
  slot : ∀ i ∈ f.instrs, ∀ ptr ty r slotTy, i.access? = some (ptr, ty) → ptr.op = .reg r →
    .alloca r slotTy ∈ f.instrs → ty = slotTy
  /-- A global is used at its type. -/
  global : ∀ i ∈ f.instrs, ∀ ptr ty symbol, i.access? = some (ptr, ty) → ptr.op = .global symbol →
    ∃ d ∈ globals, d.name = symbol ∧ d.ty = ty
  /-- A record in the frame is neither loaded nor stored. -/
  record : ∀ i ∈ f.instrs, ∀ ptr ty r, i.access? = some (ptr, ty) → ptr.op = .reg r →
    .alloca r (.named recordTypeName) ∉ f.instrs

theorem TypedMemory.mono {globals globals' : List Global} {f : Func} (h : TypedMemory globals f)
    (hglobals : globals ⊆ globals') : TypedMemory globals' f :=
  { h with
    global := fun i hi ptr ty symbol haccess hop => by
      obtain ⟨d, hd, hd'⟩ := h.global i hi ptr ty symbol haccess hop
      exact ⟨d, hglobals hd, hd'⟩ }

end Ir

namespace Lowering

open Ir

/-- The loads and stores of a unit agree with the types of memory, and so do the kinds of variables
at every point of its lowering. -/
structure LowersTyped (ctx : Context) (statements : List Node) (a : Assembly) : Prop where
  /-- Globals have symbols of their own. -/
  distinct : (a.globals.map (·.name)).Nodup
  memory : ∀ f ∈ a.functions, TypedMemory a.globals f
  kinds : ∀ s, ComesTo ctx statements s → s.KindsFit
  /-- Every block of the text, in whatever branch and from whatever statement on, is lowered from such
  a state. -/
  points : ∀ inner, (Within inner statements ∨
      ∃ r s s', LowersBody ctx statements r s s' ∧ Within inner r.body) →
    ∃ s s', ComesTo ctx statements s ∧ block inner ctx s = .ok ((), s')

theorem IsGlobal.ty_of_dotless {naming : Naming} {strings noted : Nat} {d : Global}
    (h : IsGlobal naming strings noted d) (hplain : naming.IsPlain) (hd : Dotless d.name) :
    d.ty = .i64 := by
  cases h with
  | storage name named storage symbol ty defined changes =>
    exact absurd (symbol ▸ hd) (not_dotless_globalSymbol hplain named)
  | constant k lt symbol => exact absurd (symbol ▸ hd) (not_dotless_constantSymbol k)
  | noted k lt program eq =>
    rw [eq] at hd
    exact absurd hd (not_dotless_cleanupSymbol k)
  | word dotless ty => exact ty

namespace Stage

/-- A load or a store is at the type of a slot, of a field or of a global. -/
def Accesses (g : Stage) (i : Instr) : Prop :=
  ∀ ptr ty, i.access? = some (ptr, ty) → ty.isStorable ∧
    (∀ r, ptr.op = .reg r → .alloca r ty ∈ g.head ∨
      ∃ element base index, .gep r element base index ∈ g.code) ∧
    ∀ symbol, ptr.op = .global symbol → ∃ d ∈ g.globals, d.name = symbol ∧ d.ty = ty

section

variable {ctx : Context} {P : Lexicon} {g g' start : Stage} {i : Instr}

theorem Accesses.mono (h : g.Accesses i) (hhead : g.head ⊆ g'.head) (hcode : g.code ⊆ g'.code)
    (hglobals : g.globals ⊆ g'.globals) : g'.Accesses i := by
  intro ptr ty hi
  obtain ⟨hty, hreg, hglobal⟩ := h ptr ty hi
  refine ⟨hty, fun r hr => (hreg r hr).imp (fun h => hhead h) ?_, fun symbol hsymbol => ?_⟩
  · rintro ⟨element, base, index, h⟩
    exact ⟨element, base, index, hcode h⟩
  · obtain ⟨d, hd, hd'⟩ := hglobal symbol hsymbol
    exact ⟨d, hglobals hd, hd'⟩

/-- Where something may be loaded or stored it is at the right type. -/
theorem Place.accesses (hplain : ctx.naming.IsPlain) (hs : Defines ctx g.state) {ptr : Value}
    {ty : Ty} (h : g.Place ctx (.of Dotless) ptr ty) : ty.isStorable ∧
      (∀ r, ptr.op = .reg r → .alloca r ty ∈ g.head ∨
        ∃ element base index, .gep r element base index ∈ g.code) ∧
      ∀ symbol, ptr.op = .global symbol → ∃ d ∈ g.globals, d.name = symbol ∧ d.ty = ty := by
  rcases h with ⟨hty, -, hcell⟩ | ⟨rfl, -, r, element, base, index, hop, hmem⟩
  · refine ⟨hty, fun r hr => ?_, fun symbol hsymbol => ?_⟩
    · rw [hr] at hcell
      exact .inl hcell
    · rw [hsymbol] at hcell
      cases hcell with
      | own name h mem => exact mem
      | exported name named h mem =>
        obtain ⟨d, hd, hname⟩ := List.mem_map.mp mem
        have hdotless : Dotless d.name := hname ▸ dotless_exportSymbol hplain named h
        exact ⟨d, hd, hname, (hs.origin d hd).ty_of_dotless hplain hdotless⟩
  · refine ⟨rfl, fun r' hr' => .inr ?_, fun symbol hsymbol => by simp [hop] at hsymbol⟩
    obtain rfl : r = r' := by simpa [hop] using hr'
    refine ⟨element, base, index, List.mem_append_right _ ?_⟩
    rw [bodyCode_eq]
    exact List.mem_append_right _ hmem

/-- What a step writes accesses memory at its types. -/
theorem Emitted.accesses (hplain : ctx.naming.IsPlain) (hs : Defines ctx g.state)
    (hstep : Step ctx (.of Dotless) g g') (h : Emitted ctx (.of Dotless) g g' i) : g'.Accesses i := by
  obtain ⟨slots, code, hextends, -⟩ := hstep.emits
  have hpersists := hstep.persists
  have hkeep : g.Accesses i → g'.Accesses i := fun h =>
    h.mono hpersists.head.subset hextends.subset_code hpersists.globals
  cases h with
  | admitted admits =>
    have hshape := admits.shape
    refine hkeep fun ptr ty hi => ?_
    cases i with
    | load dst ty' ptr' =>
      obtain ⟨rfl, rfl⟩ : ptr' = ptr ∧ ty' = ty := by simpa [Instr.access?] using hi
      rcases hshape with hplace | ⟨symbol, -, rfl, rfl, hmem⟩
      · exact hplace.accesses hplain hs
      · refine ⟨rfl, fun r hr => by simp [Value.global] at hr, fun symbol' hsymbol => ?_⟩
        exact Operand.global.inj hsymbol ▸ hmem
    | store value ptr' =>
      obtain ⟨rfl, rfl⟩ : ptr' = ptr ∧ value.ty = ty := by simpa [Instr.access?] using hi
      exact Place.accesses hplain hs hshape
    | _ => simp [Instr.access?] at hi
  | @cleared dst mem =>
    intro ptr ty hi
    obtain ⟨rfl, rfl⟩ : .reg dst .ptr = ptr ∧ .ptr = ty := by
      simpa [Instr.access?, Value.null] using hi
    refine ⟨rfl, fun r hr => .inl ?_, fun symbol hsymbol => by simp [Value.reg] at hsymbol⟩
    obtain rfl : dst = r := by simpa [Value.reg] using hr
    exact mem
  | @noted d dst mem ty _ =>
    intro ptr ty' hi
    obtain ⟨rfl, rfl⟩ : .global d.name = ptr ∧ .ptr = ty' := by
      simpa [Instr.access?, Value.reg] using hi
    refine ⟨rfl, fun r hr => by simp [Value.global] at hr, fun symbol hsymbol => ?_⟩
    exact ⟨d, mem, by simpa [Value.global] using hsymbol, ty⟩
  | @reloaded entry dst mem =>
    refine hkeep fun ptr ty hi => ?_
    obtain ⟨rfl, rfl⟩ : .global entry.slot = ptr ∧ .ptr = ty := by simpa [Instr.access?] using hi
    refine ⟨rfl, fun r hr => by simp [Value.global] at hr, fun symbol hsymbol => ?_⟩
    obtain ⟨d, hd, hname, hty⟩ := hs.noted entry mem
    exact ⟨d, hd, hname.trans (by simpa [Value.global] using hsymbol), hty⟩
  | converted | slot | reserved | released => exact fun ptr ty hi => by simp [Instr.access?] at hi
  | ended terminator =>
    intro ptr ty hi
    cases i <;> simp_all [Instr.access?, Instr.isTerminator]

/-- All code of a function accesses memory at its types. -/
theorem Completes.accesses {t : Instr} (h : Completes ctx (.of Dotless) start g t)
    (hplain : ctx.naming.IsPlain) (hs : Defines ctx start.state) :
    ∀ i ∈ (g.complete t).instrs, g.Accesses i := by
  refine h.forall_instrs (Steps.forall_code (fun _ hstep hi => ?_) (fun hsteps hstep hi => ?_)
    h.fresh h.steps) fun v ptr ty hi => by simp [Instr.access?] at hi
  · obtain ⟨slots, code, hextends, -⟩ := hstep.emits
    have hpersists := hstep.persists
    exact hi.mono hpersists.head.subset hextends.subset_code hpersists.globals
  · have hdefines := hsteps.invariant SameLinkage.defines
      (fun _ hmove => hmove.defines hplain) h.origin hs
    exact hi.accesses hplain hdefines hstep

/-- A function that is complete uses memory at its types. -/
theorem Completes.typedMemory {t : Instr} (h : Completes ctx (.of Dotless) start g t)
    (hplain : ctx.naming.IsPlain) (hs : Defines ctx start.state) :
    TypedMemory g.globals (g.complete t) := by
  have haccesses := h.accesses hplain hs
  have hcode : g.code ⊆ (g.complete t).instrs := by
    rw [h.instrs]
    have hextends : Extends [] [t] g (g.effect t) := ⟨(List.append_nil _).symm, .inl ⟨rfl, rfl⟩⟩
    exact hextends.subset_code
  -- A register is defined once, so a slot is no field and has one type.
  have hslot : ∀ i ∈ (g.complete t).instrs, ∀ ptr ty r slotTy, i.access? = some (ptr, ty) →
      ptr.op = .reg r → .alloca r slotTy ∈ (g.complete t).instrs → ty = slotTy := by
    intro i hi ptr ty r slotTy haccess hr halloca
    rcases (haccesses i hi ptr ty haccess).2.1 r hr with hmem | ⟨element, base, index, hmem⟩
    · have hmem := hcode (List.mem_append_left _ hmem)
      have heq := h.definedOnce _ hmem _ halloca r rfl rfl
      simpa using heq
    · have heq := h.definedOnce _ (hcode hmem) _ halloca r rfl rfl
      simp at heq
  have hstorable : ∀ i ∈ (g.complete t).instrs, ∀ ptr ty, i.access? = some (ptr, ty) →
      ty = .double ∨ ty = .ptr ∨ ty = .i64 := by
    intro i hi ptr ty haccess
    have hty := (haccesses i hi ptr ty haccess).1
    unfold Ty.isStorable at hty
    split at hty <;> simp_all
  refine ⟨hstorable, hslot, fun i hi ptr ty symbol haccess =>
    (haccesses i hi ptr ty haccess).2.2 symbol, fun i hi ptr ty r haccess hr halloca => ?_⟩
  have hty := hslot i hi ptr ty r _ haccess hr halloca
  have := hstorable i hi ptr ty haccess
  simp [hty] at this

end

end Stage

/-! ## The unit -/

/-- The functions that are complete use memory at its types. -/
theorem Pending.typedMemory {ctx : Context} {statements : List Node} {todo : List Routine}
    {s : State} (h : Pending ctx statements todo s) (hplain : ctx.naming.IsPlain)
    (hnames : ∀ name ∈ Node.namesAll statements, Dotless name) :
    ∀ f ∈ s.assembly.functions, TypedMemory s.assembly.globals f := by
  induction h with
  | @entry s h =>
    intro f hf
    rw [(entryDone h).functions] at hf
    obtain rfl := List.mem_singleton.mp hf
    obtain ⟨g, t, hcompletes, rfl⟩ := entry_completes hnames h
    exact hcompletes.typedMemory hplain (defines_start hplain _ statements _ _)
  | @body r rest s s' before h ih =>
    intro f hf
    rw [(bodyDone before h).functions] at hf
    obtain ⟨g, t, hcompletes, rfl⟩ := before.completes hnames h
    rcases List.mem_append.mp hf with hf | hf
    · exact (ih f hf).mono (Stage.Steps.persists hcompletes.steps).globals
    · obtain rfl := List.mem_singleton.mp hf
      have hstart : Defines ctx (Stage.routine s r).state :=
        (sameLinkage_enter s r).defines (before.defines hplain hnames)
      exact hcompletes.typedMemory hplain hstart

/-- A unit whose names are identifiers uses memory at its types. -/
theorem generate_typedMemory {target : Target} {naming : Naming} {observed : List String}
    {statements : List Node} {u : Generated} (hplain : naming.IsPlain)
    (hnames : ∀ name ∈ Node.namesAll statements, Dotless name)
    (hu : generate target naming observed statements = .ok u) :
    LowersTyped (Stage.contextOf target naming observed statements) statements u.assembly := by
  obtain ⟨s₁, s₂, hentry, -⟩ := generate_run rfl hu
  obtain ⟨s, hpending, rfl⟩ := generate_pending rfl hu
  refine ⟨hpending.nodup_globals hplain hnames, hpending.typedMemory hplain hnames,
    fun t ht => ht.kindsFit, ?_⟩
  rintro inner (hinner | ⟨r, t, t', hbody, hinner⟩)
  · exact comesTo_of_entry hinner hentry
  · exact comesTo_of_lowersBody hinner hbody

/-- A library with variables of all sorts, at top level and in a function. -/
def storing : List Node :=
  [.assignment "x" (.literal (.number .one)),
    .assignment "y" (.identifier "x"),
    .assignment "list" (.listLiteral [.identifier "x"]),
    .assignment "_text" (.literal (.text "a")),
    .functionDef "f" ["n"]
      [.conditional (.identifier "n") [.assignment "x" (.identifier "n")]
        [.assignment "k" (.literal (.number .zero))],
        .assignment "w" (.memberAccess (.identifier "other") "w")]]

theorem typedMemory_storing :
    ∃ u, generate (.resolve none) { mode := .library "m" } ["x"] storing = .ok u ∧
      u.assembly.globals.map (fun d => (d.name, d.ty)) = [("m.x", .ptr), ("m_x", .i64),
        ("m.y", .ptr), ("m_y", .i64), ("m.list", .ptr), ("m_list", .i64),
        (".str.0", .array 2 .i8), ("_m.text", .ptr), ("other_w", .i64)] ∧
      LowersTyped (Stage.contextOf (.resolve none) { mode := .library "m" } ["x"] storing) storing
        u.assembly := by
  have hplain : Naming.IsPlain { mode := .library "m" } := by
    refine ⟨fun module hmodule => ?_, by simp⟩
    obtain rfl : "m" = module := by simpa using hmodule
    unfold Dotless
    decide
  have hnames : ∀ name ∈ Node.namesAll storing, Dotless name := by
    unfold Dotless
    decide +kernel
  obtain ⟨u, hu, hglobals⟩ := exists_generate (.resolve none) { mode := .library "m" } ["x"] storing
    (fun u => u.assembly.globals.map (fun d => (d.name, d.ty)) = [("m.x", .ptr), ("m_x", .i64),
      ("m.y", .ptr), ("m_y", .i64), ("m.list", .ptr), ("m_list", .i64),
      (".str.0", .array 2 .i8), ("_m.text", .ptr), ("other_w", .i64)]) (by decide +kernel)
  exact ⟨u, hu, of_decide_eq_true hglobals, generate_typedMemory hplain hnames hu⟩

end Lowering

end ScriptCompiler
