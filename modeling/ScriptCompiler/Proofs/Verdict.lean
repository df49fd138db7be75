import Mathlib.Data.List.Nodup
import ScriptCompiler.Ir.Check

/-!
# What the check accepts

The check of an assembly goes through it once, with lists of what it has seen: symbols, labels,
registers. What it is to accept is a statement about the whole text. Symbols and labels are distinct;
a block ends in its one terminator; an instruction reads what stands above it and defines what nothing
above it does; it keeps the type rule of its sort, and a call keeps to the signature of its callee
(`Func.Conforms`, `Assembly.Conforms`).

The check holds calls to the last definition of a name, and a signature is that of the first. They
differ only where a name is defined twice, and then the check fails anyway. So the two sides agree on
every assembly, however it came about (`check_valid_iff`).
-/

namespace ScriptCompiler.Ir

open List

/-! ## The rules -/

/-- A conversion applies between two types. -/
inductive CastOp.Converts : CastOp → Ty → Ty → Prop where
  | uitofp (bits : Nat) : Converts .uitofp (.int bits) .double
  | sitofp (bits : Nat) : Converts .sitofp (.int bits) .double
  | fptosi (bits : Nat) : Converts .fptosi .double (.int bits)
  | bitsOfNumber : Converts .bitcast .double .i64
  | numberOfBits : Converts .bitcast .i64 .double
  | sameType (ty : Ty) : Converts .bitcast ty ty
  | ptrtoint (bits : Nat) : Converts .ptrtoint .ptr (.int bits)
  | inttoptr (bits : Nat) : Converts .inttoptr (.int bits) .ptr
  | zext (bits bits' : Nat) : Converts .zext (.int bits) (.int bits')
  | trunc (bits bits' : Nat) : Converts .trunc (.int bits) (.int bits')

/-- The operands have the types that the instruction takes, in a function with the result type `ret`.
Of a call this says nothing. -/
def Instr.WellTyped (ret : Ty) : Instr → Prop
  | .load _ _ ptr | .store _ ptr => ptr.ty = .ptr
  | .gep _ _ base index => base.ty = .ptr ∧ ∃ bits, index.ty = .int bits
  | .binary _ op lhs rhs =>
    lhs.ty = rhs.ty ∧ if op.isFloat then lhs.ty = .double else ∃ bits, lhs.ty = .int bits
  | .fneg _ operand => operand.ty = .double
  | .fcmp _ _ lhs rhs => lhs.ty = .double ∧ rhs.ty = .double
  | .icmp _ _ lhs rhs => lhs.ty = rhs.ty ∧ ((∃ bits, lhs.ty = .int bits) ∨ lhs.ty = .ptr)
  | .cast _ op value target => op.Converts value.ty target
  | .condBr cond _ _ => cond.ty = .bool
  | .ret (some value) => value.ty = ret
  | .ret none => ret = .void
  | .alloca .. | .call .. | .br .. | .unreachable => True

/-- The block ends in a terminator and has no other. -/
def Block.IsClosed (b : Block) : Prop :=
  ∃ inner t, b.instrs = inner ++ [t] ∧ t.isTerminator = true ∧ ∀ i ∈ inner, i.isTerminator = false

/-- The instruction reads registers that are defined, and defines one that is not. -/
def Instr.Continues (defined : Reg → Prop) (i : Instr) : Prop :=
  (∀ v ∈ i.operands, ∀ r, v.op = .reg r → defined r) ∧ ∀ r, i.dst? = some r → ¬ defined r

/-- A register is defined by one of the instructions. -/
def DefinedIn (code : List Instr) (r : Reg) : Prop := ∃ i ∈ code, i.dst? = some r

/-- The rules for a function of an assembly. -/
structure Func.Conforms (a : Assembly) (f : Func) : Prop where
  labels : f.labels.Nodup
  closed : ∀ b ∈ f.blocks, b.IsClosed
  targets : ∀ i ∈ f.instrs, ∀ label ∈ i.successors, label ∈ f.labels
  /-- In the order of the text, a register is read when it is a parameter or is defined above, and is
  defined when it is neither. -/
  registers : ∀ above i below, f.instrs = above ++ i :: below →
    i.Continues fun r => r ∈ f.paramRegs ∨ DefinedIn above r
  globals : ∀ i ∈ f.instrs, ∀ v ∈ i.operands, ∀ name, v.op = .global name →
    ∃ g ∈ a.globals, g.name = name
  types : ∀ i ∈ f.instrs, i.WellTyped f.ret
  calls : ∀ dst ret callee args, .call dst ret callee args ∈ f.instrs →
    ∃ s, a.signature? callee = some s ∧ s.params = args.map (·.ty) ∧ s.ret = ret

/-- The rules for an assembly. -/
structure Assembly.Conforms (a : Assembly) : Prop where
  /-- The names of globals and functions, taken together, are distinct. -/
  defined : (a.globals.map (·.name) ++ a.functions.map (·.name)).Nodup
  declared : (a.declarations.map (·.name)).Nodup
  apart : ∀ s ∈ a.declarations, ∀ g ∈ a.globals, s.name ≠ g.name
  functions : ∀ f ∈ a.functions, f.Conforms a

/-! ## Symbols -/

theorem repeats_eq_nil_iff {α : Type} [DecidableEq α] {seen l : List α} :
    repeats seen l = [] ↔ l.Nodup ∧ ∀ x ∈ l, x ∉ seen := by
  induction l generalizing seen with
  | nil => simp [repeats]
  | cons x l ih =>
    rw [repeats]
    split
    case isTrue h => simp [h]
    case isFalse h =>
      rw [ih, nodup_cons]
      constructor
      · rintro ⟨hl, hseen⟩
        refine ⟨⟨fun hx => hseen x hx mem_cons_self, hl⟩, fun y hy => ?_⟩
        rcases mem_cons.mp hy with rfl | hy
        · exact h
        · exact fun hmem => hseen y hy (mem_cons_of_mem _ hmem)
      · rintro ⟨⟨hx, hl⟩, hseen⟩
        refine ⟨hl, fun y hy hmem => ?_⟩
        rcases mem_cons.mp hmem with rfl | hmem
        · exact hx hy
        · exact hseen y (mem_cons_of_mem _ hy) hmem

section

variable {α : Type} {key : α → String} {xs : List α}

/-- Where keys are distinct, what has a key is found by it. -/
theorem find?_eq_some_iff_of_nodup (h : (xs.map key).Nodup) {name : String} {x : α} :
    xs.find? (key · = name) = some x ↔ x ∈ xs ∧ key x = name := by
  constructor
  · intro hx
    exact ⟨mem_of_find?_eq_some hx, by simpa using List.find?_some hx⟩
  · rintro ⟨hx, rfl⟩
    have hsome : (xs.find? (key · = key x)).isSome := by
      rw [List.find?_isSome]
      exact ⟨x, hx, by simp⟩
    obtain ⟨y, hy⟩ := Option.isSome_iff_exists.mp hsome
    have hkey : key y = key x := by simpa using List.find?_some hy
    rw [hy, inj_on_of_nodup_map h (mem_of_find?_eq_some hy) hx hkey]

theorem find?_reverse_of_nodup (h : (xs.map key).Nodup) (name : String) :
    xs.reverse.find? (key · = name) = xs.find? (key · = name) := by
  have hreverse : (xs.reverse.map key).Nodup := by simpa using h
  ext x
  rw [find?_eq_some_iff_of_nodup h, find?_eq_some_iff_of_nodup hreverse, mem_reverse]

end

namespace Assembly

variable {a : Assembly}

theorem global?_isSome_iff {name : String} :
    (a.global? name).isSome = true ↔ ∃ g ∈ a.globals, g.name = name := by
  simp [global?, List.find?_isSome]

/-- No declaration clashes when the declared names are distinct, were not seen before and name no
global. -/
theorem clashingDeclarations_eq_nil_iff {seen names : List String} :
    a.clashingDeclarations seen names = [] ↔
      names.Nodup ∧ (∀ name ∈ names, name ∉ seen) ∧
        ∀ name ∈ names, ¬ ∃ g ∈ a.globals, g.name = name := by
  induction names generalizing seen with
  | nil => simp [clashingDeclarations]
  | cons name rest ih =>
    rw [clashingDeclarations, nodup_cons, forall_mem_cons, forall_mem_cons]
    split
    case isTrue h =>
      refine iff_of_false (by simp) fun ⟨_, hseen, hglobal⟩ => ?_
      exact h.elim hseen.1 fun hname => hglobal.1 (global?_isSome_iff.mp hname)
    case isFalse h =>
      obtain ⟨hseen, hglobal⟩ := not_or.mp h
      rw [global?_isSome_iff] at hglobal
      rw [ih]
      constructor
      · rintro ⟨hrest, hnew, hglobals⟩
        exact ⟨⟨fun hmem => hnew name hmem mem_cons_self, hrest⟩,
          ⟨hseen, fun x hx hmem => hnew x hx (mem_cons_of_mem _ hmem)⟩, hglobal, hglobals⟩
      · rintro ⟨⟨hname, hrest⟩, ⟨-, hnew⟩, -, hglobals⟩
        refine ⟨hrest, fun x hx hmem => ?_, hglobals⟩
        rcases mem_cons.mp hmem with rfl | hmem
        · exact hname hx
        · exact hnew x hx hmem

theorem symbolFaults_eq_nil_iff :
    a.symbolFaults = [] ↔ a.definedNames.Nodup ∧ (a.declarations.map (·.name)).Nodup ∧
      ∀ s ∈ a.declarations, ∀ g ∈ a.globals, s.name ≠ g.name := by
  rw [symbolFaults, append_eq_nil_iff, map_eq_nil_iff, map_eq_nil_iff,
    repeats_eq_nil_iff, clashingDeclarations_eq_nil_iff, forall_mem_map, forall_mem_map]
  simp [eq_comm]

theorem calledSignature?_eq (hdefined : a.definedNames.Nodup)
    (hdeclared : (a.declarations.map (·.name)).Nodup) (name : String) :
    a.calledSignature? name = a.signature? name := by
  rw [calledSignature?, signature?, function?, declaration?,
    find?_reverse_of_nodup (nodup_append.mp hdefined).2.1, find?_reverse_of_nodup hdeclared]

end Assembly

/-! ## The shape of blocks -/

theorem Block.isTerminated_iff {b : Block} :
    b.isTerminated = true ↔ ∃ inner t, b.instrs = inner ++ [t] ∧ t.isTerminator = true := by
  rw [isTerminated, terminator?, Option.isSome_iff_exists]
  simp only [Option.filter_eq_some_iff, List.getLast?_eq_some_iff]
  exact ⟨fun ⟨t, ⟨inner, hb⟩, ht⟩ => ⟨inner, t, hb, ht⟩, fun ⟨inner, t, hb, ht⟩ => ⟨t, ⟨inner, hb⟩, ht⟩⟩

theorem isTerminator_inner_iff {inner : List Instr} {t : Instr} :
    (∀ i k, (i, k) ∈ (inner ++ [t]).zipIdx → i.isTerminator = true → k = inner.length) ↔
      ∀ i ∈ inner, i.isTerminator = false := by
  constructor
  · intro h i hi
    obtain ⟨k, hk⟩ := mem_iff_getElem?.mp hi
    have hlt : k < inner.length := (List.getElem?_eq_some_iff.mp hk).1
    have hmem : (i, k) ∈ (inner ++ [t]).zipIdx := by
      rw [mem_zipIdx_iff_getElem?, List.getElem?_append_left hlt]
      exact hk
    exact Bool.eq_false_iff.mpr fun hterm => Nat.ne_of_lt hlt (h i k hmem hterm)
  · intro h i k hmem hterm
    rw [zipIdx_append, mem_append] at hmem
    rcases hmem with hmem | hmem
    · simp [h i (fst_mem_of_mem_zipIdx hmem)] at hterm
    · simpa using (Prod.mk.inj (mem_singleton.mp hmem)).2

theorem Block.forall_placed_iff {labels : List String} {b : Block} {inner : List Instr} {t : Instr}
    (hb : b.instrs = inner ++ [t]) :
    (∀ p ∈ b.instrs.zipIdx, (p.1.isTerminator = true → p.2 + 1 = b.instrs.length) ∧
      ∀ label ∈ p.1.successors, label ∈ labels) ↔
    (∀ i ∈ inner, i.isTerminator = false) ∧
      ∀ i ∈ b.instrs, ∀ label ∈ i.successors, label ∈ labels := by
  rw [← isTerminator_inner_iff (t := t), ← hb]
  constructor
  · intro h
    refine ⟨fun i k hmem hterm => ?_, fun i hi => ?_⟩
    · simpa [hb] using (h (i, k) hmem).1 hterm
    · obtain ⟨k, hk⟩ := mem_iff_getElem?.mp hi
      exact (h (i, k) (mem_zipIdx_iff_getElem?.mpr hk)).2
  · rintro ⟨hterms, htargets⟩ ⟨i, k⟩ hmem
    refine ⟨fun hterm => ?_, htargets i (fst_mem_of_mem_zipIdx hmem)⟩
    rw [hterms i k hmem hterm, hb]
    simp

theorem Block.shapeFaults_eq_nil_iff {name : String} {labels : List String} {b : Block} :
    b.shapeFaults name labels = [] ↔
      b.IsClosed ∧ ∀ i ∈ b.instrs, ∀ label ∈ i.successors, label ∈ labels := by
  have hend : (if b.isTerminated then ([] : List Fault) else [.missingTerminator name b.label]) = []
      ↔ b.isTerminated = true := by
    split <;> simp_all
  have hplaced : ∀ p : Instr × Nat, ((if p.1.isTerminator && p.2 + 1 != b.instrs.length then
        [Fault.misplacedTerminator name b.label p.2] else []) ++
        (p.1.successors.filter (· ∉ labels)).map (.unknownLabel name)) = [] ↔
      (p.1.isTerminator = true → p.2 + 1 = b.instrs.length) ∧
        ∀ label ∈ p.1.successors, label ∈ labels := by
    simp
  rw [shapeFaults, append_eq_nil_iff, flatMap_eq_nil_iff, hend, isTerminated_iff]
  simp only [hplaced]
  constructor
  · rintro ⟨⟨inner, t, hb, ht⟩, h⟩
    obtain ⟨hinner, htargets⟩ := (forall_placed_iff hb).mp h
    exact ⟨⟨inner, t, hb, ht, hinner⟩, htargets⟩
  · rintro ⟨⟨inner, t, hb, ht, hinner⟩, htargets⟩
    exact ⟨⟨inner, t, hb, ht⟩, (forall_placed_iff hb).mpr ⟨hinner, htargets⟩⟩

theorem Func.shapeFaults_eq_nil_iff {f : Func} :
    f.shapeFaults = [] ↔ f.labels.Nodup ∧ (∀ b ∈ f.blocks, b.IsClosed) ∧
      ∀ i ∈ f.instrs, ∀ label ∈ i.successors, label ∈ f.labels := by
  rw [shapeFaults, append_eq_nil_iff, map_eq_nil_iff, repeats_eq_nil_iff,
    flatMap_eq_nil_iff]
  simp only [Block.shapeFaults_eq_nil_iff, forall_and, instrs, forall_mem_flatMap]
  simp

/-! ## Registers -/

/-- What holds of every place in a list that is not empty: it holds of the first one, and of every
place in the rest. -/
theorem forall_split_cons {α : Type} {P : List α → α → Prop} {x : α} {l : List α} :
    (∀ above y below, x :: l = above ++ y :: below → P above y) ↔
      P [] x ∧ ∀ above y below, l = above ++ y :: below → P (x :: above) y := by
  constructor
  · exact fun h => ⟨h [] x l rfl, fun above y below hl => h (x :: above) y below (by rw [hl]; rfl)⟩
  · rintro ⟨hfirst, hrest⟩ above y below hl
    cases above with
    | nil =>
      obtain ⟨rfl, -⟩ := List.cons.inj hl
      exact hfirst
    | cons z above =>
      obtain ⟨rfl, htail⟩ := List.cons.inj hl
      exact hrest above y below htail

theorem Value.reg?_eq_some_iff {v : Value} {r : Reg} : v.reg? = some r ↔ v.op = .reg r := by
  unfold reg?
  split <;> simp_all

theorem Value.global?_eq_some_iff {v : Value} {name : String} :
    v.global? = some name ↔ v.op = .global name := by
  unfold global?
  split <;> simp_all

@[simp] theorem definedIn_nil (r : Reg) : ¬ DefinedIn [] r := by simp [DefinedIn]

theorem definedIn_cons {i : Instr} {code : List Instr} {r : Reg} :
    DefinedIn (i :: code) r ↔ i.dst? = some r ∨ DefinedIn code r := by
  simp [DefinedIn]

theorem undefined_eq_nil_iff {i : Instr} {defined : List Reg} :
    (i.operands.filterMap Value.reg?).filter (· ∉ defined) = [] ↔
      ∀ v ∈ i.operands, ∀ r, v.op = .reg r → r ∈ defined := by
  rw [filter_eq_nil_iff]
  simp only [mem_filterMap, Value.reg?_eq_some_iff, decide_not, Bool.not_eq_true,
    Bool.not_eq_false', decide_eq_true_eq]
  exact ⟨fun h v hv r hr => h r ⟨v, hv, hr⟩, fun h r ⟨v, hv, hr⟩ => h v hv r hr⟩

/-- Code has no fault of registers when its first instruction has none, and the rest has none with one
more register defined. -/
theorem registerFaults_cons_eq_nil_iff {name block : String} {defined : List Reg} {i : Instr}
    {rest : List (String × Instr)} :
    registerFaults name defined ((block, i) :: rest) = [] ↔
      (i.Continues (· ∈ defined)) ∧ registerFaults name (i.dst?.toList ++ defined) rest = [] := by
  rw [registerFaults, append_eq_nil_iff, map_eq_nil_iff, undefined_eq_nil_iff,
    Instr.Continues, and_assoc]
  refine and_congr_right fun _ => ?_
  cases i.dst? with
  | none => simp
  | some dst =>
    have hnew : (if dst ∈ defined then [Fault.registerRedefined name dst] else []) = [] ↔
        dst ∉ defined := by
      split <;> simp_all
    simp [hnew]

theorem registerFaults_eq_nil_iff {name : String} {defined : List Reg}
    {code : List (String × Instr)} :
    registerFaults name defined code = [] ↔
      ∀ above i below, code.map Prod.snd = above ++ i :: below →
        i.Continues fun r => r ∈ defined ∨ DefinedIn above r := by
  induction code generalizing defined with
  | nil => simp [registerFaults]
  | cons labelled rest ih =>
    obtain ⟨block, i⟩ := labelled
    -- Below, the register that is defined here counts as defined.
    have hbelow : ∀ above : List Instr, (fun r => r ∈ defined ∨ DefinedIn (i :: above) r) =
        fun r => r ∈ i.dst?.toList ++ defined ∨ DefinedIn above r := by
      intro above
      funext r
      simp [definedIn_cons, or_left_comm, or_assoc]
    rw [registerFaults_cons_eq_nil_iff, map_cons, forall_split_cons, ih]
    simp only [hbelow, definedIn_nil, or_false]

theorem Func.map_snd_labelledInstrs (f : Func) : f.labelledInstrs.map Prod.snd = f.instrs := by
  simp [labelledInstrs, instrs, map_flatMap, Function.comp_def]

theorem Func.registerFaults_eq_nil_iff {f : Func} :
    f.registerFaults = [] ↔ ∀ above i below, f.instrs = above ++ i :: below →
      i.Continues fun r => r ∈ f.paramRegs ∨ DefinedIn above r := by
  rw [registerFaults, Ir.registerFaults_eq_nil_iff, map_snd_labelledInstrs]

/-! ## Types, calls and references -/

theorem Ty.isInt_iff {ty : Ty} : ty.isInt = true ↔ ∃ bits, ty = .int bits := by
  cases ty <;> simp [isInt]

theorem CastOp.fits_iff {op : CastOp} {source target : Ty} :
    op.fits source target = true ↔ op.Converts source target := by
  constructor
  · intro h
    cases op <;> simp only [fits, Ty.isInt_iff, Bool.and_eq_true, Bool.or_eq_true,
      decide_eq_true_eq] at h
    case uitofp | sitofp =>
      obtain ⟨⟨bits, rfl⟩, rfl⟩ := h
      constructor
    case fptosi | ptrtoint =>
      obtain ⟨rfl, bits, rfl⟩ := h
      constructor
    case bitcast =>
      obtain (⟨rfl, rfl⟩ | ⟨rfl, rfl⟩) | rfl := h
      · exact .bitsOfNumber
      · exact .numberOfBits
      · exact .sameType source
    case inttoptr =>
      obtain ⟨⟨bits, rfl⟩, rfl⟩ := h
      constructor
    case zext | trunc =>
      obtain ⟨⟨bits, rfl⟩, bits', rfl⟩ := h
      constructor
  · intro h
    cases h <;> simp [fits, Ty.isInt]

theorem Instr.expected?_eq_none_iff {ret : Ty} {i : Instr} :
    i.expected? ret = none ↔ i.WellTyped ret := by
  cases i with
  | ret value => cases value <;> simp [expected?, WellTyped]
  | binary dst op lhs rhs => cases hop : op.isFloat <;> simp [expected?, WellTyped, hop, Ty.isInt_iff]
  | icmp dst pred lhs rhs =>
    rw [expected?, WellTyped, ← Ty.isInt_iff]
    split
    case isTrue h => exact iff_of_true rfl h
    case isFalse h => exact iff_of_false (by simp) h
  | _ => simp [expected?, WellTyped, Ty.isInt_iff, CastOp.fits_iff]

theorem callFaults_eq_nil_iff {function callee : String} {signature : Option Signature} {i : Instr}
    {ret : Ty} {args : List Value} :
    callFaults function signature i ret callee args = [] ↔
      ∃ s, signature = some s ∧ s.params = args.map (·.ty) ∧ s.ret = ret := by
  cases signature with
  | none => simp [callFaults]
  | some s =>
    by_cases hlength : s.params.length = args.length
    · by_cases hsame : s.params = args.map (·.ty) ∧ s.ret = ret <;>
        simp [callFaults, hlength, hsame]
    · -- Without one type for each argument the types differ.
      have hparams : s.params ≠ args.map (·.ty) := fun heq => hlength (by rw [heq, length_map])
      simp [callFaults, hlength, hparams]

namespace Assembly

variable {a : Assembly} {f : Func}

theorem typeFaults_of_callee?_eq_none {i : Instr} (h : i.callee? = none) :
    a.typeFaults f i = ((i.expected? f.ret).map (.typeMismatch f.name i.text)).toList := by
  cases i with
  | call => simp [Instr.callee?] at h
  | _ =>
    rw [typeFaults]
    · cases Instr.expected? f.ret _ <;> rfl
    · simp

/-- An instruction has no fault of types when it keeps its rule and, if it is a call, keeps to the
signature that it is held to. -/
theorem typeFaults_eq_nil_iff {i : Instr} :
    a.typeFaults f i = [] ↔ i.WellTyped f.ret ∧ ∀ dst ret callee args,
      i = .call dst ret callee args → ∃ s, a.calledSignature? callee = some s ∧
        s.params = args.map (·.ty) ∧ s.ret = ret := by
  cases hcallee : i.callee? with
  | none =>
    have hcall : ∀ dst ret callee args, i ≠ .call dst ret callee args := by
      rintro dst ret callee args rfl
      simp [Instr.callee?] at hcallee
    rw [typeFaults_of_callee?_eq_none hcallee, Option.toList_eq_nil_iff, Option.map_eq_none_iff,
      Instr.expected?_eq_none_iff]
    exact (and_iff_left fun dst ret callee args heq => absurd heq (hcall _ _ _ _)).symm
  | some callee =>
    cases i with
    | call dst ret callee args =>
      rw [typeFaults, callFaults_eq_nil_iff]
      constructor
      · intro h
        refine ⟨trivial, fun dst' ret' callee' args' heq => ?_⟩
        obtain ⟨-, rfl, rfl, rfl⟩ := Instr.call.inj heq
        exact h
      · exact fun h => h.2 dst ret callee args rfl
    | _ => simp [Instr.callee?] at hcallee

theorem referenceFaults_eq_nil_iff {i : Instr} :
    a.referenceFaults f i = [] ↔ ∀ v ∈ i.operands, ∀ name, v.op = .global name →
      ∃ g ∈ a.globals, g.name = name := by
  rw [referenceFaults, map_eq_nil_iff, filter_eq_nil_iff]
  simp only [mem_filterMap, Value.global?_eq_some_iff, decide_not, Bool.not_eq_true,
    Bool.not_eq_false', decide_eq_true_eq, mem_map]
  exact ⟨fun h v hv name hname => h name ⟨v, hv, hname⟩,
    fun h name ⟨v, hv, hname⟩ => h v hv name hname⟩

theorem functionFaults_eq_nil_iff (hdefined : a.definedNames.Nodup)
    (hdeclared : (a.declarations.map (·.name)).Nodup) :
    a.functionFaults f = [] ↔ f.Conforms a := by
  rw [functionFaults, append_eq_nil_iff, append_eq_nil_iff, Func.shapeFaults_eq_nil_iff,
    Func.registerFaults_eq_nil_iff, flatMap_eq_nil_iff]
  simp only [append_eq_nil_iff, typeFaults_eq_nil_iff, referenceFaults_eq_nil_iff,
    calledSignature?_eq hdefined hdeclared]
  constructor
  · rintro ⟨⟨⟨hlabels, hclosed, htargets⟩, hregisters⟩, hinstrs⟩
    exact ⟨hlabels, hclosed, htargets, hregisters, fun i hi => (hinstrs i hi).2,
      fun i hi => (hinstrs i hi).1.1,
      fun dst ret callee args hi => (hinstrs _ hi).1.2 dst ret callee args rfl⟩
  · intro h
    refine ⟨⟨⟨h.labels, h.closed, h.targets⟩, h.registers⟩, fun i hi => ⟨⟨h.types i hi, ?_⟩,
      h.globals i hi⟩⟩
    rintro dst ret callee args rfl
    exact h.calls dst ret callee args hi

/-- The check accepts exactly the assemblies that conform to the rules. -/
theorem check_valid_iff (a : Assembly) : (a.check false).valid = true ↔ a.Conforms := by
  have hvalid : (a.check false).valid = true ↔
      a.symbolFaults = [] ∧ ∀ f ∈ a.functions, a.functionFaults f = [] := by
    simp [check, faults]
  rw [hvalid, symbolFaults_eq_nil_iff]
  constructor
  · rintro ⟨⟨hdefined, hdeclared, hapart⟩, hfunctions⟩
    exact ⟨hdefined, hdeclared, hapart, fun f hf =>
      (functionFaults_eq_nil_iff hdefined hdeclared).mp (hfunctions f hf)⟩
  · intro h
    exact ⟨⟨h.defined, h.declared, h.apart⟩, fun f hf =>
      (functionFaults_eq_nil_iff h.defined h.declared).mpr (h.functions f hf)⟩

end Assembly

end ScriptCompiler.Ir
