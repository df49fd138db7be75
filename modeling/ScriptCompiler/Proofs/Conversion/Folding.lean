import Mathlib.Algebra.Group.Int.Defs
import ScriptCompiler.Proofs.Conversion.Meaning

/-!
# Conversions that are left out

A conversion that is left out is replaced by a constant or by the operand of the conversion that it
undoes. The replacement stands for what the conversion gives (`Valuation.denotes_cast`) as long as the
widths are right (`Builder.FoldsExactly`): a constant is taken as a signed or unsigned integer of 64
bits, whatever the width of its type, and a truth value by whether it is zero; and an address that was
made an integer, or an integer that was made an address, is taken back as if no bit had been lost on
the way. Otherwise it may stand for something else (`denotes_sitofp_true`).

Bits that are read at another type come back as they were, and so does an integer that was widened.
-/

namespace ScriptCompiler.Ir

/-- What a conversion replaces its operand by is exact as far as widths go, on a machine whose
addresses have `p` bits. -/
structure Builder.FoldsExactly (p : Nat) (b : Builder) (op : CastOp) (v : Value) (target : Ty) :
    Prop where
  /-- A constant that is read as signed is in the range of its type. -/
  signed : ∀ n c, op = .sitofp → v = .int (.int n) c →
    -(2 ^ n : Int) ≤ 2 * c.toInt ∧ 2 * c.toInt < 2 ^ n
  /-- So is one that is read as unsigned. At 64 bits every constant is. -/
  unsigned : ∀ n c, op = .uitofp → v = .int (.int n) c → n ≠ 1 → n ≠ 64 →
    0 ≤ c.toInt ∧ c.toInt < 2 ^ n
  /-- A truth value is zero or odd. -/
  truth : ∀ c, op = .uitofp ∨ op = .zext → v = .int .bool c → c ≠ 0 → c.toInt % 2 = 1
  /-- An integer that was an address has all of its bits. -/
  wide : ∀ n r u, op = .inttoptr → v = .reg r (.int n) → b.casts.lookup r = some (.ptrtoint, u) →
    p ≤ n
  /-- An address that was an integer has all of its bits. -/
  narrow : ∀ n r u, op = .ptrtoint → v = .reg r .ptr → b.casts.lookup r = some (.inttoptr, u) →
    u.ty = .int n → target = .int n → n ≤ p

/-- Integer constants are read modulo a power of two. -/
def Valuation.IsModular {p : Nat} (V : Valuation p) : Prop :=
  V.constant = fun n c => BitVec.ofInt n c.toInt

/-- A conversion is replaced by what is exact under a valuation. -/
structure Valuation.Exact {p : Nat} (V : Valuation p) (b : Builder) (op : CastOp) (v : Value)
    (target : Ty) : Prop where
  signed : ∀ n c, op = .sitofp → v = .int (.int n) c → (V.constant n c).toInt = c.toInt
  unsigned : ∀ n c, op = .uitofp → v = .int (.int n) c → n ≠ 1 →
    (V.constant n c).toNat = c.toUInt64.toNat
  truth : ∀ c, op = .uitofp ∨ op = .zext → v = .int .bool c →
    V.constant 1 c = if c ≠ 0 then 1 else 0
  wide : ∀ n r u, op = .inttoptr → v = .reg r (.int n) → b.casts.lookup r = some (.ptrtoint, u) →
    p ≤ n
  narrow : ∀ n r u, op = .ptrtoint → v = .reg r .ptr → b.casts.lookup r = some (.inttoptr, u) →
    u.ty = .int n → target = .int n → n ≤ p

section

variable {p : Nat} {V : Valuation p} {b : Builder} {op : CastOp} {v w : Value} {target : Ty}
  {x y : Content p}

/-- Only a number that is made an integer may become one thing or another. -/
theorem CastOp.Gives.unique {y' : Content p} (h : op.Gives x target y) (h' : op.Gives x target y')
    (hop : op ≠ .fptosi) : y' = y := by
  cases h with
  | fptosi => exact absurd rfl hop
  | sameType hty =>
    cases h' with
    | sameType => rfl
    | numberOfBits | bitsOfNumber => simp [Content.ty] at hty
  | numberOfBits | bitsOfNumber =>
    cases h' with
    | sameType hty => simp [Content.ty] at hty
    | _ => rfl
  | _ =>
    cases h'
    rfl

/-! ## Constants -/

/-- A constant stands for what the conversion gives that it is the result of. -/
theorem Valuation.denotes_foldConstant (hplain : V.Plain) (hexact : V.Exact b op v target)
    (hw : foldConstant? op v target = some w) (hx : V.denotes v = some x)
    (hy : op.Gives x target y) : V.denotes w = some y := by
  unfold foldConstant? at hw
  cases op <;> cases hop : v.op <;> rw [hop] at hw <;> dsimp only at hw
  case sitofp.int c =>
    obtain ⟨n, rfl, rfl⟩ := eq_int_of_denotes hop hx
    obtain rfl := Option.some.inj hw
    cases hy
    rw [hexact.signed n c rfl rfl]
    rfl
  case uitofp.int c =>
    obtain ⟨n, rfl, rfl⟩ := eq_int_of_denotes hop hx
    cases hy
    split at hw
    case isTrue hbool =>
      obtain rfl : n = 1 := Ty.int.inj hbool
      obtain rfl := Option.some.inj hw
      rw [hexact.truth c (.inl rfl) rfl]
      split_ifs <;> rfl
    case isFalse hbool =>
      obtain rfl := Option.some.inj hw
      rw [hexact.unsigned n c rfl rfl fun hn => hbool (congrArg Ty.int hn)]
      rfl
  case bitcast.float d =>
    obtain ⟨ty, op⟩ := v
    obtain rfl : op = .float d := hop
    split_ifs at hw with htarget
    subst htarget
    obtain rfl := Option.some.inj hw
    cases ty with
    | double =>
      obtain rfl := Option.some.inj hx
      cases hy with
      | sameType hty => simp [Content.ty] at hty
      | bitsOfNumber =>
        show some (Content.int 64 (V.constant 64 d.bits.toInt64)) = _
        rw [hplain.word]
        rfl
    | _ => simp [denotes] at hx
  case bitcast.int c =>
    obtain ⟨n, rfl, rfl⟩ := eq_int_of_denotes hop hx
    split_ifs at hw with htarget
    subst htarget
    obtain rfl := Option.some.inj hw
    cases hy with
    | sameType hty => simp [Content.ty] at hty
    | numberOfBits =>
      rw [hplain.word]
      rfl
  case ptrtoint.null =>
    obtain rfl := Option.some.inj hw
    obtain ⟨ty, op⟩ := v
    obtain rfl : op = .null := hop
    cases ty with
    | ptr =>
      obtain rfl := Option.some.inj hx
      cases hy with
      | ptrtoint a n =>
        rw [denotes_int, hplain.zero]
        simp
    | _ => simp [denotes] at hx
  case inttoptr.int c =>
    split_ifs at hw with hzero
    subst hzero
    obtain rfl := Option.some.inj hw
    obtain ⟨n, rfl, rfl⟩ := eq_int_of_denotes hop hx
    cases hy
    rw [hplain.zero]
    simp [denotes, Value.null]
  case zext.int c =>
    obtain ⟨n, rfl, rfl⟩ := eq_int_of_denotes hop hx
    split at hw
    case isFalse => simp at hw
    case isTrue hbool =>
      obtain rfl : n = 1 := Ty.int.inj hbool
      obtain rfl := Option.some.inj hw
      cases hy with
      | @zext n m w wider =>
        rw [denotes_int, hexact.truth c (.inr rfl) rfl]
        split_ifs with hc
        · rw [hplain.one]
          refine congrArg (some ∘ Content.int m) (BitVec.eq_of_toNat_eq ?_)
          simp only [BitVec.toNat_setWidth, BitVec.ofNat_eq_ofNat, BitVec.toNat_ofNat]
        · rw [hplain.zero]
          simp
  all_goals cases hw

/-! ## Conversions that undo others -/

theorem Builder.undone?_eq (h : b.undone? op v target = some w) :
    ∃ r source, v.op = .reg r ∧ b.casts.lookup r = some (source, w) ∧ source.inverse? = some op ∧
      w.ty = target := by
  simp only [Builder.undone?, Option.bind_eq_bind, Option.bind_eq_some_iff] at h
  obtain ⟨r, hr, ⟨source, operand⟩, hlookup, h⟩ := h
  split_ifs at h with hinverse
  obtain rfl := Option.some.inj h
  refine ⟨r, source, ?_, hlookup, hinverse⟩
  unfold Value.reg? at hr
  split at hr
  case h_1 hop => rw [hop, Option.some.inj hr]
  case h_2 => simp at hr

theorem setWidth_setWidth_self {n m : Nat} (h : n ≤ m) (w : BitVec n) :
    (w.setWidth m).setWidth n = w := by
  rw [BitVec.setWidth_setWidth_of_le _ h, BitVec.setWidth_eq]

theorem Valuation.denotes_undone (hb : b.OnRecord) (hagrees : V.Agrees b.func.instrs)
    (hexact : V.Exact b op v target) (hw : b.undone? op v target = some w)
    (hx : V.denotes v = some x) (hy : op.Gives x target y) : V.denotes w = some y := by
  obtain ⟨r, source, hop, hlookup, hinverse, hty⟩ := Builder.undone?_eq hw
  obtain ⟨t, ht⟩ := hb.casts r source w (Lowering.Stage.mem_of_lookup hlookup)
  obtain ⟨z, hz, hgives⟩ := hagrees r source w t ht
  rw [eq_reg_of_denotes hop hx] at hgives
  have hztarget : z.ty = target := (ty_of_denotes hz).trans hty
  have hv : v = .reg r x.ty := by
    rw [ty_of_denotes hx, Value.reg, ← hop]
  suffices y = z by rw [this]; exact hz
  cases source with
  | bitcast =>
    obtain rfl : op = .bitcast := by simpa [CastOp.inverse?] using hinverse.symm
    cases hgives with
    | sameType => exact hy.unique (.sameType hztarget) (by decide) |>.symm
    | numberOfBits | bitsOfNumber =>
      subst hztarget
      cases hy with
      | sameType h => simp [Content.ty] at h
      | _ => rfl
  | ptrtoint =>
    obtain rfl : op = .inttoptr := by simpa [CastOp.inverse?] using hinverse.symm
    cases hgives with
    | ptrtoint a n =>
      cases hy
      rw [setWidth_setWidth_self (hexact.wide n r w rfl hv hlookup)]
  | inttoptr =>
    obtain rfl : op = .ptrtoint := by simpa [CastOp.inverse?] using hinverse.symm
    cases hgives with
    | @inttoptr n bits =>
      subst hztarget
      cases hy
      have hnarrow := hexact.narrow n r w rfl hv hlookup (ty_of_denotes hz).symm rfl
      rw [setWidth_setWidth_self hnarrow]
  | zext =>
    obtain rfl : op = .trunc := by simpa [CastOp.inverse?] using hinverse.symm
    cases hgives with
    | @zext n m bits wider =>
      subst hztarget
      cases hy
      rw [setWidth_setWidth_self (Nat.le_of_lt wider)]
  | _ => simp [CastOp.inverse?] at hinverse

/-! ## All conversions -/

theorem Valuation.exists_denotes_cast (hplain : V.Plain) (hb : b.OnRecord)
    (hexact : V.Exact b op v target) (hagrees : V.Agrees (Emit.cast op v target b).2.func.instrs)
    (hx : V.denotes v = some x) (hy : op.Gives x target y) :
    ∃ y', V.denotes (Emit.cast op v target b).1 = some y' ∧ op.Gives x target y' := by
  rcases b.cast_eq op v target with ⟨hty, rfl, heq⟩ | ⟨w, hw, heq⟩ | ⟨w, hw, heq⟩ | heq <;>
    rw [heq] at hagrees ⊢
  · exact ⟨x, hx, .sameType ((ty_of_denotes hx).trans hty)⟩
  · exact ⟨y, denotes_foldConstant hplain hexact hw hx hy, hy⟩
  · exact ⟨y, denotes_undone hb hagrees hexact hw hx hy, hy⟩
  · -- The register that is defined holds what the conversion gives of its operand.
    obtain ⟨z, hz, hgives⟩ := hagrees _ op v target (hb.taken.mem_push _)
    obtain rfl := Option.some.inj (hx.symm.trans hz)
    exact ⟨_, denotes_reg hgives.ty_eq, hgives⟩

/-! ## Constants modulo a power of two -/

theorem Valuation.IsModular.plain (hV : V.IsModular) : V.Plain := by
  unfold IsModular at hV
  constructor <;> intros <;> rw [hV]
  · simp
  · simp
  · exact BitVec.ofInt_toInt

theorem toNat_toUInt64 {c : Int64} (h : 0 ≤ c.toInt) : (c.toUInt64.toNat : Int) = c.toInt := by
  rw [← UInt64.toNat_toBitVec, Int64.toBitVec_toUInt64]
  rw [← Int64.toInt_toBitVec] at h ⊢
  rw [BitVec.toInt_eq_toNat_of_msb]
  simpa [BitVec.msb_eq_toInt] using h

theorem Builder.FoldsExactly.exact (h : b.FoldsExactly p op v target) (hV : V.IsModular) :
    V.Exact b op v target where
  signed := by
    intro n c hop hv
    obtain ⟨hlow, hhigh⟩ := h.signed n c hop hv
    rw [hV, BitVec.toInt_ofInt]
    refine Int.bmod_eq_of_le_mul_two ?_ ?_ <;> push_cast <;> omega
  unsigned := by
    intro n c hop hv hn
    by_cases hwidth : n = 64
    · subst hwidth
      rw [hV.plain.word, ← UInt64.toNat_toBitVec, Int64.toBitVec_toUInt64]
    · obtain ⟨hlow, hhigh⟩ := h.unsigned n c hop hv hn hwidth
      have hword := toNat_toUInt64 hlow
      rw [hV, BitVec.toNat_ofInt, Int.emod_eq_of_lt hlow (by push_cast; exact hhigh)]
      omega
  truth := by
    intro c hop hv
    rw [hV]
    apply BitVec.eq_of_toNat_eq
    rw [BitVec.toNat_ofInt]
    split_ifs with hc
    · simp [h.truth c hop hv hc]
    · rw [not_not.mp hc]
      simp
  wide := h.wide
  narrow := h.narrow

/-- What a conversion is replaced by stands for what the conversion gives, for all builders that
operations lead to, all conversions that mean something, and all valuations that agree with the code
and read constants modulo a power of two, if the widths are right. -/
theorem Valuation.denotes_cast (hb : b.Reached) (hexact : b.FoldsExactly p op v target)
    (hV : V.IsModular) (hagrees : V.Agrees (Emit.cast op v target b).2.func.instrs)
    (hx : V.denotes v = some x) (hy : op.Gives x target y) :
    ∃ y', V.denotes (Emit.cast op v target b).1 = some y' ∧ op.Gives x target y' ∧
      (op ≠ .fptosi → y' = y) := by
  obtain ⟨y', hdenotes, hgives⟩ :=
    exists_denotes_cast hV.plain hb.onRecord (hexact.exact hV) hagrees hx hy
  exact ⟨y', hdenotes, hgives, hy.unique hgives⟩

end

/-- A function of one address, which is made an integer. -/
def handingBack : Builder :=
  (Emit.cast .ptrtoint (.reg 0 .ptr) .i64 (.ofFunc (.skeleton "f" .void [.ptr]))).2

/-- Every register holds the address 7, but the second one holds it as an integer. -/
def atSeven : Valuation 64 where
  constant n c := BitVec.ofInt n c.toInt
  address _ := 0
  reg r := if r = 1 then .int 64 7 else .address 7

/-- The integer is made the address again that it was. -/
theorem denotes_cast_handingBack :
    handingBack.Reached ∧ (Emit.cast .inttoptr (.reg 1 .i64) .ptr handingBack).1 = .reg 0 .ptr ∧
      ∃ y', atSeven.denotes (Emit.cast .inttoptr (.reg 1 .i64) .ptr handingBack).1 = some y' ∧
        CastOp.Gives .inttoptr (.int 64 7 : Content 64) .ptr y' ∧
          (CastOp.inttoptr ≠ .fptosi → y' = .address 7) := by
  have hreached : handingBack.Reached :=
    ⟨_, by decide, .single (.cast _ .ptrtoint (.reg 0 .ptr) .i64)⟩
  refine ⟨hreached, by decide, Valuation.denotes_cast hreached ?_ rfl ?_ rfl (.inttoptr 7)⟩
  · constructor
    case wide =>
      intro n r u _ hv _
      obtain rfl : (64 : Nat) = n := Ty.int.inj (congrArg Value.ty hv)
      exact Nat.le_refl 64
    all_goals simp
  · have hcode : (Emit.cast .inttoptr (.reg 1 .i64) .ptr handingBack).2.func.instrs =
        [.cast 1 .ptrtoint (.reg 0 .ptr) .i64] := by decide
    rw [hcode]
    intro dst op v target hmem
    obtain ⟨rfl, rfl, rfl, rfl⟩ := Instr.cast.inj (List.mem_singleton.mp hmem)
    exact ⟨.address 7, rfl, .ptrtoint 7 64⟩

/-- The truth value true is −1 as a signed integer, but is replaced by the number 1. -/
theorem denotes_sitofp_true :
    (Builder.ofFunc (.skeleton "f" .void [])).Reached ∧ CastOp.sitofp.fits .bool .double = true ∧
      atSeven.IsModular ∧
      atSeven.Agrees (Emit.cast .sitofp (.bool true) .double
        (.ofFunc (.skeleton "f" .void []))).2.func.instrs ∧
      atSeven.denotes (.bool true) = some (.int 1 1) ∧
      CastOp.Gives .sitofp (.int 1 1 : Content 64) .double (.double (.ofInt (-1))) ∧
      atSeven.denotes (Emit.cast .sitofp (.bool true) .double
        (.ofFunc (.skeleton "f" .void []))).1 = some (.double .one) ∧
      Double.ofInt (-1) ≠ .one := by
  have hcode : (Emit.cast .sitofp (.bool true) .double
      (.ofFunc (.skeleton "f" .void []))).2.func.instrs = [] := by decide
  refine ⟨⟨_, by decide, .refl⟩, by decide, rfl, ?_, rfl, .sitofp 1, rfl, by decide⟩
  rw [hcode]
  intro dst op v target hmem
  simp at hmem

end ScriptCompiler.Ir
