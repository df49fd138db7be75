import ScriptCompiler.Proofs.Conversion.Folding
import ScriptCompiler.Proofs.Stage.Basic

/-!
# Values that cross calls and lists

A value crosses a call as a word of 64 bits and is read there at the kind that its use asks for; and it
passes through an element of a list as a number with the same bits. On a machine with addresses of 64
bits nothing is lost on either way, and the two agree (`Valuation.transport`): the word is that of the
value, or of 0 or 1 for a truth value.

`Delivers` says of a step of the builder what its result stands for under every valuation that agrees
with the code in the end.
-/

namespace ScriptCompiler

open Ir Lowering

namespace Ir

/-- A truth value as a number; all else stays. -/
def Content.widened : Content 64 → Content 64
  | .int 1 truth => .double (if truth = 0 then .zero else .one)
  | x => x

/-- The bits of what a register holds. -/
def Content.bits : Content 64 → BitVec 64
  | .int _ w => w.setWidth 64
  | .double d => d.bits.toBitVec
  | .address a => a

/-- What a word is when it is read at a kind. -/
def Content.ofBits (w : BitVec 64) : Kind → Content 64
  | .scalar => .double ⟨⟨w⟩⟩
  | .packed => .int 64 w
  | .tracked | .list | .text | .struct _ => .address w

/-- Constants are read as they are written: a truth value is true unless it is zero. -/
structure Valuation.IsWritten (V : Valuation 64) : Prop extends V.Plain where
  truth : ∀ c, V.constant 1 c = if c ≠ 0 then 1 else 0

/-- A value on its way into a word has the bits of the word. -/
def Valuation.Holds (V : Valuation 64) (bits : BitVec 64) : Slot → Prop
  | .number v => V.denotes v = some (.double ⟨⟨bits⟩⟩)
  | .pointer p => V.denotes p = some (.address bits)
  | .word w => V.denotes w = some (.int 64 bits)

/-- A step of the builder adds code, and `Q` holds of its result if the valuation agrees with the
code. -/
def Delivers {α : Type} (V : Valuation 64) (e : Emit α) (Q : α → Prop) : Prop :=
  ∀ b : Builder, b.OnRecord → (e b).2.OnRecord ∧ b.func.instrs ⊆ (e b).2.func.instrs ∧
    (V.Agrees (e b).2.func.instrs → Q (e b).1)

namespace Delivers

variable {α β : Type} {V : Valuation 64} {e : Emit α} {Q R : α → Prop}

theorem pure {a : α} (h : Q a) : Delivers V (pure a) Q :=
  fun _ hb => ⟨hb, List.Subset.refl _, fun _ => h⟩

theorem bind {f : α → Emit β} {R : β → Prop} (h : Delivers V e Q)
    (k : ∀ a, Delivers V (f a) fun c => Q a → R c) : Delivers V (e >>= f) R := by
  intro b hb
  obtain ⟨hrecord, hcode, hQ⟩ := h b hb
  obtain ⟨hrecord', hcode', hR⟩ := k (e b).1 (e b).2 hrecord
  exact ⟨hrecord', List.Subset.trans hcode hcode', fun hagrees =>
    hR hagrees (hQ (hagrees.mono hcode'))⟩

theorem mono (h : Delivers V e Q) (hQ : ∀ a, Q a → R a) : Delivers V e R := by
  intro b hb
  obtain ⟨hrecord, hcode, hdelivers⟩ := h b hb
  exact ⟨hrecord, hcode, fun hagrees => hQ _ (hdelivers hagrees)⟩

end Delivers

/-! ## What is of a type -/

section

variable {x : Content 64}

theorem Content.exists_int {n : Nat} (h : x.ty = .int n) : ∃ w, x = .int n w := by
  cases x with
  | int m w =>
    obtain rfl := Ty.int.inj h
    exact ⟨w, rfl⟩
  | double | address => simp [Content.ty] at h

theorem Content.exists_double (h : x.ty = .double) : ∃ d, x = .double d := by
  cases x with
  | double d => exact ⟨d, rfl⟩
  | int | address => simp [Content.ty] at h

theorem Content.exists_address (h : x.ty = .ptr) : ∃ a, x = .address a := by
  cases x with
  | address a => exact ⟨a, rfl⟩
  | int | double => simp [Content.ty] at h

end

section

variable {V : Valuation 64} {v : Value}

/-! ## Conversions -/

theorem delivers_cast {op : CastOp} {target : Ty} (hV : V.Plain) (hop : op ≠ .fptosi) :
    Delivers V (Emit.cast op v target) fun w => ∀ x y, V.denotes v = some x →
      (∀ b, V.Exact b op v target) → op.Gives x target y → V.denotes w = some y := by
  intro b hb
  refine ⟨hb.cast op v target, b.subset_cast op v target, fun hagrees x y hx hexact hy => ?_⟩
  obtain ⟨y', hdenotes, hgives⟩ := Valuation.exists_denotes_cast hV hb (hexact b) hagrees hx hy
  rw [hdenotes, hy.unique hgives hop]

theorem delivers_bitcast {target : Ty} (hV : V.Plain) :
    Delivers V (Emit.cast .bitcast v target) fun w =>
      ∀ x y, V.denotes v = some x → CastOp.Gives .bitcast x target y → V.denotes w = some y :=
  (delivers_cast hV (by simp)).mono fun w hw x y hx hy =>
    hw x y hx (fun b => by constructor <;> simp) hy

theorem delivers_ptrtoint (hV : V.Plain) :
    Delivers V (Emit.cast .ptrtoint v .i64) fun w =>
      ∀ a, V.denotes v = some (.address a) → V.denotes w = some (.int 64 a) := by
  refine (delivers_cast hV (by simp)).mono fun w hw a ha => ?_
  refine hw _ _ ha (fun b => ?_) (by simpa using CastOp.Gives.ptrtoint a 64)
  constructor
  case narrow =>
    intro n r u _ _ _ _ htarget
    exact Nat.le_of_eq (Ty.int.inj htarget).symm
  all_goals simp

theorem delivers_inttoptr (hV : V.Plain) :
    Delivers V (Emit.cast .inttoptr v .ptr) fun u =>
      ∀ w, V.denotes v = some (.int 64 w) → V.denotes u = some (.address w) := by
  refine (delivers_cast hV (by simp)).mono fun u hu w hw => ?_
  refine hu _ _ hw (fun b => ?_) (by simpa using CastOp.Gives.inttoptr (p := 64) w)
  constructor
  case wide =>
    rintro n r u - rfl -
    exact Nat.le_of_eq (Ty.int.inj (Valuation.ty_of_denotes hw))
  all_goals simp

theorem ofNat_truth :
    ∀ truth : BitVec 1, Double.ofNat truth.toNat = if truth = 0 then .zero else .one := by
  decide

theorem delivers_uitofp (hV : V.IsWritten) :
    Delivers V (Emit.cast .uitofp v .double) fun w => ∀ truth,
      V.denotes v = some (.int 1 truth) →
        V.denotes w = some (.double (if truth = 0 then .zero else .one)) := by
  refine (delivers_cast hV.toPlain (by simp)).mono fun w hw truth htruth => ?_
  refine hw _ _ htruth (fun b => ?_) (ofNat_truth truth ▸ .uitofp truth)
  constructor
  case unsigned =>
    rintro n c - rfl hn
    exact absurd (Ty.int.inj (Valuation.ty_of_denotes htruth)).symm hn
  case truth => exact fun c _ _ => hV.truth c
  all_goals simp

/-! ## Words -/

theorem delivers_unpack (hV : V.Plain) (kind : Kind) :
    Delivers V (unpack v kind) fun u => u.kind = kind ∧
      ∀ w, V.denotes v = some (.int 64 w) → V.denotes u.value = some (.ofBits w kind) := by
  cases kind with
  | scalar =>
    refine (delivers_bitcast hV).bind fun u => .pure fun hu => ⟨rfl, fun w hw => ?_⟩
    exact hu _ _ hw (.numberOfBits w)
  | packed => exact .pure ⟨rfl, fun w hw => hw⟩
  | tracked | list | text | struct =>
    exact (delivers_inttoptr hV).bind fun u => .pure fun hu => ⟨rfl, hu⟩

theorem bits_word (w : BitVec 64) : (Content.int 64 w).widened.bits = w := BitVec.setWidth_eq w

variable {v : Typed} {x : Content 64}

theorem delivers_toScalar_of_scalar (hV : V.IsWritten) (hkind : v.kind = .scalar)
    (hfits : v.kind.Fits v.value.ty) :
    Delivers V (toScalar v) fun w => ∀ x, V.denotes v.value = some x →
      V.denotes w = some (.double ⟨⟨x.widened.bits⟩⟩) := by
  unfold toScalar
  rw [hkind] at hfits ⊢
  dsimp only
  split
  case isTrue hbool =>
    refine (delivers_uitofp hV).mono fun w hw x hx => ?_
    obtain ⟨truth, rfl⟩ := Content.exists_int ((Valuation.ty_of_denotes hx).trans hbool)
    exact hw truth hx
  case isFalse hbool =>
    refine .pure fun x hx => ?_
    have hdouble := hfits.resolve_left hbool
    obtain ⟨d, rfl⟩ := Content.exists_double ((Valuation.ty_of_denotes hx).trans hdouble)
    exact hx

theorem delivers_toScalar (hV : V.IsWritten) (hfits : v.kind.Fits v.value.ty)
    (hne : v.kind ≠ .tracked) :
    Delivers V (toScalar v) fun w =>
      ∀ x, V.denotes v.value = some x → V.denotes w = some (.double ⟨⟨x.widened.bits⟩⟩) := by
  obtain ⟨value, kind⟩ := v
  cases kind with
  | tracked => exact absurd rfl hne
  | scalar => exact delivers_toScalar_of_scalar hV rfl hfits
  | packed =>
    refine (delivers_bitcast hV.toPlain).mono fun u hu x hx => ?_
    obtain ⟨w, rfl⟩ := Content.exists_int ((Valuation.ty_of_denotes hx).trans hfits)
    rw [bits_word]
    exact hu _ _ hx (.numberOfBits w)
  | list | text | struct =>
    refine (delivers_ptrtoint hV.toPlain).bind fun bits => ?_
    refine (delivers_bitcast hV.toPlain).mono fun w hw hbits x hx => ?_
    obtain ⟨a, rfl⟩ := Content.exists_address ((Valuation.ty_of_denotes hx).trans hfits)
    exact hw _ _ (hbits a hx) (.numberOfBits a)

theorem delivers_ofTyped (hV : V.IsWritten) (hfits : v.kind.Fits v.value.ty) :
    Delivers V (Slot.ofTyped v) fun slot =>
      ∀ x, V.denotes v.value = some x → V.Holds x.widened.bits slot := by
  obtain ⟨value, kind⟩ := v
  cases kind with
  | scalar =>
    exact (delivers_toScalar_of_scalar hV rfl hfits).bind fun number => .pure fun hnumber => hnumber
  | packed =>
    refine .pure fun x hx => ?_
    obtain ⟨w, rfl⟩ := Content.exists_int ((Valuation.ty_of_denotes hx).trans hfits)
    rw [bits_word]
    exact hx
  | tracked | list | text | struct =>
    refine .pure fun x hx => ?_
    obtain ⟨a, rfl⟩ := Content.exists_address ((Valuation.ty_of_denotes hx).trans hfits)
    exact hx

theorem delivers_erase (hV : V.Plain) (slot : Slot) :
    Delivers V slot.erase fun w => ∀ bits, V.Holds bits slot → V.denotes w = some (.int 64 bits) := by
  cases slot with
  | number v => exact (delivers_bitcast hV).mono fun w hw bits hv => hw _ _ hv (.bitsOfNumber _)
  | pointer p => exact delivers_ptrtoint hV
  | word w => exact .pure fun bits hw => hw

theorem delivers_pack (hV : V.IsWritten) (hfits : v.kind.Fits v.value.ty) :
    Delivers V (pack v) fun w =>
      ∀ x, V.denotes v.value = some x → V.denotes w = some (.int 64 x.widened.bits) :=
  (delivers_ofTyped hV hfits).bind fun slot => (delivers_erase hV.toPlain slot).mono
    fun _ hw hslot x hx => hw _ (hslot x hx)

theorem ofBits_widened (hfits : v.kind.Fits v.value.ty) (hx : V.denotes v.value = some x) :
    Content.ofBits x.widened.bits v.kind = x.widened := by
  obtain ⟨value, kind⟩ := v
  have hty := Valuation.ty_of_denotes hx
  cases kind with
  | scalar =>
    rcases hfits with hbool | hdouble
    · obtain ⟨truth, rfl⟩ := Content.exists_int (hty.trans hbool)
      rfl
    · obtain ⟨d, rfl⟩ := Content.exists_double (hty.trans hdouble)
      rfl
  | packed =>
    obtain ⟨w, rfl⟩ := Content.exists_int (hty.trans hfits)
    rw [bits_word]
    rfl
  | tracked | list | text | struct =>
    obtain ⟨a, rfl⟩ := Content.exists_address (hty.trans hfits)
    rfl

/-- On a machine with addresses of 64 bits, a value that is packed and read at its kind stands for what
it stood for, or for 0 or 1 if it is a truth value; and the bits of its number, if it is not a boxed
record, are its word. -/
theorem Valuation.transport {b : Builder} (hb : b.Reached) (hV : V.IsWritten)
    (hfits : v.kind.Fits v.value.ty) (hx : V.denotes v.value = some x) :
    (∀ u b', (do unpack (← pack v) v.kind : Emit Typed) b = (u, b') → V.Agrees b'.func.instrs →
      u.kind = v.kind ∧ V.denotes u.value = some x.widened) ∧
    (v.kind ≠ .tracked → ∀ w w' b',
      (do
        let bits ← Emit.cast .bitcast (← toScalar v) .i64
        let word ← pack v
        return (bits, word) : Emit (Value × Value)) b = ((w, w'), b') → V.Agrees b'.func.instrs →
      V.denotes w = V.denotes w' ∧ V.denotes w' = some (.int 64 x.widened.bits)) := by
  constructor
  · intro u b' hrun hagrees
    have hdelivers : Delivers V (do unpack (← pack v) v.kind) fun u =>
        u.kind = v.kind ∧ V.denotes u.value = some x.widened := by
      refine (delivers_pack hV hfits).bind fun w => ?_
      refine (delivers_unpack hV.toPlain v.kind).mono fun u hu hw => ⟨hu.1, ?_⟩
      rw [hu.2 _ (hw x hx), ofBits_widened hfits hx]
    have h := (hdelivers b hb.onRecord).2.2
    rw [hrun] at h
    exact h hagrees
  · intro hne w w' b' hrun hagrees
    have hdelivers : Delivers V (do
        let bits ← Emit.cast .bitcast (← toScalar v) .i64
        let word ← pack v
        return (bits, word)) fun r =>
        V.denotes r.1 = V.denotes r.2 ∧ V.denotes r.2 = some (.int 64 x.widened.bits) := by
      refine (delivers_toScalar hV hfits hne).bind fun number => ?_
      refine (delivers_bitcast hV.toPlain).bind fun bits => (delivers_pack hV hfits).bind fun w => ?_
      refine .pure fun hw hbits hnumber => ⟨?_, hw x hx⟩
      rw [hw x hx]
      exact hbits _ _ (hnumber x hx) (.bitsOfNumber _)
    have h := (hdelivers b hb.onRecord).2.2
    rw [hrun] at h
    exact h hagrees

end

/-- A function of one truth value. -/
def ofTruth : Builder := .ofFunc (.skeleton "f" .i64 [.bool])

/-- The truth value is true, registers with odd numbers hold the number 1, and those with other even
numbers its word. -/
def whenTrue : Valuation 64 where
  constant n c := if n = 1 then (if c ≠ 0 then 1 else 0) else BitVec.ofInt n c.toInt
  address _ := 0
  reg r := if r = 0 then .int 1 1 else if r % 2 = 1 then .double .one
    else .int 64 Double.one.bits.toBitVec

/-- A truth value that is packed is read as the number 1. -/
theorem transport_whenTrue :
    ofTruth.Reached ∧ whenTrue.IsWritten ∧ whenTrue.denotes (.reg 0 .bool) = some (.int 1 1) ∧
      whenTrue.Agrees ((do unpack (← pack (.scalar (.reg 0 .bool))) .scalar : Emit Typed)
        ofTruth).2.func.instrs ∧
      whenTrue.denotes ((do unpack (← pack (.scalar (.reg 0 .bool))) .scalar : Emit Typed)
        ofTruth).1.value = some (.double .one) := by
  have hreached : ofTruth.Reached := ⟨_, by decide, .refl⟩
  have hwritten : whenTrue.IsWritten := by
    refine ⟨⟨fun n => ?_, fun n => ?_, fun c => ?_⟩, fun c => rfl⟩
    · simp [whenTrue]
    · simp [whenTrue]
    · exact BitVec.ofInt_toInt
  have hagrees : whenTrue.Agrees ((do unpack (← pack (.scalar (.reg 0 .bool))) .scalar : Emit Typed)
      ofTruth).2.func.instrs := by
    have hcode : ((do unpack (← pack (.scalar (.reg 0 .bool))) .scalar : Emit Typed)
        ofTruth).2.func.instrs = [.cast 1 .uitofp (.reg 0 .bool) .double,
          .cast 2 .bitcast (.reg 1 .double) .i64] := by decide
    rw [hcode]
    intro dst op v target hmem
    simp only [List.mem_cons, Instr.cast.injEq, List.not_mem_nil, or_false] at hmem
    rcases hmem with ⟨rfl, rfl, rfl, rfl⟩ | ⟨rfl, rfl, rfl, rfl⟩
    · exact ⟨.int 1 1, rfl, .uitofp 1⟩
    · exact ⟨.double .one, rfl, .bitsOfNumber .one⟩
  exact ⟨hreached, hwritten, rfl, hagrees, ((Valuation.transport (v := .scalar (.reg 0 .bool))
    hreached hwritten (.inl rfl) rfl).1 _ _ rfl hagrees).2⟩

end Ir

end ScriptCompiler
