import Mathlib.Data.List.Forall2
import ScriptCompiler.Proofs.Conversion.Transport
import ScriptCompiler.Proofs.Stage.Bodies

/-!
# The arguments of a call

A function of a unit is called with one word for each of its parameters. The expressions that an
application supplies are computed one after the other; then the values are brought into words, and the
call is written. A boxed record is read at that point, so that a function gets the number that the
record has when the function is called.

`Conveys` says of a step of the builder which instructions it adds and what its result stands for;
`expr_call` puts the steps of a call together, at any stage of the lowering of a unit.
-/

namespace ScriptCompiler

open Ir Lowering List

namespace Ir

/-- Instructions are added at the end of the current block. -/
structure Builder.Appends (b : Builder) (code : List Instr) (b' : Builder) : Prop where
  func : b'.func = { b.func with
    blocks := b.func.blocks.modify b.current fun block =>
      { block with instrs := block.instrs ++ code } }
  current : b'.current = b.current

/-- An instruction that brings arguments into words: a conversion, or the reading of a boxed
record. -/
inductive Instr.Prepares (args : List Typed) : Instr → Prop where
  | convert (dst : Reg) (op : CastOp) (v : Value) (target : Ty) :
      Prepares args (.cast dst op v target)
  | read {arg : Typed} (mem : arg ∈ args) (tracked : arg.kind = .tracked) (dst : Reg) :
      Prepares args (.call (some dst) .double Catalog.boxValue [arg.value])

/-- The bits with which an argument crosses a call satisfy `P`: those of the number that `code` reads
from a boxed record, and those of all else itself. -/
def Valuation.Carries (V : Valuation 64) (code : List Instr) (arg : Typed) (P : BitVec 64 → Prop) :
    Prop :=
  if arg.kind = .tracked then
    ∃ dst, .call (some dst) .double Catalog.boxValue [arg.value] ∈ code ∧
      ∀ d, V.reg dst = .double d → P d.bits.toBitVec
  else ∀ x, V.denotes arg.value = some x → P x.widened.bits

/-- A step of the builder adds instructions of which `ok` holds, and `Q` holds of them and of the result
under every valuation that agrees with the code. -/
def Conveys {α : Type} (ok : Instr → Prop) (e : Emit α)
    (Q : Valuation 64 → List Instr → α → Prop) : Prop :=
  ∀ b : Builder, b.OnRecord → ∃ code, b.Appends code (e b).2 ∧ (e b).2.OnRecord ∧
    (∀ i ∈ code, ok i) ∧ ∀ V : Valuation 64, V.IsWritten → V.Agrees (e b).2.func.instrs →
      Q V code (e b).1

namespace Builder

variable {b b' b'' : Builder} {more more' : List Instr}

theorem Appends.refl (b : Builder) : b.Appends [] b := by
  refine ⟨?_, rfl⟩
  simp only [append_nil]
  exact congrArg (fun blocks => { b.func with blocks }) (modify_id _ _).symm

theorem Appends.trans (h : b.Appends more b') (h' : b'.Appends more' b'') :
    b.Appends (more ++ more') b'' := by
  refine ⟨?_, h'.current.trans h.current⟩
  rw [h'.func, h.func, h.current]
  simp [modify_modify_eq, Function.comp_def]

theorem Appends.code (h : b.Appends more b') : b.func.instrs ⊆ b'.func.instrs := by
  rw [h.func]
  exact Access.instrs_modify fun _ => subset_append_left _ _

end Builder

namespace Conveys

variable {α β : Type} {ok : Instr → Prop} {e : Emit α} {Q R : Valuation 64 → List Instr → α → Prop}

theorem pure {a : α} (h : ∀ V, Q V [] a) : Conveys ok (pure a) Q :=
  fun b hb => ⟨[], .refl b, hb, by simp, fun V _ _ => h V⟩

theorem bind {f : α → Emit β} {R : Valuation 64 → List Instr → β → Prop} (h : Conveys ok e Q)
    (k : ∀ a, Conveys ok (f a) fun V code c => ∀ before, Q V before a → R V (before ++ code) c) :
    Conveys ok (e >>= f) R := by
  intro b hb
  obtain ⟨before, hbefore, hrecord, hok, hQ⟩ := h b hb
  obtain ⟨code, hcode, hrecord', hok', hR⟩ := k (e b).1 (e b).2 hrecord
  refine ⟨before ++ code, hbefore.trans hcode, hrecord', fun i hi => ?_, fun V hV hagrees => ?_⟩
  · exact (mem_append.mp hi).elim (hok i) (hok' i)
  · exact hR V hV hagrees before (hQ V hV (hagrees.mono hcode.code))

theorem mono (h : Conveys ok e Q) (hQ : ∀ V code a, Q V code a → R V code a) : Conveys ok e R := by
  intro b hb
  obtain ⟨code, hcode, hrecord, hok, hconveys⟩ := h b hb
  exact ⟨code, hcode, hrecord, hok, fun V hV hagrees => hQ V _ _ (hconveys V hV hagrees)⟩

theorem of_delivers {Q : Valuation 64 → α → Prop} (hcode : Conveys ok e fun _ _ _ => True)
    (h : ∀ V, V.IsWritten → Delivers V e (Q V)) : Conveys ok e fun V _ a => Q V a := by
  intro b hb
  obtain ⟨code, hcode, hrecord, hok, -⟩ := hcode b hb
  exact ⟨code, hcode, hrecord, hok, fun V hV => (h V hV b hb).2.2⟩

/-- One step for each element of a list, when more code does no harm. -/
theorem mapM {f : α → Emit β} {S : Valuation 64 → List Instr → α → β → Prop}
    (hS : ∀ {V code code' a c}, code ⊆ code' → S V code a c → S V code' a c) {xs : List α}
    (h : ∀ a ∈ xs, Conveys ok (f a) fun V code c => S V code a c) :
    Conveys ok (xs.mapM f) fun V code cs => List.Forall₂ (S V code) xs cs := by
  induction xs with
  | nil => exact pure fun _ => .nil
  | cons a xs ih =>
    rw [mapM_cons]
    refine (h a mem_cons_self).bind fun c => ?_
    refine (ih fun a ha => h a (mem_cons_of_mem _ ha)).bind fun cs => ?_
    refine pure fun V later hcs before hc => .cons (hS ?_ hc) (List.Forall₂.imp (fun _ _ => hS ?_) hcs)
    · exact subset_append_left _ _
    · simp

end Conveys

/-! ## Words -/

theorem Valuation.Carries.mono {V : Valuation 64} {code code' : List Instr} {arg : Typed}
    {P P' : BitVec 64 → Prop} (h : V.Carries code arg P) (hcode : code ⊆ code')
    (hP : ∀ bits, P bits → P' bits) : V.Carries code' arg P' := by
  unfold Carries at h ⊢
  split_ifs at h ⊢ with hkind
  · obtain ⟨dst, hmem, hnumber⟩ := h
    exact ⟨dst, hcode hmem, fun d hd => hP _ (hnumber d hd)⟩
  · exact fun x hx => hP _ (h x hx)

theorem conveys_cast (args : List Typed) (op : CastOp) (v : Value) (target : Ty) :
    Conveys (Instr.Prepares args) (Emit.cast op v target) fun _ _ _ => True := by
  intro b hb
  have hrecord := hb.cast op v target
  rcases b.cast_eq op v target with ⟨-, -, h⟩ | ⟨w, -, h⟩ | ⟨w, -, h⟩ | h <;> rw [h] at hrecord ⊢
  · exact ⟨[], .refl b, hrecord, by simp, fun _ _ _ => trivial⟩
  · exact ⟨[], .refl b, hrecord, by simp, fun _ _ _ => trivial⟩
  · exact ⟨[], .refl b, hrecord, by simp, fun _ _ _ => trivial⟩
  · refine ⟨[.cast b.nextReg op v target], ⟨rfl, rfl⟩, hrecord, ?_, fun _ _ _ => trivial⟩
    simpa using Instr.Prepares.convert _ _ _ _

theorem conveys_ofTyped (args : List Typed) {v : Typed} (hfits : v.kind.Fits v.value.ty) :
    Conveys (Instr.Prepares args) (Slot.ofTyped v) fun V _ slot =>
      ∀ x, V.denotes v.value = some x → V.Holds x.widened.bits slot := by
  refine .of_delivers ?_ fun V hV => delivers_ofTyped hV hfits
  obtain ⟨value, kind⟩ := v
  cases kind with
  | scalar =>
    refine Conveys.bind (Q := fun _ _ _ => True) ?_ fun _ => .pure fun _ _ _ => trivial
    unfold toScalar
    dsimp only
    split
    · exact conveys_cast args _ _ _
    · exact .pure fun _ => trivial
  | packed | tracked | list | text | struct => exact .pure fun _ => trivial

theorem conveys_erase (args : List Typed) (slot : Slot) :
    Conveys (Instr.Prepares args) slot.erase fun V _ w =>
      ∀ bits, V.Holds bits slot → V.denotes w = some (.int 64 bits) := by
  refine .of_delivers ?_ fun V hV => delivers_erase hV.toPlain slot
  cases slot with
  | number v | pointer v => exact conveys_cast args _ v _
  | word w => exact .pure fun _ => trivial

theorem conveys_argument {args : List Typed} {arg : Typed} (hmem : arg ∈ args)
    (hfits : arg.kind.Fits arg.value.ty) :
    Conveys (Instr.Prepares args) (do Slot.ofTyped (← byValue arg)) fun V code slot =>
      V.Carries code arg fun bits => V.Holds bits slot := by
  obtain ⟨value, kind⟩ := arg
  by_cases hkind : kind = .tracked
  · subst hkind
    intro b hb
    refine ⟨[.call (some b.nextReg) .double Catalog.boxValue [value]], ⟨rfl, rfl⟩,
      hb.taken.push _, by simpa using .read hmem rfl b.nextReg, fun V _ _ => ?_⟩
    refine (if_pos rfl).mpr ⟨b.nextReg, mem_cons_self, fun d hd => ?_⟩
    exact (Valuation.denotes_reg (by rw [hd]; rfl)).trans (by rw [hd])
  · have hwhole : byValue ⟨value, kind⟩ = pure ⟨value, kind⟩ := by
      cases kind <;> first | rfl | exact absurd rfl hkind
    rw [hwhole, pure_bind]
    exact (conveys_ofTyped args hfits).mono fun V code slot hslot => (if_neg hkind).mpr hslot

theorem forall₂_mapM {α β : Type} {f : α → Emit β} {S : α → β → Prop}
    (h : ∀ a b, S a (f a b).1) (xs : List α) (b : Builder) :
    List.Forall₂ S xs (xs.mapM f b).1 := by
  induction xs generalizing b with
  | nil => exact .nil
  | cons a xs ih =>
    rw [mapM_cons]
    exact .cons (h a b) (ih _)

theorem erase_zero {slot : Slot} (h : slot = .zero) (b : Builder) : (slot.erase b).1 = .word 0 := by
  subst h
  rfl

end Ir

namespace Lowering

/-- The expressions of which an application supplies the values to a function of `arity`
parameters. -/
def supplied (arity : Nat) : Node → List Node
  | .listLiteral elements => if 1 < arity then elements else [.listLiteral elements]
  | argument => [argument]

/-- Expressions are computed one after the other, each of them once. -/
inductive Computed (ctx : Context) : State → List Node → List Typed → State → Prop where
  | nil (s : State) : Computed ctx s [] [] s
  | cons {s s₁ s₂ : State} {node : Node} {rest : List Node} {v : Typed} {vs : List Typed}
      (first : expr node ctx s = .ok (v, s₁)) (others : Computed ctx s₁ rest vs s₂) :
      Computed ctx s (node :: rest) (v :: vs) s₂

/-- A stage through which the lowering of a unit may pass, in its entry function or in one of its
functions. -/
def Stage.OfUnit (ctx : Context) (statements : List Node) (g : Stage) : Prop :=
  Steps ctx .any (entry ctx (State.start ctx.target ctx.naming statements)) g ∨
    ∃ r rest s, Pending ctx statements (r :: rest) s ∧ Steps ctx .any (routine s r) g

/-! ## Stages -/

section

variable {ctx : Context} {P : Lexicon} {statements : List Node} {g g' : Stage}

theorem Stage.Move.onRecord (h : Move ctx P g g') (hg : g.state.builder.OnRecord) :
    g'.state.builder.OnRecord := by
  cases h with
  | define | allocate => exact hg.taken.push _
  | convert => exact hg.convert _ _ _
  | effect => exact hg.push _
  | slot => exact hg.taken.pushEntry _
  | nullSlot => exact (hg.taken.pushEntry _).pushEntry _
  | reserve | release => exact (hg.taken.push _).push _
  | constant | storage | exported | useVariable | useFunction => exact hg
  | bind name b =>
    obtain ⟨locals, globals, heq, -⟩ := bind_eq g.state name b
    rw [heq]
    exact hg
  | note s same =>
    show s.builder.OnRecord
    rw [same.builder]
    exact hg

theorem Stage.Step.onRecord (h : Step ctx P g g') (hg : g.state.builder.OnRecord) :
    g'.state.builder.OnRecord := by
  cases h with
  | move h => exact h.onRecord hg
  | label | enterLoop | leaveLoop => exact hg
  | @jump t label =>
    have hblock := (Builder.Step.appendBlock (g.state.builder.push t) label).onRecord (hg.push t)
    refine ⟨?_, hblock.casts⟩
    show g.state.builder.current + 1 < ((g.state.builder.push t).func.blocks ++ [_]).length
    rw [length_append]
    exact Nat.succ_lt_succ (hg.push t).current

theorem Stage.Steps.onRecord (h : Steps ctx P g g') (hg : g.state.builder.OnRecord) :
    g'.state.builder.OnRecord := by
  induction h with
  | refl => exact hg
  | tail _ hstep ih => exact hstep.onRecord ih

theorem Stage.OfUnit.sound (h : g.OfUnit ctx statements) : g.Sound ctx .any := by
  rcases h with hsteps | ⟨r, rest, s, hpending, hsteps⟩
  · exact hsteps.sound (sound_entry (fun _ _ => trivial) (fun _ => Lexicon.of_thrift) (nil_subset _))
  · exact hsteps.sound ((hpending.opens fun _ _ => trivial).1 r)

theorem Stage.OfUnit.onRecord (h : g.OfUnit ctx statements) : g.state.builder.OnRecord := by
  rcases h with hsteps | ⟨r, rest, s, -, hsteps⟩
  · refine Steps.onRecord hsteps ?_
    have hbuilder := (sameCode_start ctx.target ctx.naming statements).builder
    show (State.start ctx.target ctx.naming statements).builder.OnRecord
    rw [hbuilder]
    exact ⟨Nat.zero_lt_one, by simp [Builder.ofFunc]⟩
  · exact Steps.onRecord hsteps ⟨Nat.zero_lt_one, by simp [routine, State.enter, Builder.ofFunc]⟩

end

/-! ## Calls -/

section

variable {ctx : Context} {s s' : State} {nodes : List Node} {args : List Typed} {arity : Nat}

theorem mapM_exprs_iff :
    (exprs nodes).mapM id ctx s = .ok (args, s') ↔ Computed ctx s nodes args s' := by
  constructor
  · intro hrun
    induction nodes generalizing s args with
    | nil =>
      obtain ⟨rfl, rfl⟩ := Prod.mk.inj (Except.ok.inj hrun)
      exact .nil s
    | cons node rest ih =>
      rw [exprs, mapM_cons] at hrun
      obtain ⟨v, s₁, hfirst, hrun⟩ := run_bind hrun
      obtain ⟨vs, s₂, hrest, hrun⟩ := run_bind hrun
      obtain ⟨rfl, rfl⟩ := Prod.mk.inj (Except.ok.inj hrun)
      exact .cons hfirst (ih hrest)
  · intro h
    induction h with
    | nil s => rfl
    | @cons s s₁ s₂ node rest v vs first others ih =>
      rw [exprs, mapM_cons]
      show (expr node ctx s >>= fun p => ((exprs rest).mapM id ctx p.2 >>= fun q =>
        .ok (p.1 :: q.1, q.2))) = _
      rw [first]
      show ((exprs rest).mapM id ctx s₁ >>= fun q => .ok (v :: q.1, q.2)) = _
      rw [ih]
      rfl

theorem Computed.length_eq (h : Computed ctx s nodes args s') : args.length = nodes.length := by
  induction h with
  | nil => rfl
  | cons _ _ ih => exact congrArg (· + 1) ih

theorem values_iff {argument : Node} :
    Argument.values ⟨expr argument, writtenElements argument⟩ (1 < arity) ctx s = .ok (args, s') ↔
      Computed ctx s (supplied arity argument) args s' := by
  have hone : (do return [← expr argument] : Lower (List Typed)) ctx s = .ok (args, s') ↔
      Computed ctx s [argument] args s' := by
    rw [← mapM_exprs_iff]
    simp [exprs]
  cases argument with
  | listLiteral elements =>
    by_cases hspread : 1 < arity
    · simpa [Argument.values, writtenElements, supplied, hspread] using mapM_exprs_iff
    · simpa [Argument.values, writtenElements, supplied, hspread] using hone
  | _ => simpa [Argument.values, writtenElements, supplied] using hone

theorem exists_of_forall₂ {α β : Type} {R : α → β → Prop} {xs : List α} {ys : List β}
    (h : List.Forall₂ R xs ys) {k : Nat} {y : β} (hy : ys[k]? = some y) :
    ∃ x, xs[k]? = some x ∧ R x y := by
  obtain ⟨hlt, rfl⟩ := List.getElem?_eq_some_iff.mp hy
  have hlt' : k < xs.length := h.length_eq ▸ hlt
  exact ⟨xs[k], List.getElem?_eq_getElem hlt', h.get hlt' hlt⟩

theorem fitted_getElem? {slots : List Slot} {k : Nat} {slot : Slot}
    (h : (fitted slots arity)[k]? = some slot) :
    slots[k]? = some slot ∨ slots[k]? = none ∧ slot = .zero := by
  rw [fitted, List.getElem?_append] at h
  split at h
  case isTrue hlt =>
    rw [length_take, Nat.lt_min] at hlt
    rw [List.getElem?_take_of_lt hlt.1] at h
    exact .inl h
  case isFalse hge =>
    obtain ⟨hlt, hzero⟩ := List.getElem?_eq_some_iff.mp h
    rw [length_take, Nat.lt_min, not_and_or, Nat.not_lt, Nat.not_lt] at hge
    rw [length_replicate, length_take] at hlt
    refine .inr ⟨List.getElem?_eq_none ?_, by simpa using hzero.symm⟩
    omega

theorem length_fitted (slots : List Slot) : (fitted slots arity).length = arity := by
  simp [fitted]
  omega

theorem callFunction_run (symbol callee : String) (arity : Nat) (args : List Typed) (ctx : Context)
    (s : State) :
    ∃ slots b₁ words b₂,
      (args.mapM fun arg => do Slot.ofTyped (← byValue arg)) s.builder = (slots, b₁) ∧
      (fitted slots arity).mapM Slot.erase b₁ = (words, b₂) ∧
      callFunction symbol callee arity args ctx s = .ok (.packed (.reg b₂.nextReg .i64), { s with
        builder := { b₂ with nextReg := b₂.nextReg + 1 }.push
          (.call (some b₂.nextReg) .i64 symbol words)
        warnings := s.warnings ++
          ((Fit.of args.length arity).warning? callee args.length arity).toList }) := by
  refine ⟨_, _, _, _, rfl, rfl, ?_⟩
  unfold callFunction
  cases (Fit.of args.length arity).warning? callee args.length arity with
  | none => simp only [Option.toList, append_nil]; rfl
  | some message => rfl

end

/-- The words of a call: one for each parameter, with the bits of the argument at its place or zero. -/
structure PassesWords (args : List Typed) (arity : Nat) (code reads : List Instr)
    (words : List Value) : Prop where
  length : words.length = arity
  prepares : ∀ i ∈ reads, i.Prepares args
  supplied : ∀ (k : Nat) arg word, args[k]? = some arg → words[k]? = some word →
    ∀ V : Valuation 64, V.IsWritten → V.Agrees code →
      V.Carries reads arg fun bits => V.denotes word = some (.int 64 bits)
  missing : ∀ (k : Nat) word, args[k]? = none → words[k]? = some word → word = .word 0

theorem exists_passesWords {args : List Typed} (hfits : ∀ arg ∈ args, arg.kind.Fits arg.value.ty)
    {b b₁ b₂ : Builder} (hb : b.OnRecord) {arity : Nat} {slots : List Slot} {words : List Value}
    (hslots : (args.mapM fun arg => do Slot.ofTyped (← byValue arg)) b = (slots, b₁))
    (hwords : (fitted slots arity).mapM Slot.erase b₁ = (words, b₂)) {code : List Instr}
    (hsub : b₂.func.instrs ⊆ code) :
    ∃ reads, b.Appends reads b₂ ∧ PassesWords args arity code reads words := by
  have hcarry : Conveys (Instr.Prepares args) (args.mapM fun arg => do Slot.ofTyped (← byValue arg))
      fun V code slots => List.Forall₂ (fun arg slot =>
        V.Carries code arg fun bits => V.Holds bits slot) args slots :=
    .mapM (fun hcode h => h.mono hcode fun _ hbits => hbits) fun arg harg =>
      conveys_argument harg (hfits arg harg)
  have herase : Conveys (Instr.Prepares args) ((fitted slots arity).mapM Slot.erase)
      fun V _ words => List.Forall₂ (fun slot word => ∀ bits, V.Holds bits slot →
        V.denotes word = some (.int 64 bits)) (fitted slots arity) words :=
    .mapM (fun _ h => h) fun slot _ => conveys_erase args slot
  have hzero : List.Forall₂ (fun slot word => slot = .zero → word = .word 0) (fitted slots arity)
      words := by
    have hall := forall₂_mapM (f := Slot.erase) (S := fun slot (word : Value) => slot = .zero →
      word = .word 0) (fun slot b h => erase_zero h b) (fitted slots arity) b₁
    rwa [hwords] at hall
  obtain ⟨before, hbefore, hrecord, hprepares, hcarries⟩ := hcarry b hb
  rw [hslots] at hbefore hrecord hcarries
  obtain ⟨more, hmore, -, hprepares', herases⟩ := herase b₁ hrecord
  rw [hwords] at hmore herases
  have hlength : slots.length = args.length := by
    have hall := forall₂_mapM (f := fun arg => do Slot.ofTyped (← byValue arg))
      (S := fun _ _ => True) (fun _ _ => trivial) args b
    rw [hslots] at hall
    exact hall.length_eq.symm
  refine ⟨before ++ more, hbefore.trans hmore, ⟨?_, ?_, ?_, ?_⟩⟩
  · exact hzero.length_eq.symm.trans (length_fitted slots)
  · exact fun i hi => (mem_append.mp hi).elim (hprepares i) (hprepares' i)
  · intro k arg word harg hword V hV hagrees
    have hagrees := hagrees.mono hsub
    obtain ⟨slot, hslot, herased⟩ := exists_of_forall₂ (herases V hV hagrees) hword
    have hcarries := hcarries V hV (hagrees.mono hmore.code)
    rcases fitted_getElem? hslot with hslot | ⟨hnone, -⟩
    · obtain ⟨arg', harg', hcarried⟩ := exists_of_forall₂ hcarries hslot
      obtain rfl : arg = arg' := Option.some.inj (harg.symm.trans harg')
      exact hcarried.mono (subset_append_left _ _) herased
    · rw [List.getElem?_eq_none_iff, hlength, ← List.getElem?_eq_none_iff, harg] at hnone
      cases hnone
  · intro k word hnone hword
    obtain ⟨slot, hslot, hzero⟩ := exists_of_forall₂ hzero hword
    rcases fitted_getElem? hslot with hslot | ⟨-, hslot⟩
    · rw [List.getElem?_eq_none_iff, ← hlength, ← List.getElem?_eq_none_iff, hslot] at hnone
      cases hnone
    · exact hzero hslot

/-- The warnings about a call: one if it supplies too few arguments, or too many. -/
def countWarnings (callee : String) (count arity : Nat) : List String :=
  if count = arity then []
  else if count < arity then
    [s!"call to '{callee}' passes {count} of {arity} arguments; {arity - count} zero-filled"]
  else [s!"call to '{callee}' passes {count} arguments but takes {arity}; {count - arity} dropped"]

theorem countWarnings_eq (callee : String) (count arity : Nat) :
    countWarnings callee count arity =
      ((Fit.of count arity).warning? callee count arity).toList := by
  unfold Fit.of countWarnings
  rcases Nat.lt_trichotomy count arity with hlt | rfl | hgt
  · simp [hlt, Nat.ne_of_lt hlt, Fit.warning?]
  · simp [Fit.warning?]
  · simp [hgt, Nat.ne_of_gt hgt, Nat.lt_asymm hgt, Fit.warning?]

/-- A call of a function of the unit, at any stage of the lowering. It is lowered if and only if the
expressions that it supplies are, one after the other. All that follows them are instructions that
bring their values into words, the call with a word for each parameter, and a warning if the number of
values is not that of the parameters. -/
theorem expr_call {ctx : Context} {statements : List Node} {g : Stage}
    (hg : g.OfUnit ctx statements) {name : String} {r : Routine}
    (hr : g.state.routine? name = some r) (argument : Node) :
    (∀ v s, expr (.relation (.identifier name) argument) ctx g.state = .ok (v, s) →
      ∃ args s₁, Computed ctx g.state (supplied r.params.length argument) args s₁) ∧
    ∀ args s₁, Computed ctx g.state (supplied r.params.length argument) args s₁ →
      ∃ reads dst words builder,
        expr (.relation (.identifier name) argument) ctx g.state =
          .ok (.packed (.reg dst .i64), { s₁ with
            builder
            warnings := s₁.warnings ++ countWarnings name
              (supplied r.params.length argument).length r.params.length }) ∧
        s₁.builder.Appends (reads ++ [.call (some dst) .i64 r.symbol words]) builder ∧
        PassesWords args r.params.length builder.func.instrs reads words := by
  have hcall : expr (.relation (.identifier name) argument) ctx g.state =
      (Argument.values ⟨expr argument, writtenElements argument⟩ (1 < r.params.length) >>=
        callFunction r.symbol name r.params.length) ctx g.state := by
    rw [expr, applyName, run_get, hr]
    rfl
  rw [hcall]
  constructor
  · intro v s hrun
    obtain ⟨args, s₁, hargs, -⟩ := run_bind hrun
    exact ⟨args, s₁, values_iff.mp hargs⟩
  · intro args s₁ hargs
    have hvalues := values_iff.mpr hargs
    -- The values fit their kinds, and the conversions on record stand in the code.
    have hevaluates : Stage.ArgumentEvaluates ctx .any (.identifier name)
        ⟨expr argument, writtenElements argument⟩ :=
      ⟨fun _ => Stage.evaluates_any argument, Stage.evaluates_writtenElements argument fun _ _ =>
        Lexicon.covers_any _ _ _, fun _ => Lexicon.of_thrift⟩
    obtain ⟨g₁, hmoves, hsound, rfl, hholds⟩ :=
      (Stage.lowers_values hevaluates (.inl (.inr rfl)) hg.sound).1 hvalues
    have hrecord := Stage.Steps.onRecord (Stage.Moves.steps hmoves) hg.onRecord
    obtain ⟨slots, b₁, words, b₂, hslots, hwords, hrun⟩ :=
      callFunction_run r.symbol name r.params.length args ctx g₁.state
    obtain ⟨reads, happends, hpasses⟩ := exists_passesWords (fun arg harg => (hholds arg harg).2)
      hrecord hslots hwords (Access.extends_push { b₂ with nextReg := b₂.nextReg + 1 }
        (.call (some b₂.nextReg) .i64 r.symbol words)).code
    refine ⟨reads, b₂.nextReg, words, { b₂ with nextReg := b₂.nextReg + 1 }.push
      (.call (some b₂.nextReg) .i64 r.symbol words), ?_, happends.trans ⟨rfl, rfl⟩, hpasses⟩
    rw [← hargs.length_eq, countWarnings_eq, ← hrun]
    show (Argument.values _ _ ctx g.state >>= fun p => callFunction _ _ _ p.1 ctx p.2) = _
    rw [hvalues]
    rfl

/-- A unit with a function of three parameters. -/
def choosing : List Node :=
  [.functionDef "f" ["a", "b", "c"] [.ret (some (.identifier "b"))]]

/-- Two arguments, of which one is a call itself. -/
def twoArguments : Node :=
  .listLiteral [.literal (.number .one),
    .relation (.identifier "f") (.literal (.number .one))]

theorem call_twoArguments :
    ∃ ctx args s₁ dst builder, ∃ words : List Value,
      Stage.OfUnit ctx choosing (Stage.entry ctx (State.start ctx.target ctx.naming choosing)) ∧
      Computed ctx (State.start ctx.target ctx.naming choosing) (supplied 3 twoArguments) args s₁ ∧
      args.length = 2 ∧
      expr (.relation (.identifier "f") twoArguments) ctx
          (State.start ctx.target ctx.naming choosing) =
        .ok (.packed (.reg dst .i64), { s₁ with
          builder
          warnings := s₁.warnings ++ ["call to 'f' passes 2 of 3 arguments; 1 zero-filled"] }) ∧
      words.length = 3 ∧ words[2]? = some (.word 0) := by
  let ctx := Stage.contextOf (.resolve none) { mode := .program } [] choosing
  have hg : Stage.OfUnit ctx choosing
      (Stage.entry ctx (State.start ctx.target ctx.naming choosing)) := .inl .refl
  have hr : (State.start ctx.target ctx.naming choosing).routine? "f" =
      some ⟨"f", "f", ["a", "b", "c"], [.ret (some (.identifier "b"))]⟩ := rfl
  obtain ⟨hcomputed, hcall⟩ := expr_call hg hr twoArguments
  have hok : (expr (.relation (.identifier "f") twoArguments) ctx
      (State.start ctx.target ctx.naming choosing)).toOption.isSome = true := by decide +kernel
  cases hrun : expr (.relation (.identifier "f") twoArguments) ctx
      (State.start ctx.target ctx.naming choosing) with
  | error e => simp [hrun, Except.toOption] at hok
  | ok p =>
    obtain ⟨args, s₁, hargs⟩ := hcomputed p.1 p.2 hrun
    obtain ⟨reads, dst, words, builder, hcall, -, hpasses⟩ := hcall args s₁ hargs
    have hlength : args.length = 2 := hargs.length_eq
    have hwarning : countWarnings "f" (supplied 3 twoArguments).length 3 =
      ["call to 'f' passes 2 of 3 arguments; 1 zero-filled"] := by decide
    obtain ⟨word, hword⟩ : ∃ word, words[2]? = some word :=
      ⟨_, List.getElem?_eq_getElem (Nat.lt_of_lt_of_eq (by decide) hpasses.length.symm)⟩
    have hzero := hpasses.missing 2 word (List.getElem?_eq_none (Nat.le_of_eq hlength)) hword
    exact ⟨ctx, args, s₁, dst, builder, words, hg, hargs, hlength, hwarning ▸ hcall,
      hpasses.length, hzero ▸ hword⟩

end Lowering

end ScriptCompiler
