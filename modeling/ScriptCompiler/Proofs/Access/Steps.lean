import Mathlib.Data.List.Forall2
import ScriptCompiler.Proofs.Access.Code
import ScriptCompiler.Proofs.Symbols

/-!
# Steps that keep to an access

The rules for `Writes` and `Computes`: how they are put together, what each operation of the builder
needs, and that conversions between kinds keep to the access as long as boxed records are known to be
those of variables. Every conversion of a boxed record to something else reads out its value, so that
what it gives is not confined to the function.
-/

namespace ScriptCompiler.Lowering

open Ir

/-- The constants are those of texts, numbered in order. -/
def Constants (texts : List String) (s : State) : Prop :=
  s.strings = texts.length ∧
    s.assembly.globals.filter (·.constant) = texts.mapIdx Stage.textConstant

/-- An error for a mistake in the unit, or for a value whose truth cannot be told. -/
def Excused (e : Error) : Prop :=
  e.classify = .diagnostic ∨ ∃ source, e = .invalidConversion source "i1"

/-- An error that is excused or in `F`. -/
def Excusing (F : Error → Prop) (e : Error) : Prop := Excused e ∨ F e

/-- Any error at all. -/
abbrev AnyError : Error → Prop := Excusing fun _ => True

namespace Access

/-- The step `e` of the builder only adds code. The new code keeps to every access of which `P` holds
and that has the finished code, and `Q` holds of the result. -/
def Writes {α : Type} (P : Access → Prop) (e : Emit α) (Q : Access → α → Prop) : Prop :=
  ∀ b, Extends b (e b).2 ∧ ∀ A : Access, (e b).2.func.instrs ⊆ A.code → P A → A.Hosts b →
    A.Enlarges b (e b).2 ∧ Q A (e b).1

/-- The variables of two states, and what else is looked up, are the same. -/
structure SameTables (s s' : State) : Prop where
  scope : s'.scope = s.scope
  globals : s'.globals = s.globals
  locals : s'.locals = s.locals
  lastBound : s'.lastBound = s.lastBound
  functions : s'.functions = s.functions
  structs : s'.structs = s.structs

/-- How many of the globals hold the variable of a name: those with its symbol that are neither
constant nor of another object. -/
def stored (naming : Naming) (globals : List Global) (name : String) : Nat :=
  globals.countP fun d => d.name = naming.globalSymbol name && d.init.isSome && !d.constant

/-- From one state to another code is added, and addresses to be freed are noted. -/
structure Adds (s s' : State) : Prop extends SameTables s s' where
  builder : Extends s.builder s'.builder
  cleanup : ∀ e ∈ s'.cleanup, e ∈ s.cleanup ∨ e.destroy ∈ Catalog.releasing

/-- From one state to another code is added, and no variable gets a global. -/
structure Quiet (ctx : Context) (s s' : State) : Prop extends Adds s s' where
  stored : (∀ name b, s.globals.lookup name = some b → Dotless name) → ∀ name,
    stored ctx.naming s'.assembly.globals name = stored ctx.naming s.assembly.globals name

/-- What runs of `m` do where variables are those of `T`. A successful run only adds code and the
constants of `texts`. The new code keeps to every access of which `P` holds and that has the finished
code, and `Q` holds of the result. Any other run fails with an error in `F`. -/
structure Computes {α : Type} (ctx : Context) (T : State) (F : Error → Prop) (texts : List String)
    (P : Access → Prop) (m : Lower α) (Q : Access → α → Prop) : Prop where
  code : ∀ {s a s'}, SameTables T s → m ctx s = .ok (a, s') → Quiet ctx s s' ∧
    ∀ A : Access, s'.builder.func.instrs ⊆ A.code → P A → A.Hosts s.builder →
      A.Enlarges s.builder s'.builder ∧ Q A a
  adds : ∀ {s a s' old}, SameTables T s → m ctx s = .ok (a, s') → Constants old s →
    Constants (old ++ texts) s'
  fails : ∀ {s e}, SameTables T s → m ctx s = .error e → F e

theorem SameTables.refl (s : State) : SameTables s s := ⟨rfl, rfl, rfl, rfl, rfl, rfl⟩

theorem SameTables.trans {s s' s'' : State} (h : SameTables s s') (h' : SameTables s' s'') :
    SameTables s s'' :=
  ⟨h'.scope.trans h.scope, h'.globals.trans h.globals, h'.locals.trans h.locals,
    h'.lastBound.trans h.lastBound, h'.functions.trans h.functions, h'.structs.trans h.structs⟩

theorem SameTables.find? {s s' : State} (h : SameTables s s') : s'.find? = s.find? := by
  funext name
  unfold State.find?
  rw [h.scope, h.globals, h.locals]

theorem SameTables.own {s s' : State} (h : SameTables s s') : s'.own = s.own := by
  unfold State.own
  rw [h.scope, h.globals, h.locals]

theorem Adds.refl (s : State) : Adds s s :=
  { SameTables.refl s with builder := Extends.refl _, cleanup := fun _ he => .inl he }

theorem Adds.trans {s s' s'' : State} (h : Adds s s') (h' : Adds s' s'') : Adds s s'' :=
  { h.toSameTables.trans h'.toSameTables with
    builder := h.builder.trans h'.builder
    cleanup := fun e he => (h'.cleanup e he).elim (h.cleanup e) .inr }

theorem Adds.quiet {ctx : Context} {s s' : State} (h : Adds s s')
    (hglobals : s'.assembly.globals = s.assembly.globals) : Quiet ctx s s' :=
  { h with stored := fun _ _ => by rw [hglobals] }

theorem Quiet.refl (ctx : Context) (s : State) : Quiet ctx s s := (Adds.refl s).quiet rfl

theorem Quiet.trans {ctx : Context} {s s' s'' : State} (h : Quiet ctx s s')
    (h' : Quiet ctx s' s'') : Quiet ctx s s'' :=
  { h.toAdds.trans h'.toAdds with
    stored := fun hdot name => by
      rw [h'.stored (by rw [h.globals]; exact hdot), h.stored hdot] }

section

variable {α β : Type} {P P' : Access → Prop} {Q : Access → α → Prop} {R : Access → β → Prop}
  {ctx : Context} {T : State} {F : Error → Prop} {texts texts' : List String} {A : Access} {v : Value}
  {e : Emit α} {m : Lower α} {f : α → Lower β}

/-! ## Rules -/

namespace Writes

theorem pure {a : α} (h : ∀ A, P A → Q A a) : Writes P (pure a) Q :=
  fun b => ⟨Extends.refl b, fun A _ hP _ => ⟨.refl _, h A hP⟩⟩

theorem bind {f : α → Emit β} (h : Writes P e Q) (k : ∀ a, Writes (fun A => P A ∧ Q A a) (f a) R) :
    Writes P (e >>= f) R := by
  intro b
  obtain ⟨hext, henlarge⟩ := h b
  obtain ⟨hext', henlarge'⟩ := k (e b).1 (e b).2
  refine ⟨hext.trans hext', fun A hcode hP hhosts => ?_⟩
  obtain ⟨hleft, hQ⟩ := henlarge A (List.Subset.trans hext'.code hcode) hP hhosts
  obtain ⟨hright, hR⟩ := henlarge' A hcode ⟨hP, hQ⟩ (hleft.hosts hhosts)
  exact ⟨hleft.trans hright, hR⟩

theorem mono {Q' : Access → α → Prop} (h : Writes P e Q) (hP : ∀ A, P' A → P A)
    (hQ : ∀ A a, P' A → Q A a → Q' A a) : Writes P' e Q' := by
  intro b
  obtain ⟨hext, henlarge⟩ := h b
  refine ⟨hext, fun A hcode hP' hhosts => ?_⟩
  obtain ⟨henlarges, hQA⟩ := henlarge A hcode (hP A hP') hhosts
  exact ⟨henlarges, hQ A _ hP' hQA⟩

theorem get_bind {f : Builder → Emit β} (h : ∀ b, Writes (fun A => P A ∧ A.Hosts b) (f b) R) :
    Writes P (get >>= f) R := by
  intro b
  obtain ⟨hext, henlarge⟩ := h b b
  exact ⟨hext, fun A hcode hP hhosts => henlarge A hcode ⟨hP, hhosts⟩ hhosts⟩

/-- A step of the builder for each element of a list. -/
theorem mapM {f : α → Emit β} {xs : List α} (h : ∀ x ∈ xs, Writes P (f x) R) :
    Writes P (xs.mapM f) fun A ys => ∀ y ∈ ys, R A y := by
  induction xs generalizing P with
  | nil => exact Writes.pure (by simp)
  | cons x xs ih =>
    rw [List.mapM_cons]
    refine (h x (by simp)).bind fun y => ?_
    have hrest := ih (P := fun A => P A ∧ R A y) fun z hz =>
      (h z (by simp [hz])).mono (fun _ hP => hP.1) fun _ _ _ hQ => hQ
    refine hrest.bind fun ys => Writes.pure ?_
    rintro A ⟨⟨-, hy⟩, hys⟩ z hz
    rcases List.mem_cons.mp hz with rfl | hz
    · exact hy
    · exact hys z hz

end Writes

namespace Computes

/-- A step that always succeeds and leaves the constants alone. -/
theorem of_ok {a : State → α} {n : State → State} (hrun : ∀ s, m ctx s = .ok (a s, n s))
    (hquiet : ∀ s, SameTables T s → Quiet ctx s (n s))
    (hsame : ∀ s, (n s).strings = s.strings ∧
      (n s).assembly.globals.filter (·.constant) = s.assembly.globals.filter (·.constant))
    (hcode : ∀ s (A : Access), (n s).builder.func.instrs ⊆ A.code → P A → A.Hosts s.builder →
      A.Enlarges s.builder (n s).builder ∧ Q A (a s)) : Computes ctx T F [] P m Q where
  code := by
    intro s a' s' hT h
    obtain ⟨rfl, rfl⟩ := Prod.mk.inj (Except.ok.inj ((hrun s).symm.trans h))
    exact ⟨hquiet s hT, hcode s⟩
  adds := by
    intro s a' s' old _ h hold
    obtain ⟨-, rfl⟩ := Prod.mk.inj (Except.ok.inj ((hrun s).symm.trans h))
    rw [List.append_nil]
    exact ⟨(hsame s).1.trans hold.1, (hsame s).2.trans hold.2⟩
  fails := fun _ h => nomatch (hrun _).symm.trans h

theorem pure {a : α} (h : ∀ A, P A → Q A a) : Computes ctx T F [] P (pure a) Q :=
  of_ok (fun _ => rfl) (fun s _ => Quiet.refl ctx s) (fun _ => ⟨rfl, rfl⟩)
    fun _ A _ hP _ => ⟨.refl _, h A hP⟩

/-- What follows a step may rely on how its result came about. -/
theorem bind_of (h : Computes ctx T F texts P m Q)
    (k : ∀ s a s', SameTables T s → m ctx s = .ok (a, s') →
      Computes ctx T F texts' (fun A => P A ∧ Q A a) (f a) R) :
    Computes ctx T F (texts ++ texts') P (m >>= f) R where
  code := by
    intro s a s' hT hrun
    obtain ⟨b, s₁, hm, hrest⟩ := run_bind hrun
    obtain ⟨hquiet, henlarge⟩ := h.code hT hm
    obtain ⟨hquiet', henlarge'⟩ := (k s b s₁ hT hm).code (hT.trans hquiet.toSameTables) hrest
    refine ⟨hquiet.trans hquiet', fun A hcode hP hhosts => ?_⟩
    obtain ⟨hleft, hQ⟩ := henlarge A (List.Subset.trans hquiet'.builder.code hcode) hP hhosts
    obtain ⟨hright, hR⟩ := henlarge' A hcode ⟨hP, hQ⟩ (hleft.hosts hhosts)
    exact ⟨hleft.trans hright, hR⟩
  adds := by
    intro s a s' old hT hrun hold
    obtain ⟨b, s₁, hm, hrest⟩ := run_bind hrun
    rw [← List.append_assoc]
    exact (k s b s₁ hT hm).adds (hT.trans (h.code hT hm).1.toSameTables) hrest (h.adds hT hm hold)
  fails := by
    intro s e hT hrun
    rcases run_bind_error hrun with hm | ⟨b, s₁, hm, hrest⟩
    · exact h.fails hT hm
    · exact (k s b s₁ hT hm).fails (hT.trans (h.code hT hm).1.toSameTables) hrest

theorem bind (h : Computes ctx T F texts P m Q)
    (k : ∀ a, Computes ctx T F texts' (fun A => P A ∧ Q A a) (f a) R) :
    Computes ctx T F (texts ++ texts') P (m >>= f) R :=
  h.bind_of fun _ a _ _ _ => k a

/-- What follows a step may add no constants. -/
theorem last (h : Computes ctx T F texts P m Q)
    (k : ∀ a, Computes ctx T F [] (fun A => P A ∧ Q A a) (f a) R) :
    Computes ctx T F texts P (m >>= f) R := by
  have hbind := h.bind k
  rwa [List.append_nil] at hbind

theorem mono {Q' : Access → α → Prop} (h : Computes ctx T F texts P m Q) (hP : ∀ A, P' A → P A)
    (hQ : ∀ A a, P' A → Q A a → Q' A a) : Computes ctx T F texts P' m Q' := by
  refine ⟨fun hT hrun => ?_, h.adds, h.fails⟩
  obtain ⟨hquiet, henlarge⟩ := h.code hT hrun
  refine ⟨hquiet, fun A hcode hP' hhosts => ?_⟩
  obtain ⟨henlarges, hQA⟩ := henlarge A hcode (hP A hP') hhosts
  exact ⟨henlarges, hQ A _ hP' hQA⟩

theorem given (h : Computes ctx T F texts P m Q) (hP : ∀ A, P' A → P A) :
    Computes ctx T F texts P' m Q :=
  h.mono hP fun _ _ _ hQ => hQ

theorem seq (h : Computes ctx T F texts P m Q) (k : ∀ a, Computes ctx T F texts' P (f a) R) :
    Computes ctx T F (texts ++ texts') P (m >>= f) R :=
  h.bind fun a => (k a).given fun _ hA => hA.1

theorem anyway (h : Computes ctx T F texts P m Q) : Computes ctx T F texts P m fun _ _ => True :=
  h.mono (fun _ hP => hP) fun _ _ _ _ => trivial

/-- Steps one after the other. -/
theorem mapM {R : Access → α → Prop} {ms : List (Lower α)} {textss : List (List String)}
    (h : List.Forall₂ (fun texts m => Computes ctx T F texts P m R) textss ms) :
    Computes ctx T F textss.flatten P (ms.mapM id) fun A ys => ∀ y ∈ ys, R A y := by
  induction ms generalizing P textss with
  | nil =>
    cases h
    exact Computes.pure (by simp)
  | cons m ms ih =>
    obtain _ | ⟨hm, hms⟩ := h
    rw [List.mapM_cons, List.flatten_cons]
    refine hm.bind fun y => (ih (hms.imp fun _ _ hz => hz.given fun _ hP => hP.1)).last fun ys => ?_
    refine Computes.pure ?_
    rintro A ⟨⟨-, hy⟩, hys⟩ z hz
    rcases List.mem_cons.mp hz with rfl | hz
    · exact hy
    · exact hys z hz

theorem map {f : α → β} {Q : Access → β → Prop}
    (h : Computes ctx T F texts P m fun A a => Q A (f a)) : Computes ctx T F texts P (f <$> m) Q := by
  have hb := h.last (f := fun a => (Pure.pure (f a) : Lower β)) (R := Q) fun a =>
    Computes.pure fun _ hA => hA.2
  rwa [bind_pure_comp] at hb

theorem get_bind {f : State → Lower β} (h : ∀ s, SameTables T s → Computes ctx T F texts P (f s) R) :
    Computes ctx T F texts P (get >>= f) R :=
  ⟨fun hT hrun => (h _ hT).code hT hrun, fun hT hrun => (h _ hT).adds hT hrun,
    fun hT hrun => (h _ hT).fails hT hrun⟩

theorem read_bind {f : Context → Lower β} (h : Computes ctx T F texts P (f ctx) R) :
    Computes ctx T F texts P (read >>= f) R :=
  ⟨fun hT hrun => h.code hT hrun, fun hT hrun => h.adds hT hrun, fun hT hrun => h.fails hT hrun⟩

theorem throw {e : Error} (h : F e) :
    Computes ctx T F texts P (MonadExcept.throw e) Q where
  code := fun _ hrun => nomatch hrun
  adds := fun _ hrun => nomatch hrun
  fails := fun _ hrun => Except.error.inj hrun ▸ h

/-- A mistake in the unit is reported. -/
theorem diagnose {e : Error} (h : e.classify = .diagnostic) :
    Computes ctx T (Excusing F) texts P (MonadExcept.throw e) Q :=
  throw (.inl (.inl h))

theorem diagnose_bind {e : Error} (h : e.classify = .diagnostic) :
    Computes ctx T (Excusing F) texts P (MonadExcept.throw e >>= f) R := by
  show Computes ctx T (Excusing F) texts P (MonadExcept.throw e : Lower β) R
  exact diagnose h

theorem refuse {operator hint : String} :
    Computes ctx T (Excusing F) texts P (refuse operator hint) Q :=
  diagnose rfl

theorem lift {x : Except Error α} (h : ∀ A a, P A → x = .ok a → Q A a)
    (he : ∀ e, x = .error e → F e) : Computes ctx T F [] P (liftM x) Q := by
  cases x with
  | error e => exact throw (he e rfl)
  | ok a => exact pure fun A hP => h A a hP rfl

theorem modify {f : State → State} (h : ∀ s, (f s).builder = s.builder ∧ Adds s (f s) ∧
    (f s).assembly.globals = s.assembly.globals ∧ (f s).strings = s.strings) :
    Computes ctx T F [] P (modify f) fun _ _ => True := by
  refine of_ok (fun _ => rfl) (fun s _ => ?_) (fun s => ?_) fun s A _ _ _ => ?_ <;>
    obtain ⟨hbuilder, hadds, hglobals, hstrings⟩ := h s
  · exact hadds.quiet hglobals
  · exact ⟨hstrings, by rw [hglobals]⟩
  · exact ⟨by rw [hbuilder]; exact .refl _, trivial⟩

end Computes

theorem Writes.computes (h : Writes P e Q) : Computes ctx T F [] P (emit e) Q := by
  refine .of_ok (a := fun s => (e s.builder).1)
    (n := fun s => { s with builder := (e s.builder).2 }) (fun _ => rfl) (fun s _ => ?_)
    (fun _ => ⟨rfl, rfl⟩) fun s => (h s.builder).2
  have hadds : Adds s { s with builder := (e s.builder).2 } :=
    { Adds.refl s with builder := (h s.builder).1 }
  exact hadds.quiet rfl

theorem Writes.lifted (h : Writes P e Q) : Computes ctx T F [] P (liftM e) Q :=
  h.computes

theorem Computes.perform {x : Except Error (Emit α)} (h : ∀ e, x = .ok e → Writes P e Q)
    (he : ∀ e, x = .error e → F e) : Computes ctx T F [] P (perform x) Q := by
  cases x with
  | error e => exact throw (he e rfl)
  | ok e => exact (h e rfl).computes

/-! ## Operations of the builder -/

theorem writes_define {ty : Ty} {instr : Reg → Instr} {Q : Access → Value → Prop}
    (h : ∀ A dst, P A → DefinedOnce A.code → instr dst ∈ A.code →
      (∀ above, A.Allows above (instr dst)) ∧ Q A (.reg dst ty)) :
    Writes P (Emit.define ty instr) Q := by
  intro b
  have hext : Extends b (Builder.push { b with nextReg := b.nextReg + 1 } (instr b.nextReg)) :=
    ⟨(extends_push { b with nextReg := b.nextReg + 1 } _).code, Nat.le_succ _, List.Subset.refl _⟩
  refine ⟨hext, fun A hcode hP hhosts => ?_⟩
  have htaken := Enlarges.taken hhosts
  have hplace := htaken.hosts hhosts
  obtain ⟨hallows, hQ⟩ := h A b.nextReg hP hhosts.once (hcode hplace.mem_push)
  exact ⟨htaken.trans (.push hplace hallows), hQ⟩

theorem writes_push {i : Instr} (h : ∀ A, P A → ∀ above, A.Allows above i) :
    Writes P (Emit.push i) fun _ _ => True :=
  fun b => ⟨extends_push b i, fun A _ hP hhosts => ⟨.push hhosts (h A hP), trivial⟩⟩

theorem writes_alloca {ty : Ty} (h : ∀ A, P A → (∃ storage : StorageClass, ty = storage.slotType) ∨
      A.scope = .function ∧ ty = .named recordTypeName) :
    Writes P (Emit.alloca ty) fun A v => ∃ dst, v = .reg dst .ptr ∧ .alloca dst ty ∈ A.code := by
  intro b
  have hext : Extends b (Builder.pushEntry { b with nextReg := b.nextReg + 1 }
      (.alloca b.nextReg ty)) :=
    ⟨(extends_pushEntry { b with nextReg := b.nextReg + 1 } _).code, Nat.le_succ _,
      List.Subset.refl _⟩
  refine ⟨hext, fun A hcode hP hhosts => ?_⟩
  have htaken := Enlarges.taken hhosts
  have hplace := htaken.hosts hhosts
  exact ⟨htaken.trans (.pushEntry hplace (.alloca _ (h A hP))), _, rfl, hcode hplace.mem_pushEntry⟩

theorem writes_load {ty : Ty} {slot : Value}
    (h : ∀ A dst, P A → ∀ above, A.Allows above (.load dst ty slot)) :
    Writes P (Emit.load ty slot) fun A v => v.ty = ty ∧ (ty = .ptr → A.Reads v slot) ∧
      ((A.confines → ∀ storage, A.Cell storage slot → storage.isTracked = false) → ¬ A.Confined v) :=
  writes_define fun A dst hP honce hmem =>
    ⟨h A dst hP, rfl, fun hty => ⟨dst, by rw [hty], by rw [← hty]; exact hmem⟩,
      not_confined_of_load honce hmem⟩

theorem writes_store {value slot : Value}
    (h : ∀ A, P A → ∀ above, A.Allows above (.store value slot)) :
    Writes P (Emit.store value slot) fun _ _ => True :=
  writes_push h

theorem writes_call {ret : Ty} {callee : String} {args : List Value}
    (h : ∀ A dst, P A → ∀ above, A.Allows above (.call (some dst) ret callee args)) :
    Writes P (Emit.call ret callee args) fun A v => v.ty = ret ∧ ¬ A.Confined v ∧
      ∃ dst, v = .reg dst ret ∧ .call (some dst) ret callee args ∈ A.code :=
  writes_define fun A dst hP honce hmem =>
    ⟨h A dst hP, rfl, not_confined_of_mem honce hmem rfl (by simp) (by simp), dst, rfl, hmem⟩

theorem writes_callVoid {callee : String} {args : List Value}
    (h : ∀ A, P A → ∀ above, A.Allows above (.call none .void callee args)) :
    Writes P (Emit.callVoid callee args) fun _ _ => True :=
  writes_push h

theorem writes_callPlain {ret : Ty} {callee : String} {args : List Value}
    (hcallee : callee ∉ Catalog.recordFunctions) (h : ∀ A, P A → ∀ v ∈ args, ¬ A.Confined v) :
    Writes P (Emit.call ret callee args) fun A v => ¬ A.Confined v :=
  (writes_call fun A _ hP _ => .call _ _ (.inl hcallee) (h A hP)).mono (fun _ hP => hP)
    fun _ _ _ hQ => hQ.2.1

theorem writes_callVoidPlain {callee : String} {args : List Value}
    (hcallee : callee ∉ Catalog.recordFunctions) (h : ∀ A, P A → ∀ v ∈ args, ¬ A.Confined v) :
    Writes P (Emit.callVoid callee args) fun _ _ => True :=
  writes_callVoid fun A hP _ => .call _ _ (.inl hcallee) (h A hP)

theorem writes_compute {ty : Ty} {instr : Reg → Instr}
    (hi : ∀ dst, (instr dst).isComputation = true ∧ (instr dst).dst? = some dst)
    (h : ∀ A dst, P A → ∀ v ∈ (instr dst).operands, ¬ A.Confined v) :
    Writes P (Emit.define ty instr) fun A v => ¬ A.Confined v := by
  refine writes_define fun A dst hP honce hmem => ⟨fun _ => .compute (hi dst).1 (h A dst hP), ?_⟩
  refine not_confined_of_mem honce hmem (hi dst).2 (fun r ty heq => ?_) fun r ty ptr heq => ?_
  all_goals
    have hcomputes := (hi dst).1
    simp [heq, Instr.isComputation] at hcomputes

theorem writes_compareNull {pred : IntPred} :
    Writes P (Emit.icmp pred v .null) fun A w => ¬ A.Confined w :=
  writes_define fun _ dst _ _ _ =>
    ⟨fun _ => .compareNull dst pred v, not_confined_of_ty (by simp [Value.reg])⟩

theorem writes_gep {element : Ty} {base index : Value}
    (h : ∀ A, P A → ¬ A.Confined base ∧ ¬ A.Confined index) :
    Writes P (Emit.gep element base index) fun A v =>
      ∃ r, v = .reg r .ptr ∧ .gep r element base index ∈ A.code :=
  writes_define fun A dst hP _ hmem =>
    ⟨fun _ => .compute rfl (by simpa [Instr.operands] using h A hP), dst, rfl, hmem⟩

theorem ty_foldConstant {op : CastOp} {w : Value} (hop : op = .bitcast ∨ op = .ptrtoint)
    (h : foldConstant? op v .i64 = some w) : w.ty = .i64 := by
  obtain ⟨ty, o⟩ := v
  unfold foldConstant? at h
  rcases hop with rfl | rfl <;> cases o <;> simp [Ty.i64] at h <;> rw [← h] <;> rfl

theorem reg?_foldConstant {op : CastOp} {w : Value} {target : Ty}
    (h : foldConstant? op v target = some w) : w.reg? = none := by
  have hsome : ∀ {c : Value}, c.reg? = none → some c = some w → w.reg? = none := by
    rintro c hc ⟨⟩
    exact hc
  have hif : ∀ {p : Prop} [Decidable p] {c : Value}, c.reg? = none →
      (if p then some c else none) = some w → w.reg? = none := by
    intro p _ c hc h
    split at h
    · exact hsome hc h
    · simp at h
  obtain ⟨ty, o⟩ := v
  cases op <;> cases o
  case sitofp.int | ptrtoint.null => exact hsome rfl h
  case uitofp.int v =>
    have h : (if ty = .bool then some (.float (if v ≠ 0 then .one else .zero))
      else some (.float (.ofNat v.toUInt64.toNat))) = some w := h
    split at h <;> exact hsome rfl h
  case bitcast.float | bitcast.int | inttoptr.int | zext.int => exact hif rfl h
  all_goals exact absurd (show none = some w from h) (by simp)

theorem undone?_eq_some {b : Builder} {op : CastOp} {w : Value} {target : Ty}
    (h : b.undone? op v target = some w) : w.ty = target ∧ ∃ e ∈ b.casts, e.2.2 = w := by
  simp only [Builder.undone?, Option.bind_eq_bind, Option.bind_eq_some_iff] at h
  obtain ⟨r, -, ⟨source, operand⟩, hlookup, h⟩ := h
  split at h
  · obtain rfl := Option.some.inj h
    exact ⟨(And.right ‹_›), _, Stage.mem_of_lookup hlookup, rfl⟩
  · simp at h

theorem writes_cast {op : CastOp} {target : Ty} (h : ∀ A, P A → ¬ A.Confined v) :
    Writes P (Emit.cast op v target) fun A w => ¬ A.Confined w ∧
      ((op = .bitcast ∨ op = .ptrtoint) → target = .i64 → w.ty = .i64) := by
  unfold Emit.cast
  split
  case isTrue hsame => exact Writes.pure fun A hP => ⟨h A hP, fun _ ht => hsame.1.trans ht⟩
  case isFalse =>
    split
    case h_1 w hw =>
      exact Writes.pure fun _ _ => ⟨not_confined_of_reg? (reg?_foldConstant hw),
        fun hop ht => ty_foldConstant hop (ht ▸ hw)⟩
    case h_2 =>
      refine Writes.get_bind fun b => ?_
      split
      case h_1 w hw =>
        obtain ⟨hty, e, he, rfl⟩ := undone?_eq_some hw
        exact Writes.pure fun A hA => ⟨hA.2.casts e he, fun _ ht => hty.trans ht⟩
      case h_2 =>
        intro b
        have hext := extends_push
          { b with nextReg := b.nextReg + 1, casts := (b.nextReg, op, v) :: b.casts }
          (.cast b.nextReg op v target)
        refine ⟨⟨hext.code, Nat.le_succ _, List.subset_cons_self _ _⟩,
          fun A hcode hA hhosts => ?_⟩
        have htaken := Enlarges.converted op hhosts (h A hA.1)
        have hplace := htaken.hosts hhosts
        refine ⟨htaken.trans (.push hplace fun _ => .compute rfl
          (by simpa [Instr.operands] using h A hA.1)), ?_, fun _ ht => ht⟩
        exact not_confined_of_mem hhosts.once (hcode hplace.mem_push) rfl (by simp) (by simp)

/-! ## Conversions -/

/-- A value is no boxed record, and a word has the type of words. -/
structure IsPlain (A : Access) (v : Typed) : Prop where
  kind : v.kind ≠ .tracked
  word : v.kind = .packed → v.value.ty = .i64
  loose : ¬ A.Confined v.value

/-- A boxed record is that of a variable, and a word has the type of words. -/
structure Knows (A : Access) (v : Typed) : Prop where
  record : v.kind = .tracked → A.IsRecord v.value
  word : v.kind = .packed → v.value.ty = .i64
  loose : v.kind ≠ .tracked → ¬ A.Confined v.value

theorem IsPlain.knows {v : Typed} (h : A.IsPlain v) : A.Knows v :=
  ⟨fun ht => absurd ht h.kind, h.word, fun _ => h.loose⟩

theorem Knows.isPlain {v : Typed} (h : A.Knows v) (hne : v.kind ≠ .tracked) : A.IsPlain v :=
  ⟨hne, h.word, h.loose hne⟩

theorem isPlain_scalar (h : ¬ A.Confined v) : A.IsPlain (.scalar v) :=
  ⟨by simp [Typed.scalar], by simp [Typed.scalar], h⟩

theorem isPlain_const (h : v.reg? = none) : A.IsPlain (.scalar v) :=
  isPlain_scalar (not_confined_of_reg? h)

theorem isPlain_list (h : ¬ A.Confined v) : A.IsPlain (.list v) :=
  ⟨by simp [Typed.list], by simp [Typed.list], h⟩

theorem isPlain_text (h : ¬ A.Confined v) : A.IsPlain (.text v) :=
  ⟨by simp [Typed.text], by simp [Typed.text], h⟩

theorem isPlain_struct (h : ¬ A.Confined v) (name : String) : A.IsPlain (.struct v name) :=
  ⟨by simp [Typed.struct], by simp [Typed.struct], h⟩

theorem isPlain_packed (h : v.ty = .i64) : A.IsPlain (.packed v) :=
  ⟨by simp [Typed.packed], fun _ => h, not_confined_of_ty (by rw [Typed.packed, h]; decide)⟩

variable {v : Typed}

theorem writes_toScalar (h : ∀ A, P A → A.Knows v) :
    Writes P (toScalar v) fun A w => ¬ A.Confined w := by
  have hcast : v.kind ≠ .tracked → ∀ op target,
      Writes P (Emit.cast op v.value target) fun A w => ¬ A.Confined w := fun hne op target =>
    (writes_cast fun A hP => (h A hP).loose hne).mono (fun _ hP => hP) fun _ _ _ hQ => hQ.1
  have hbits : v.kind ≠ .tracked → Writes P (do
      let bits ← Emit.cast .ptrtoint v.value .i64
      Emit.cast .bitcast bits .double) fun A w => ¬ A.Confined w := fun hne =>
    (hcast hne _ _).bind fun _ =>
      (writes_cast fun _ hA => hA.2).mono (fun _ hP => hP) fun _ _ _ hQ => hQ.1
  unfold toScalar
  split
  case h_1 hk =>
    split
    case isTrue => exact hcast (by simp [hk]) _ _
    case isFalse => exact Writes.pure fun A hP => (h A hP).loose (by simp [hk])
  case h_2 hk =>
    exact (writes_call fun A dst hP _ => .ask _ _ ((h A hP).record hk) (by decide)).mono
      (fun _ hP => hP) fun _ _ _ hQ => hQ.2.1
  case h_3 hk | h_4 hk | h_5 hk => exact hbits (by simp [hk])
  case h_6 hk => exact hcast (by simp [hk]) _ _

theorem writes_isNonzero (h : ∀ A, P A → A.Knows v) :
    Writes P (isNonzero v) fun A w => ¬ A.Confined w :=
  (writes_toScalar h).bind fun _ => writes_compute (fun _ => ⟨rfl, rfl⟩) fun A _ hA => by
    simpa [Instr.operands] using ⟨hA.2, not_confined_of_reg? rfl⟩

theorem writes_toBoolean (h : ∀ A, P A → A.Knows v) {e : Emit Value} (he : toBoolean v = .ok e) :
    Writes P e fun A w => ¬ A.Confined w := by
  unfold toBoolean at he
  split at he
  case h_1 hk _ =>
    obtain rfl := Except.ok.inj he
    exact Writes.pure fun A hP => (h A hP).loose (by simp [hk])
  case h_2 | h_3 | h_4 =>
    obtain rfl := Except.ok.inj he
    exact writes_isNonzero h
  case h_5 | h_6 | h_7 =>
    obtain rfl := Except.ok.inj he
    exact writes_compareNull
  case h_8 => simp at he

theorem writes_byValue (h : ∀ A, P A → A.Knows v) : Writes P (byValue v) fun A w => A.IsPlain w := by
  unfold byValue
  split
  case h_1 => exact (writes_toScalar h).bind fun w => Writes.pure fun _ hA => isPlain_scalar hA.2
  case h_2 hne => exact Writes.pure fun A hP => (h A hP).isPlain hne

/-- A value on its way into a word is no boxed record, and a word has the type of words. -/
def Carries (A : Access) : Slot → Prop
  | .number x => ¬ A.Confined x
  | .pointer p => ¬ A.Confined p
  | .word w => w.ty = .i64

theorem writes_ofTyped (h : ∀ A, P A → A.IsPlain v) :
    Writes P (Slot.ofTyped v) fun A s => A.Carries s := by
  unfold Slot.ofTyped
  split
  case h_1 =>
    exact (writes_toScalar fun A hP => (h A hP).knows).bind fun w => Writes.pure fun _ hA => hA.2
  case h_6 hk => exact Writes.pure fun A hP => (h A hP).word hk
  all_goals exact Writes.pure fun A hP => (h A hP).loose

theorem writes_erase {s : Slot} (h : ∀ A, P A → A.Carries s) :
    Writes P s.erase fun _ w => w.ty = .i64 := by
  cases s with
  | number x => exact (writes_cast h).mono (fun _ hP => hP) fun _ _ _ hQ => hQ.2 (.inl rfl) rfl
  | pointer p => exact (writes_cast h).mono (fun _ hP => hP) fun _ _ _ hQ => hQ.2 (.inr rfl) rfl
  | word w => exact Writes.pure fun A hP => h A hP

theorem writes_pack (h : ∀ A, P A → A.IsPlain v) : Writes P (pack v) fun _ w => w.ty = .i64 :=
  (writes_ofTyped h).bind fun _ => writes_erase fun _ hA => hA.2

theorem writes_unpack {word : Value} {want : Kind} (hwant : want ≠ .tracked)
    (h : ∀ A, P A → word.ty = .i64) :
    Writes P (unpack word want) fun A w => w.kind = want ∧ A.IsPlain w := by
  have hcast : ∀ op target, Writes P (Emit.cast op word target) fun A w => ¬ A.Confined w :=
    fun op target => (writes_cast fun A hP => not_confined_of_ty (by rw [h A hP]; decide)).mono
      (fun _ hP => hP) fun _ _ _ hQ => hQ.1
  unfold unpack
  split
  case h_1 =>
    exact (hcast _ _).bind fun w => Writes.pure fun _ hA => ⟨rfl, isPlain_scalar hA.2⟩
  case h_2 => exact Writes.pure fun A hP => ⟨rfl, isPlain_packed (h A hP)⟩
  case h_3 kind _ hne =>
    refine (hcast _ _).bind fun w => Writes.pure fun _ hA => ⟨rfl, hwant, fun hp => ?_, hA.2⟩
    exact absurd hp hne

theorem writes_coerce {want : Kind} (hwant : want ≠ .tracked) (h : ∀ A, P A → A.Knows v)
    {e : Emit Typed} (he : coerce v want = .ok e) :
    Writes P e fun A w => w.kind = want ∧ A.IsPlain w := by
  unfold coerce at he
  split at he
  case isTrue heq =>
    obtain rfl := Except.ok.inj he
    exact Writes.pure fun A hP => ⟨heq, (h A hP).isPlain fun ht => hwant (heq.symm.trans ht)⟩
  case isFalse =>
    split at he
    case h_1 hk _ =>
      obtain rfl := Except.ok.inj he
      exact writes_unpack hwant fun A hP => (h A hP).word hk
    case h_2 hk _ =>
      obtain rfl := Except.ok.inj he
      exact Writes.pure fun A hP => ⟨rfl, isPlain_struct ((h A hP).loose (by simp [hk])) _⟩
    case h_3 =>
      obtain rfl := Except.ok.inj he
      exact (writes_toScalar h).bind fun w => Writes.pure fun _ hA => ⟨rfl, isPlain_scalar hA.2⟩
    case h_4 => simp at he

theorem coerce_ne_error {want : Kind} (h : v.kind = want ∨ v.kind = .packed) (e : Error) :
    coerce v want ≠ .error e := by
  unfold coerce
  split
  case isTrue => simp
  case isFalse hne => rw [h.resolve_left hne]; simp

/-- A value is taken for one of another kind where that is possible. -/
theorem computes_coerce {want : Kind} (hwant : want ≠ .tracked) (h : ∀ A, P A → A.Knows v)
    (hkind : v.kind = want ∨ v.kind = .packed) :
    Computes ctx T F [] P (perform (coerce v want)) fun A w => w.kind = want ∧ A.IsPlain w :=
  .perform (fun _ he => writes_coerce hwant h he) fun e he => absurd he (coerce_ne_error hkind e)

theorem computes_toBoolean (h : ∀ A, P A → A.Knows v) :
    Computes ctx T (Excusing F) [] P (perform (toBoolean v)) fun A w => ¬ A.Confined w := by
  refine .perform (fun _ he => writes_toBoolean h he) fun e he => .inl (.inr ?_)
  unfold toBoolean at he
  split at he <;> cases he
  exact ⟨_, rfl⟩

end

end Access

end ScriptCompiler.Lowering
