import ScriptCompiler.Proofs.Clashes
import ScriptCompiler.Proofs.Kinds
import ScriptCompiler.Proofs.Stage.Straight

/-!
# The layout of field reads

A field of a struct is read at its position in the type of the struct. For a variable that is assigned
structs only, lowering takes the type of the one assigned last, in the order of the text (`lastStruct`):
behind a branch this is the one of the second part, and at the beginning of a loop the one from before.
Where control goes is decided later. A path through the text takes one part of a branch and goes round a
loop any number of times (`Follows`), and comes to a place with some type assigned last on its way
(`Meets`).

Every read of a field uses the position in the type that is the last one in the text
(`generate_fieldReads`). That is the one on every path, if the types change outside of branches and
loops only (`isSteady`). Otherwise it may be another (`fieldReads_eitherWay`).
-/

namespace ScriptCompiler.Lowering

open Ir List
open Access (SameTables)
open Numeric (Outcome)

/-! ## The text -/

/-- The type of the struct that an expression makes. -/
def structName? : Node → Option String
  | .structLiteral type _ => some type
  | _ => none

mutual

/-- The struct types that a statement declares, in whatever branch. -/
def declaredStructs : Node → Table (List String)
  | .structDef name fields => [(name, fields)]
  | .conditional _ thenBlock elseBlock =>
    declaredStructsAll thenBlock ++ declaredStructsAll elseBlock
  | .loop _ body => declaredStructsAll body
  | _ => []

/-- The struct types that statements declare. -/
def declaredStructsAll : List Node → Table (List String)
  | [] => []
  | node :: rest => declaredStructs node ++ declaredStructsAll rest

end

mutual

/-- The types of the structs that a statement assigns to a variable, in the order of the text. A value
of another kind has none. -/
def assignedTypes (p : String) : Node → List (Option String)
  | .assignment name value => if name = p then [structName? value] else []
  | .conditional _ thenBlock elseBlock =>
    assignedTypesAll p thenBlock ++ assignedTypesAll p elseBlock
  | .loop _ body => assignedTypesAll p body
  | _ => []

/-- The types of the structs that statements assign to a variable. -/
def assignedTypesAll (p : String) : List Node → List (Option String)
  | [] => []
  | node :: rest => assignedTypes p node ++ assignedTypesAll p rest

end

/-- What statements assign to a variable passes a test. -/
def assignsAll (test : Option String → Bool) (p : String) (nodes : List Node) : Bool :=
  (assignedTypesAll p nodes).all test

/-- Statements assign structs to a variable and nothing else. -/
abbrev assignsStructs : String → List Node → Bool := assignsAll Option.isSome

/-- Statements assign structs of one type only to a variable. -/
abbrev assignsOnly (τ : Option String) : String → List Node → Bool := assignsAll (· = τ)

/-- The type of the struct that is assigned to a variable last in the text, when it was `τ` before. -/
def lastStruct (p : String) (τ : Option String) (nodes : List Node) : Option String :=
  (assignedTypesAll p nodes).getLast?.getD τ

/-- The statement assigns to a variable itself, or assigns structs of one type only. -/
def isSteadyStep (p : String) (τ : Option String) : Node → Bool
  | .assignment .. => true
  | node => assignsOnly τ p [node]

/-- Inside of branches and loops, a variable is assigned structs of the type only that it has when they
begin. -/
def isSteady (p : String) : Option String → List Node → Bool
  | _, [] => true
  | τ, node :: rest => isSteadyStep p τ node && isSteady p (lastStruct p τ [node]) rest

/-! ## Paths -/

/-- Control goes on behind the statement, and the variable is as it was. -/
def passesBy (p : String) : Node → Bool
  | .assignment name _ => name ≠ p
  | .conditional .. | .loop .. | .breakLoop | .ret _ => false
  | _ => true

/-- A path through statements, whatever conditions say. The type of the struct that was assigned to the
variable last is `t` when the path begins and `t'` when it ends, behind the statements or with a
`break`. -/
inductive Follows (p : String) : List Node → Option String → Outcome → Option String → Prop where
  | done {t : Option String} : Follows p [] t .normal t
  | assign {value : Node} {rest : List Node} {outcome : Outcome} {t t' : Option String}
      (next : Follows p rest (structName? value) outcome t') :
      Follows p (.assignment p value :: rest) t outcome t'
  | pass {node : Node} {rest : List Node} {outcome : Outcome} {t t' : Option String}
      (passes : passesBy p node = true) (next : Follows p rest t outcome t') :
      Follows p (node :: rest) t outcome t'
  | leave {rest : List Node} {t : Option String} : Follows p (.breakLoop :: rest) t .broke t
  | branch {condition : Node} {thenBlock elseBlock taken rest : List Node} {outcome : Outcome}
      {t t₁ t' : Option String} (either : taken = thenBlock ∨ taken = elseBlock)
      (first : Follows p taken t .normal t₁) (next : Follows p rest t₁ outcome t') :
      Follows p (.conditional condition thenBlock elseBlock :: rest) t outcome t'
  | outOfBranch {condition : Node} {thenBlock elseBlock taken rest : List Node}
      {t t' : Option String} (either : taken = thenBlock ∨ taken = elseBlock)
      (first : Follows p taken t .broke t') :
      Follows p (.conditional condition thenBlock elseBlock :: rest) t .broke t'
  | skip {condition : Node} {body rest : List Node} {outcome : Outcome} {t t' : Option String}
      (next : Follows p rest t outcome t') : Follows p (.loop condition body :: rest) t outcome t'
  | round {condition : Node} {body rest : List Node} {outcome : Outcome} {t t₁ t' : Option String}
      (first : Follows p body t .normal t₁)
      (next : Follows p (.loop condition body :: rest) t₁ outcome t') :
      Follows p (.loop condition body :: rest) t outcome t'
  | outOfLoop {condition : Node} {body rest : List Node} {outcome : Outcome}
      {t t₁ t' : Option String} (first : Follows p body t .broke t₁)
      (next : Follows p rest t₁ outcome t') : Follows p (.loop condition body :: rest) t outcome t'

/-- A path through statements comes to the statements `inner`, and to their first one in particular. The
type that is last in the text is `τ` at the beginning and `τ'` where the path has come, and the one that
was assigned last on the path is `t` and `t'`. -/
inductive Meets (p : String) (inner : List Node) :
    List Node → Option String → Option String → Option String → Option String → Prop where
  | here {τ t : Option String} : Meets p inner inner τ t τ t
  | later {node : Node} {rest : List Node} {τ t t₁ τ' t' : Option String}
      (first : Follows p [node] t .normal t₁) (next : Meets p inner rest (lastStruct p τ [node]) t₁ τ' t') :
      Meets p inner (node :: rest) τ t τ' t'
  | inThen {condition : Node} {thenBlock elseBlock rest : List Node} {τ t τ' t' : Option String}
      (h : Meets p inner thenBlock τ t τ' t') :
      Meets p inner (.conditional condition thenBlock elseBlock :: rest) τ t τ' t'
  | inElse {condition : Node} {thenBlock elseBlock rest : List Node} {τ t τ' t' : Option String}
      (h : Meets p inner elseBlock (lastStruct p τ thenBlock) t τ' t') :
      Meets p inner (.conditional condition thenBlock elseBlock :: rest) τ t τ' t'
  | inLoop {condition : Node} {body rest : List Node} {τ t τ' t' : Option String}
      (h : Meets p inner body τ t τ' t') : Meets p inner (.loop condition body :: rest) τ t τ' t'
  | round {condition : Node} {body rest : List Node} {τ t t₁ τ' t' : Option String}
      (first : Follows p body t .normal t₁)
      (next : Meets p inner (.loop condition body :: rest) τ t₁ τ' t') :
      Meets p inner (.loop condition body :: rest) τ t τ' t'

section

variable {p : String} {τ t τ' t' : Option String} {node : Node} {nodes inner rest : List Node}
  {outcome : Outcome}

/-! ## Steady texts -/

attribute [local simp] assignedTypes assignedTypesAll

/-! What stands later in the text is assigned later. -/

theorem lastStruct_cons (p : String) (τ : Option String) (node : Node) (rest : List Node) :
    lastStruct p τ (node :: rest) = lastStruct p (lastStruct p τ [node]) rest := by
  simp [lastStruct, List.getLast?_append, Option.getD_or]

theorem lastStruct_conditional (p : String) (τ : Option String) (condition : Node)
    (thenBlock elseBlock : List Node) : lastStruct p τ [.conditional condition thenBlock elseBlock] =
      lastStruct p (lastStruct p τ thenBlock) elseBlock := by
  simp [lastStruct, List.getLast?_append, Option.getD_or]

theorem lastStruct_loop (p : String) (τ : Option String) (condition : Node) (body : List Node) :
    lastStruct p τ [.loop condition body] = lastStruct p τ body := by
  simp [lastStruct]

theorem lastStruct_of_assignsOnly (h : assignsOnly τ p nodes = true) : lastStruct p τ nodes = τ := by
  unfold lastStruct
  cases hlast : (assignedTypesAll p nodes).getLast? with
  | none => rfl
  | some type => exact of_decide_eq_true (all_eq_true.mp h type (mem_of_getLast? hlast))

section

variable {test : Option String → Bool}

theorem assignsAll_cons :
    assignsAll test p (node :: rest) = true ↔
      assignsAll test p [node] = true ∧ assignsAll test p rest = true := by
  simp [assignsAll]

theorem assignsAll_conditional {condition : Node} {thenBlock elseBlock : List Node} :
    assignsAll test p [.conditional condition thenBlock elseBlock] = true ↔
      assignsAll test p thenBlock = true ∧ assignsAll test p elseBlock = true := by
  simp [assignsAll]

theorem assignsAll_loop {condition : Node} {body : List Node} :
    assignsAll test p [.loop condition body] = true ↔ assignsAll test p body = true := by
  simp [assignsAll]

end

theorem isSteady_of_assignsOnly :
    {nodes : List Node} → assignsOnly τ p nodes = true → isSteady p τ nodes = true
  | [], _ => rfl
  | node :: rest, h => by
    obtain ⟨hnode, hrest⟩ := assignsAll_cons.mp h
    rw [isSteady, lastStruct_of_assignsOnly hnode, isSteady_of_assignsOnly hrest, Bool.and_true]
    unfold isSteadyStep
    split
    · rfl
    · exact hnode

theorem Follows.eq_of_assignsOnly (h : Follows p nodes t outcome t')
    (honly : assignsOnly t p nodes = true) : t' = t := by
  induction h with
  | done | leave => rfl
  | assign _ ih =>
    obtain ⟨hvalue, hrest⟩ := assignsAll_cons.mp honly
    obtain rfl : structName? _ = _ := by
      simpa [assignsAll] using hvalue
    exact ih hrest
  | pass _ _ ih | skip _ ih => exact ih (assignsAll_cons.mp honly).2
  | branch either _ _ ih ih' =>
    obtain ⟨hbranch, hrest⟩ := assignsAll_cons.mp honly
    obtain ⟨hthen, helse⟩ := assignsAll_conditional.mp hbranch
    obtain rfl := ih (either.elim (· ▸ hthen) (· ▸ helse))
    exact ih' hrest
  | outOfBranch either _ ih =>
    obtain ⟨hthen, helse⟩ := assignsAll_conditional.mp (assignsAll_cons.mp honly).1
    exact ih (either.elim (· ▸ hthen) (· ▸ helse))
  | round _ _ ih ih' =>
    obtain rfl := ih (assignsAll_loop.mp (assignsAll_cons.mp honly).1)
    exact ih' honly
  | outOfLoop _ _ ih ih' =>
    obtain ⟨hloop, hrest⟩ := assignsAll_cons.mp honly
    obtain rfl := ih (assignsAll_loop.mp hloop)
    exact ih' hrest

theorem Follows.eq_lastStruct (h : Follows p [node] t .normal t')
    (hsteady : isSteadyStep p t node = true) : t' = lastStruct p t [node] := by
  unfold isSteadyStep at hsteady
  split at hsteady
  case h_1 name value =>
    cases h with
    | assign next => cases next with | done => simp [lastStruct]
    | pass passes next =>
      have hne : name ≠ p := by simpa [passesBy] using passes
      cases next with | done => simp [lastStruct, hne]
  case h_2 =>
    rw [lastStruct_of_assignsOnly hsteady]
    exact h.eq_of_assignsOnly hsteady

theorem Meets.eq_of_isSteady (h : Meets p inner nodes τ t τ' t') (heq : t = τ)
    (hsteady : isSteady p τ nodes = true) : t' = τ' := by
  induction h with
  | here => exact heq
  | later first _ ih =>
    subst heq
    obtain ⟨hstep, hrest⟩ := Bool.and_eq_true_iff.mp hsteady
    exact ih (first.eq_lastStruct hstep) hrest
  | inThen _ ih =>
    obtain ⟨hthen, -⟩ := assignsAll_conditional.mp (Bool.and_eq_true_iff.mp hsteady).1
    exact ih heq (isSteady_of_assignsOnly hthen)
  | inElse _ ih =>
    obtain ⟨hthen, helse⟩ := assignsAll_conditional.mp (Bool.and_eq_true_iff.mp hsteady).1
    rw [lastStruct_of_assignsOnly hthen] at ih
    exact ih heq (isSteady_of_assignsOnly helse)
  | inLoop _ ih =>
    exact ih heq (isSteady_of_assignsOnly (assignsAll_loop.mp (Bool.and_eq_true_iff.mp hsteady).1))
  | round first _ ih =>
    subst heq
    have hbody := assignsAll_loop.mp (Bool.and_eq_true_iff.mp hsteady).1
    exact ih (first.eq_of_assignsOnly hbody) hsteady

end

/-! ## Variables and struct types -/

/-- The variable that a name reads is a struct of a type, or there is none. -/
def State.HasType (s : State) (p : String) : Option String → Prop
  | none => s.find? p = none
  | some type => ∃ b, s.find? p = some b ∧ b.kind = .struct type ∧ b.storage = .handle ∧
    (s.scope = .topLevel → b.isModuleLevel = true)

/-- What lowering knows in a scope: struct types are among those declared, and the type of a
variable. -/
structure Layouts (declared : Table (List String)) (scope : Scope) (p : String) (τ : Option String)
    (s : State) : Prop where
  scope : s.scope = scope
  structs : s.structs ⊆ declared
  type : s.HasType p τ

/-- From one state to another a variable stays as it is. -/
structure LeavesAlone (p : String) (s s' : State) : Prop where
  scope : s'.scope = s.scope
  structs : s'.structs = s.structs
  find : s'.find? p = s.find? p

section

variable {ctx : Context} {declared : Table (List String)} {scope : Scope}
  {p name type : String} {τ : Option String} {s s' s'' : State} {v : Typed} {b : Binding}

theorem LeavesAlone.trans (h : LeavesAlone p s s') (h' : LeavesAlone p s' s'') : LeavesAlone p s s'' :=
  ⟨h'.scope.trans h.scope, h'.structs.trans h.structs, h'.find.trans h.find⟩

theorem leavesAlone_of_same (h : SameTables s s') : LeavesAlone p s s' :=
  ⟨h.scope, h.structs, congrFun h.find? p⟩

theorem Layouts.after (h : Layouts declared scope p τ s) (halone : LeavesAlone p s s') :
    Layouts declared scope p τ s' where
  scope := halone.scope.trans h.scope
  structs := by rw [halone.structs]; exact h.structs
  type := by
    have htype := h.type
    cases τ with
    | none => exact halone.find.trans htype
    | some type =>
      obtain ⟨b, hfind, hkind⟩ := htype
      exact ⟨b, halone.find.trans hfind, halone.scope ▸ hkind⟩

theorem Layouts.same (h : Layouts declared scope p τ s) (hsame : SameTables s s') :
    Layouts declared scope p τ s' :=
  h.after (leavesAlone_of_same hsame)

theorem find?_bind (s : State) (name p : String) (b : Binding) :
    (s.bind name b).find? p = if p = name then some b else s.find? p := by
  unfold State.find?
  rw [Access.scope_bind]
  cases hscope : s.scope with
  | topLevel => simp [State.bind, hscope, Numeric.lookup_set]
  | function =>
    simp only [State.bind, hscope, Numeric.lookup_set]
    split <;> rfl

theorem structs_bind (s : State) (name : String) (b : Binding) :
    (s.bind name b).structs = s.structs := by
  cases hscope : s.scope <;> simp [State.bind, hscope]

theorem leavesAlone_bind (hne : p ≠ name) : LeavesAlone p s (s.bind name b) :=
  ⟨Access.scope_bind s name b, structs_bind s name b, (find?_bind s name p b).trans (if_neg hne)⟩

theorem Layouts.bind (h : Layouts declared scope p τ s) (hkind : b.kind = .struct type)
    (hstorage : b.storage = .handle) (hmodule : s.scope = .topLevel → b.isModuleLevel = true) :
    Layouts declared scope p (some type) (s.bind p b) where
  scope := (Access.scope_bind s p b).trans h.scope
  structs := by rw [structs_bind]; exact h.structs
  type := ⟨b, (find?_bind s p p b).trans (if_pos rfl), hkind, hstorage, by
    rw [Access.scope_bind]; exact hmodule⟩

/-! ## Steps -/

theorem sameTables_emit {α : Type} {e : Emit α} {a : α}
    (hrun : (liftM e : Lower α) ctx s = .ok (a, s')) : SameTables s s' := by
  obtain rfl := congrArg Prod.snd (Except.ok.inj hrun)
  exact ⟨rfl, rfl, rfl, rfl, rfl, rfl⟩

theorem sameTables_publish (hrun : publish name ctx s = .ok ((), s')) : SameTables s s' :=
  ((Access.computes_publish (D := .unrestricted) (B := []) (P := fun _ => False)
    fun _ hA => hA.elim).given fun _ hA => hA.elim).sameTables hrun

theorem assign_run (hrun : assign name v ctx s = .ok ((), s')) :
    ∃ s₁, (create name v ctx s = .ok ((), s₁) ∨
        ∃ b, s.own.lookup name = some b ∧ change name b v ctx s = .ok ((), s₁)) ∧
      ∀ p, LeavesAlone p s₁ s' := by
  have hnote : ∀ {s₁}, (modify fun s => { s with lastBound := some name } : Lower Unit) ctx s₁ =
      .ok ((), s') → ∀ p, LeavesAlone p s₁ s' := fun h p => by
    obtain rfl := congrArg Prod.snd (Except.ok.inj h)
    exact ⟨rfl, rfl, rfl⟩
  have hrest : ∀ {s₁}, (do
      if s.scope = .topLevel then publish name
      modify fun s => { s with lastBound := some name } : Lower Unit) ctx s₁ = .ok ((), s') →
      ∀ p, LeavesAlone p s₁ s' := by
    intro s₁ h p
    dsimp only at h
    split at h
    case isFalse => exact hnote h p
    case isTrue =>
      obtain ⟨_, s₂, hpublish, h⟩ := run_bind h
      exact (leavesAlone_of_same (sameTables_publish hpublish)).trans (hnote h p)
  rw [assign_eq] at hrun
  rw [run_get] at hrun
  cases hlook : s.own.lookup name <;> rw [hlook] at hrun <;>
    obtain ⟨_, s₁, hfirst, hrun⟩ := run_bind hrun
  · exact ⟨s₁, .inl hfirst, hrest hrun⟩
  · exact ⟨s₁, .inr ⟨_, rfl, hfirst⟩, hrest hrun⟩

theorem create_run (hrun : create name v ctx s = .ok ((), s')) :
    ∃ s₁ b, SameTables s s₁ ∧ s' = s₁.bind name b ∧
      ∀ type, v.kind = .struct type → b.kind = .struct type ∧ b.storage = .handle ∧
        (s.scope = .topLevel → b.isModuleLevel = true) := by
  unfold create createAs at hrun
  rw [run_read, run_get, run_read, run_get] at hrun
  obtain ⟨slot, s₁, hslot, hrun⟩ := run_bind hrun
  obtain ⟨kind, s₂, hfirst, hbind⟩ := run_bind hrun
  obtain rfl := congrArg Prod.snd (Except.ok.inj hbind)
  clear hrun hbind
  generalize hstorage : newStorage s.scope (decide (name ∈ ctx.observed)) v.kind = storage at *
  obtain ⟨hadds, hisSlot, -⟩ := Access.newSlot_spec hslot
  have hlends : ∀ A : Access, False → A.Lends name v := fun _ hA => hA.elim
  have hsame : SameTables s₁ s₂ := (Access.computes_storeFirst (hadds.scope ▸ hstorage.symm)
    (fun _ hA => hA.elim) (fun _ hA => hA.elim) hlends fun _ hA => hA.elim).sameTables hfirst
  refine ⟨s₂, _, hadds.toSameTables.trans hsame, rfl, fun type hkind => ?_⟩
  rw [hkind, newStorage] at hstorage
  subst hstorage
  refine ⟨(Access.run_seq_pure hfirst).trans hkind, rfl, fun htop => ?_⟩
  have hhome : ∀ library shared, slotHome .topLevel .handle library shared = .moduleGlobal := by decide
  rw [htop, hhome] at hisSlot
  obtain rfl : slot = _ := hisSlot
  rfl

theorem change_run (hrun : change name b v ctx s = .ok ((), s')) :
    ∃ u s₁, update b.storage b.kind v.kind = .ok u ∧ SameTables s s₁ ∧
      s' = if u = .rebind then s₁.bind name { b with kind := reboundKind b.kind v.kind } else s₁ := by
  unfold change changeBy at hrun
  obtain ⟨u, s₀, hu, hrun⟩ := run_bind hrun
  obtain ⟨hupdate, rfl⟩ : update b.storage b.kind v.kind = .ok u ∧ s = s₀ := by
    cases hupdate : update b.storage b.kind v.kind with
    | error e => rw [hupdate] at hu; exact nomatch hu
    | ok u' =>
      rw [hupdate] at hu
      obtain ⟨rfl, rfl⟩ := Prod.mk.inj (Except.ok.inj hu)
      exact ⟨rfl, rfl⟩
  cases u with
  | storeScalar | updateBox | storePacked =>
    -- The code of an update changes nothing but the builder.
    refine ⟨_, s', hupdate, ?_, rfl⟩
    obtain rfl := congrArg Prod.snd (Except.ok.inj hrun)
    exact ⟨rfl, rfl, rfl, rfl, rfl, rfl⟩
  | rebind =>
    obtain ⟨coerced, s₁, hcoerce, hrun⟩ := run_bind hrun
    obtain ⟨_, s₂, hstore, hbind⟩ := run_bind hrun
    obtain rfl := congrArg Prod.snd (Except.ok.inj hbind)
    refine ⟨_, s₂, hupdate, SameTables.trans ?_ (sameTables_emit hstore), rfl⟩
    cases hc : coerce v (reboundKind b.kind v.kind) with
    | error e => rw [hc] at hcoerce; exact nomatch hcoerce
    | ok e => rw [hc] at hcoerce; exact sameTables_emit hcoerce

theorem leavesAlone_assign (hne : p ≠ name) (hrun : assign name v ctx s = .ok ((), s')) :
    LeavesAlone p s s' := by
  obtain ⟨s₁, hfirst, hrest⟩ := assign_run hrun
  refine LeavesAlone.trans ?_ (hrest p)
  rcases hfirst with hfirst | ⟨b, -, hfirst⟩
  · obtain ⟨s₂, b, hsame, rfl, -⟩ := create_run hfirst
    exact (leavesAlone_of_same hsame).trans (leavesAlone_bind hne)
  · obtain ⟨u, s₂, -, hsame, rfl⟩ := change_run hfirst
    refine (leavesAlone_of_same hsame).trans ?_
    split
    · exact leavesAlone_bind hne
    · exact ⟨rfl, rfl, rfl⟩

/-- A variable that is a struct is one of the type that was assigned. -/
theorem Layouts.assign (h : Layouts declared scope p τ s) (hkind : v.kind = .struct type)
    (hrun : assign p v ctx s = .ok ((), s')) : Layouts declared scope p (some type) s' := by
  obtain ⟨s₁, hfirst, hrest⟩ := assign_run hrun
  refine Layouts.after ?_ (hrest p)
  rcases hfirst with hfirst | ⟨b, hb, hfirst⟩
  · obtain ⟨s₂, b, hsame, rfl, hb⟩ := create_run hfirst
    obtain ⟨hkind, hstorage, hmodule⟩ := hb type hkind
    exact (h.same hsame).bind hkind hstorage (hsame.scope ▸ hmodule)
  · have htype := h.type
    have hfind := Access.find?_of_own hb
    cases τ with
    | none => simp [State.HasType, hfind] at htype
    | some type' =>
      obtain ⟨b', hb', hkind', hstorage, hmodule⟩ := htype
      obtain rfl : b = b' := Option.some.inj (hfind.symm.trans hb')
      obtain ⟨u, s₂, hu, hsame, rfl⟩ := change_run hfirst
      rw [hstorage, hkind, hkind'] at hu
      obtain rfl : .rebind = u := Except.ok.inj hu
      rw [hkind, hkind', reboundKind]
      exact (h.same hsame).bind rfl hstorage (hsame.scope ▸ hmodule)

/-! ## Statements -/

theorem kind_of_structOf {args : List (Lower Typed)} (hrun : structOf type args ctx s = .ok (v, s')) :
    v.kind = .struct type := by
  unfold structOf at hrun
  rw [run_get] at hrun
  cases hlook : s.structs.lookup type with
  | none => rw [hlook] at hrun; exact nomatch hrun
  | some fields =>
    rw [hlook] at hrun
    dsimp only at hrun
    split at hrun
    · exact nomatch hrun
    · obtain ⟨_, s₁, -, hrun⟩ := run_bind hrun
      obtain ⟨_, s₂, -, hrun⟩ := run_bind hrun
      obtain ⟨_, s₃, -, hrun⟩ := run_bind hrun
      obtain rfl := congrArg Prod.fst (Except.ok.inj hrun)
      rfl

theorem leavesAlone_defineFunction {params : List String} {body : List Node}
    (hrun : defineFunction name params body ctx s = .ok ((), s')) : LeavesAlone p s s' := by
  unfold defineFunction at hrun
  rw [run_get] at hrun
  cases hscope : s.scope with
  | function => rw [hscope] at hrun; exact nomatch hrun
  | topLevel =>
    rw [hscope] at hrun
    obtain rfl := congrArg Prod.snd (Except.ok.inj hrun)
    show LeavesAlone p s (s.addRoutine _)
    rw [addRoutine_eq]
    exact ⟨rfl, rfl, rfl⟩

mutual

/-- A statement makes of the type of a variable what the text says. -/
theorem Layouts.stmt {τ : Option String} : (node : Node) → assignsStructs p [node] = true →
    declaredStructs node ⊆ declared → ∀ {s s'}, Layouts declared scope p τ s →
    Lowering.stmt node ctx s = .ok ((), s') → Layouts declared scope p (lastStruct p τ [node]) s'
  | .assignment name value, hp, _, s, s', h, hrun => by
    rw [Lowering.stmt] at hrun
    obtain ⟨v, s₁, hvalue, hassign⟩ := run_bind hrun
    have h₁ := h.same (Access.sameTables_expr hvalue)
    simp only [lastStruct, assignsAll, assignedTypesAll, assignedTypes] at hp ⊢
    split at hp
    case isFalse hne =>
      rw [if_neg hne]
      exact h₁.after (leavesAlone_assign (Ne.symm hne) hassign)
    case isTrue heq =>
      subst heq
      rw [if_pos rfl]
      cases value with
      | structLiteral type args =>
        rw [expr] at hvalue
        exact h₁.assign (kind_of_structOf hvalue) hassign
      | _ => simp [structName?] at hp
  | .conditional condition thenBlock elseBlock, hp, hd, s, s', h, hrun => by
    obtain ⟨hp, hp'⟩ := assignsAll_conditional.mp hp
    obtain ⟨hd, hd'⟩ := append_subset.mp hd
    obtain ⟨labels, s₁, s₂, s₃, s₄, hopen, hthen, helse, hblock, hmerge⟩ := run_conditional hrun
    have h₂ := Layouts.block thenBlock hp hd (h.same (Access.sameTables_openThen hopen)) hthen
    have h₄ := Layouts.block elseBlock hp' hd'
      (h₂.same (Access.computes_goTo.sameTables helse)) hblock
    rw [lastStruct_conditional]
    exact h₄.same (Access.computes_goTo.sameTables hmerge)
  | .loop condition body, hp, hd, s, s', h, hrun => by
    obtain ⟨labels, s₁, s₂, hopen, hbody, hclose⟩ := run_loop hrun
    have h₂ := Layouts.block body (assignsAll_loop.mp hp) hd
      (h.same (Access.sameTables_openLoop hopen)) hbody
    rw [lastStruct_loop]
    exact h₂.same (Access.computes_closeLoop.sameTables hclose)
  | .functionDef name params body, _, _, s, s', h, hrun => h.after (leavesAlone_defineFunction hrun)
  | .structDef name fields, _, hd, s, s', h, hrun => by
    obtain rfl : { s with structs := Table.set s.structs name fields } = s' :=
      congrArg Prod.snd (Except.ok.inj hrun)
    refine ⟨h.scope, cons_subset.mpr ⟨hd (by simp [declaredStructs]), ?_⟩, h.type⟩
    exact List.Subset.trans (filter_subset_self _) h.structs
  | .indexedAssignment target index value, _, _, s, s', h, hrun =>
    h.same ((Access.computes_assignElement (fun _ hA => hA.elim)
      (Access.tolerates_all _)).sameTables hrun)
  | .ret value, _, _, s, s', h, hrun =>
    h.same ((Access.computes_leave (fun _ hA => hA.elim) (Access.tolerates_all _)).sameTables hrun)
  | .breakLoop, _, _, s, s', h, hrun => h.same (Access.computes_leaveLoop.sameTables hrun)
  | .importModule _, _, _, s, s', h, hrun => by
    obtain rfl : s = s' := congrArg Prod.snd (Except.ok.inj hrun)
    exact h
  | .literal _, _, _, s, s', h, hrun | .identifier _, _, _, s, s', h, hrun
  | .binary .., _, _, s, s', h, hrun | .unary .., _, _, s, s', h, hrun
  | .listLiteral _, _, _, s, s', h, hrun | .index .., _, _, s, s', h, hrun
  | .memberAccess .., _, _, s, s', h, hrun | .structLiteral .., _, _, s, s', h, hrun
  | .interrogative .., _, _, s, s', h, hrun | .relation .., _, _, s, s', h, hrun =>
    h.same ((Access.computes_discard (fun _ hA => hA.elim)
      (Access.tolerates_all _)).sameTables hrun)

theorem Layouts.block {τ : Option String} : (nodes : List Node) → assignsStructs p nodes = true →
    declaredStructsAll nodes ⊆ declared → ∀ {s s'}, Layouts declared scope p τ s →
    Lowering.block nodes ctx s = .ok ((), s') → Layouts declared scope p (lastStruct p τ nodes) s'
  | [], _, _, s, s', h, hrun => by
    obtain rfl : s = s' := congrArg Prod.snd (Except.ok.inj hrun)
    exact h
  | node :: rest, hp, hd, s, s', h, hrun => by
    obtain ⟨hp, hp'⟩ := assignsAll_cons.mp hp
    obtain ⟨hd, hd'⟩ := append_subset.mp hd
    obtain ⟨s₁, hnode, hrest⟩ := run_block_cons hrun
    rw [lastStruct_cons]
    exact Layouts.block rest hp' hd' (Layouts.stmt node hp hd h hnode) hrest

end

/-- Where a path comes to, lowering comes as well, and knows the type that is last in the text. -/
theorem Meets.exists_visits {inner nodes : List Node} {τ t τ' t' : Option String}
    (h : Meets p inner nodes τ t τ' t') (hp : assignsStructs p nodes = true)
    (hd : declaredStructsAll nodes ⊆ declared) :
    ∀ {s s'}, Layouts declared scope p τ s → block nodes ctx s = .ok ((), s') →
      ∃ u u', Visits ctx inner u nodes s ∧ block inner ctx u = .ok ((), u') ∧ Layouts declared scope p τ' u := by
  induction h with
  | here => exact fun hs hrun => ⟨_, _, .here, hrun, hs⟩
  | later _ _ ih =>
    intro s s' hs hrun
    obtain ⟨hp, hp'⟩ := assignsAll_cons.mp hp
    obtain ⟨hd, hd'⟩ := append_subset.mp hd
    obtain ⟨s₁, hnode, hrest⟩ := run_block_cons hrun
    obtain ⟨u, u', hvisits, hu⟩ := ih hp' hd' (hs.stmt _ hp hd hnode) hrest
    exact ⟨u, u', .later hnode hvisits, hu⟩
  | inThen _ ih =>
    intro s s' hs hrun
    obtain ⟨hp, -⟩ := assignsAll_conditional.mp (assignsAll_cons.mp hp).1
    obtain ⟨hd, -⟩ := append_subset.mp (append_subset.mp hd).1
    obtain ⟨s₁, hnode, -⟩ := run_block_cons hrun
    obtain ⟨labels, _, _, _, _, hopen, hthen, -⟩ := run_conditional hnode
    obtain ⟨u, u', hvisits, hu⟩ := ih hp hd (hs.same (Access.sameTables_openThen hopen)) hthen
    exact ⟨u, u', .inThen hopen hvisits, hu⟩
  | inElse _ ih =>
    intro s s' hs hrun
    obtain ⟨hp, hp'⟩ := assignsAll_conditional.mp (assignsAll_cons.mp hp).1
    obtain ⟨hd, hd'⟩ := append_subset.mp (append_subset.mp hd).1
    obtain ⟨s₁, hnode, -⟩ := run_block_cons hrun
    obtain ⟨labels, _, _, _, _, hopen, hthen, helse, hblock, -⟩ := run_conditional hnode
    have hs₂ := (hs.same (Access.sameTables_openThen hopen)).block _ hp hd hthen
    obtain ⟨u, u', hvisits, hu⟩ := ih hp' hd'
      (hs₂.same (Access.computes_goTo.sameTables helse)) hblock
    exact ⟨u, u', .inElse hopen hthen helse hvisits, hu⟩
  | inLoop _ ih =>
    intro s s' hs hrun
    obtain ⟨s₁, hnode, -⟩ := run_block_cons hrun
    obtain ⟨labels, _, _, hopen, hbody, -⟩ := run_loop hnode
    obtain ⟨u, u', hvisits, hu⟩ := ih (assignsAll_loop.mp (assignsAll_cons.mp hp).1)
      (append_subset.mp hd).1 (hs.same (Access.sameTables_openLoop hopen)) hbody
    exact ⟨u, u', .inLoop hopen hvisits, hu⟩
  | round _ _ ih => exact ih hp hd

/-! ## Fields -/

/-- The code of a read: the address in the slot of a variable, that of a field, and what is there. -/
def fieldRead (slot : Value) (index : Nat) (r : Reg) : List Instr :=
  [.load r .ptr slot, .gep (r + 1) .i64 (.reg r .ptr) (.word (.ofNat index)),
    .load (r + 2) .i64 (.reg (r + 1) .ptr)]

/-- A name that is bound to a struct is loaded, unless it is the name of a truth value. -/
theorem straight_identifier (hfind : s.find? p = some b) (hkind : b.kind = .struct type)
    (hstorage : b.storage = .handle) :
    Straight ctx s (identifier p) fun code b' v => v.kind = .scalar ∨
      (code = [.load s.builder.nextReg .ptr b.slot] ∧
        v = .struct (.reg s.builder.nextReg .ptr) type ∧ b'.nextReg = s.builder.nextReg + 1) := by
  unfold identifier
  split
  · exact Straight.pure (.inl rfl)
  split
  · exact Straight.pure (.inl rfl)
  refine Straight.get_bind ?_
  rw [hfind]
  dsimp only
  unfold load
  rw [hkind, hstorage]
  refine Straight.emit_bind (Q := fun code b' v => code = [.load s.builder.nextReg .ptr b.slot] ∧
    v = .reg s.builder.nextReg .ptr ∧ b'.nextReg = s.builder.nextReg + 1)
    (Straight.define (fun _ => rfl) fun _ hb => ⟨rfl, rfl, hb⟩) ?_
  rintro code b' v - ⟨rfl, rfl, hb⟩
  exact Straight.pure (.inr ⟨rfl, rfl, hb⟩)

theorem straight_fieldOf {r : Reg} {field : String} :
    Straight ctx s (fieldOf (.struct (.reg r .ptr) type) field) fun code _ v =>
      ∃ fields index, (type, fields) ∈ s.structs ∧ fields.idxOf? field = some index ∧
        code = [.gep s.builder.nextReg .i64 (.reg r .ptr) (.word (.ofNat index)),
          .load (s.builder.nextReg + 1) .i64 (.reg s.builder.nextReg .ptr)] ∧
        v = .packed (.reg (s.builder.nextReg + 1) .i64) := by
  have htype : structType (.struct (.reg r .ptr) type) field = pure type := rfl
  have hcoerce : perform (coerce (.struct (.reg r .ptr) type) (.struct type)) =
      (pure (.struct (.reg r .ptr) type) : Lower Typed) := by
    simp [coerce, Typed.struct]
    rfl
  unfold fieldOf
  rw [htype, pure_bind, hcoerce, pure_bind]
  refine Straight.get_bind ?_
  dsimp only
  split
  case h_2 => exact Straight.throw
  case h_1 index hindex =>
    cases hlook : s.structs.lookup type with
    | none => simp [hlook] at hindex
    | some fields =>
      rw [hlook] at hindex
      refine (Straight.define (fun _ => rfl) (Q := fun code b v =>
        code = [.gep s.builder.nextReg .i64 (.reg r .ptr) (.word (.ofNat index))] ∧
          v = .reg s.builder.nextReg .ptr ∧ b.nextReg = s.builder.nextReg + 1)
        fun b hb => ⟨rfl, rfl, hb⟩).bind ?_
      rintro code b v - ⟨rfl, rfl, hb⟩
      refine Straight.map (Straight.define (fun _ => rfl) fun b' hb' => ?_)
      exact ⟨fields, index, Stage.mem_of_lookup hlook, hindex, by simp [hb], by simp [hb]⟩

theorem Layouts.straight_memberOf (h : Layouts declared scope p (some type) s) (field : String) :
    Straight ctx s (memberOf p field) fun code _ v => ∃ slot fields index,
      (s.find? p).map (·.slot) = some slot ∧ (type, fields) ∈ declared ∧
        fields.idxOf? field = some index ∧ code = fieldRead slot index s.builder.nextReg ∧
          v = .packed (.reg (s.builder.nextReg + 2) .i64) := by
  obtain ⟨b, hfind, hkind, hstorage, -⟩ := h.type
  unfold memberOf
  refine Straight.get_bind ?_
  rw [hfind]
  refine (straight_identifier hfind hkind hstorage).bind ?_
  rintro code b' v - (hscalar | ⟨rfl, rfl, hb'⟩)
  · unfold fieldOf structType
    rw [hscalar]
    exact Straight.throw
  · refine straight_fieldOf.mono ?_
    rintro code b'' v - ⟨fields, index, hmem, hindex, rfl, rfl⟩
    exact ⟨b.slot, fields, index, rfl, h.structs hmem, hindex, by simp [fieldRead, hb'], by simp [hb']⟩

/-! ## The unit -/

theorem sameTables_finishEntry (hrun : finishEntry ctx s = .ok ((), s')) : SameTables s s' := by
  unfold finishEntry at hrun
  rw [run_read] at hrun
  dsimp only at hrun
  split at hrun
  · exact (Access.computes_return (by simp)).sameTables hrun
  · rw [← bind_assoc] at hrun
    obtain ⟨_, s₁, hjump, hrun⟩ := run_bind hrun
    rw [run_get] at hrun
    obtain ⟨_, s₂, hdestroy, hrun⟩ := run_bind hrun
    obtain ⟨_, s₃, hret, hrun⟩ := run_bind hrun
    exact (((Access.computes_goTo.sameTables hjump).trans (sameTables_emit hdestroy)).trans
      (sameTables_emit hret)).trans (Access.computes_finishFunction.sameTables hrun)

theorem leavesAlone_bindParams {params : List (String × Value)} (hp : ∀ q ∈ params, p ≠ q.1) :
    ∀ {s s'}, bindParams params ctx s = .ok ((), s') → LeavesAlone p s s' := by
  induction params with
  | nil =>
    intro s s' hrun
    obtain rfl : s = s' := congrArg Prod.snd (Except.ok.inj hrun)
    exact ⟨rfl, rfl, rfl⟩
  | cons q params ih =>
    intro s s' hrun
    obtain ⟨_, s₁, hfirst, hrest⟩ := run_bind (f := fun _ => bindParams params) hrun
    obtain ⟨s₂, b, hsame, rfl, -⟩ := create_run hfirst
    rw [forall_mem_cons] at hp
    exact ((leavesAlone_of_same hsame).trans (leavesAlone_bind hp.1)).trans (ih hp.2 hrest)

theorem layouts_start {target : Target} {naming : Naming} {statements : List Node}
    (hd : declaredStructsAll statements ⊆ declared) :
    Layouts declared .topLevel p none (State.start target naming statements) := by
  have hfold : ∀ {nodes : List Node} {s : State}, declaredStructsAll nodes ⊆ declared →
      s.structs ⊆ declared → (nodes.foldl (declare naming) s).structs ⊆ declared := by
    intro nodes
    induction nodes with
    | nil => exact fun _ hs => hs
    | cons node rest ih =>
      intro s hd hs
      simp only [declaredStructsAll, append_subset] at hd
      refine ih hd.2 ?_
      cases node with
      | structDef name fields =>
        exact cons_subset.mpr ⟨hd.1 (by simp [declaredStructs]),
          List.Subset.trans (filter_subset_self _) hs⟩
      | functionDef name params body =>
        rw [declare, addRoutine_eq]
        exact hs
      | _ => exact hs
  refine ⟨?_, hfold hd (by simp), ?_⟩ <;>
    obtain ⟨structs, hstart⟩ := start_eq target naming statements <;> rw [hstart]
  simp [State.HasType, State.find?]

/-- Every assignment to a variable in a unit is one of a struct. -/
structure AssignsStructs (naming : Naming) (statements : List Node) (p : String) : Prop where
  top : assignsStructs p statements = true
  params : ∀ r ∈ definitionsAll naming statements, p ∉ r.params
  bodies : ∀ r ∈ definitionsAll naming statements, assignsStructs p r.body = true

/-- The struct types that a unit declares. -/
def unitStructs (naming : Naming) (statements : List Node) : Table (List String) :=
  declaredStructsAll statements ++
    (definitionsAll naming statements).flatMap fun r => declaredStructsAll r.body

variable {statements : List Node} {todo : List Routine} {r : Routine}

theorem top_subset_unitStructs (naming : Naming) (statements : List Node) :
    declaredStructsAll statements ⊆ unitStructs naming statements :=
  subset_append_left _ _

theorem body_subset_unitStructs {naming : Naming} (hr : r ∈ definitionsAll naming statements) :
    declaredStructsAll r.body ⊆ unitStructs naming statements :=
  fun _ he => mem_append_right _ (mem_flatMap.mpr ⟨r, hr, he⟩)

theorem mem_definitionsAll_of_noteAll {naming : Naming}
    (hr : r ∈ noteAll [] (unitDefinitions naming statements)) :
    r ∈ definitionsAll naming statements := by
  have hmem := mem_of_find?_eq_some ((mem_noteAll hr).resolve_left not_mem_nil).2
  exact (mem_append.mp hmem).elim (fun h => topDefinitions_subset h) id

/-- The body of a function begins with the variables at top level. -/
theorem Layouts.openBody {s₁ : State} (h : Layouts declared .topLevel p τ s₁)
    (hglobals : s.globals = s₁.globals) (hstructs : s.structs ⊆ declared) (hp : p ∉ r.params)
    (hrun : openBody r r.params.length ctx s = .ok ((), s')) : Layouts declared .function p τ s' := by
  unfold Lowering.openBody at hrun
  obtain ⟨_, s₀, henter, hrun⟩ := run_bind hrun
  obtain rfl : s.enter r = s₀ := congrArg Prod.snd (Except.ok.inj henter)
  rw [run_get] at hrun
  have henter : Layouts declared .function p τ (s.enter r) := by
    refine ⟨rfl, hstructs, ?_⟩
    have hfind : (s.enter r).find? p = (s₁.find? p).filter Binding.isModuleLevel := by
      simp [State.find?, State.enter, h.scope, hglobals]
    have htype := h.type
    cases τ with
    | none =>
      have htype : s₁.find? p = none := htype
      exact hfind.trans (by rw [htype]; rfl)
    | some type =>
      obtain ⟨b, hb, hkind, hstorage, hmodule⟩ := htype
      refine ⟨b, hfind.trans ?_, hkind, hstorage, fun htop => Scope.noConfusion htop⟩
      rw [hb, Option.filter_some, if_pos (hmodule h.scope)]
  refine henter.after (leavesAlone_bindParams (fun q hq heq => hp ?_) hrun)
  rw [heq]
  exact mem_of_mem_take (of_mem_zip hq).1

theorem layouts_entry (hp : assignsStructs p statements = true)
    (hd : declaredStructsAll statements ⊆ declared)
    (hrun : entryFunction statements ctx (State.start ctx.target ctx.naming statements) =
      .ok ((), s)) : Layouts declared .topLevel p (lastStruct p none statements) s := by
  unfold entryFunction at hrun
  rw [run_read] at hrun
  obtain ⟨_, s₁, hinits, hrun⟩ := run_bind hrun
  obtain ⟨_, s₂, hblock, hfinish⟩ := run_bind hrun
  have hs₁ := (layouts_start (p := p) hd).same (sameTables_emit hinits)
  exact (hs₁.block statements hp hd hblock).same (sameTables_finishEntry hfinish)

theorem Pending.layouts (h : Pending ctx statements todo s)
    (hp : AssignsStructs ctx.naming statements p) :
    s.structs ⊆ unitStructs ctx.naming statements ∧ todo ⊆ definitionsAll ctx.naming statements ∧
      ∃ s₁, Layouts (unitStructs ctx.naming statements) .topLevel p
        (lastStruct p none statements) s₁ ∧ s.globals = s₁.globals := by
  induction h with
  | @entry s h =>
    have hs := layouts_entry hp.top (top_subset_unitStructs ctx.naming _) h
    refine ⟨hs.structs, fun r hr => ?_, s, hs, rfl⟩
    exact mem_definitionsAll_of_noteAll ((entered_of_entryFunction h).functions ▸ hr)
  | @body r rest s s' before h ih =>
    obtain ⟨hstructs, htodo, s₁, hs₁, hglobals⟩ := ih
    obtain ⟨noted, made, hmakes⟩ := Access.functionBody_makes before.entered.outside h
    obtain ⟨hr, hrest⟩ := cons_subset.mp htodo
    refine ⟨?_, hrest, s₁, hs₁, (hmakes.globals rfl).trans hglobals⟩
    rw [functionBody_eq] at h
    obtain ⟨_, s₂, hopen, h⟩ := run_bind h
    obtain ⟨_, s₃, hblock, hfinish⟩ := run_bind h
    have hs₂ := hs₁.openBody hglobals hstructs (hp.params r hr) hopen
    have hs₃ := hs₂.block r.body (hp.bodies r hr) (body_subset_unitStructs hr) hblock
    exact (hs₃.same ((Access.computes_return
      (by simp [Value.reg?, Value.word, Value.int])).sameTables hfinish)).structs

end

/-- The texts of a unit with the type that a variable has when they begin: the statements at top level,
and the bodies of functions, which are lowered last. -/
inductive Text (naming : Naming) (statements : List Node) (p : String) :
    List Node → Option String → Prop where
  | top : Text naming statements p statements none
  | body {r : Routine} (mem : r ∈ noteAll [] (unitDefinitions naming statements)) :
      Text naming statements p r.body (lastStruct p none statements)

/-- Lowering comes to the statements `inner`, and reads fields of a variable there, in whatever
expression of the first of them, at their positions in the type `τ`. -/
def ReadsFields (ctx : Context) (statements inner : List Node) (p : String) (τ : Option String) :
    Prop :=
  ∃ s s', ComesTo ctx statements s ∧ block inner ctx s = .ok ((), s') ∧
    ∀ type fields, τ = some type → (type, fields) ∈ unitStructs ctx.naming statements →
      ∀ field s₁ v s₂, SameTables s s₁ →
        expr (.memberAccess (.identifier p) field) ctx s₁ = .ok (v, s₂) →
        ∃ slot index, (s.find? p).map (·.slot) = some slot ∧ fields.idxOf? field = some index ∧
          Emitted s₁.builder [] (fieldRead slot index s₁.builder.nextReg) s₂.builder ∧
          v = .packed (.reg (s₁.builder.nextReg + 2) .i64)

section

variable {ctx : Context} {statements inner : List Node} {p : String} {τ : Option String} {s s' : State}

theorem readsFields_of_layouts {scope : Scope} (hcomes : ComesTo ctx statements s)
    (hrun : block inner ctx s = .ok ((), s'))
    (h : Layouts (unitStructs ctx.naming statements) scope p τ s)
    (honce : ((unitStructs ctx.naming statements).map (·.1)).Nodup) :
    ReadsFields ctx statements inner p τ := by
  refine ⟨s, s', hcomes, hrun, ?_⟩
  rintro type fields rfl hfields field s₁ v s₂ hsame hread
  rw [expr] at hread
  obtain ⟨code, b, rfl, hemitted, slot, fields', index, hslot, hmem, hindex, rfl, rfl⟩ :=
    (h.same hsame).straight_memberOf field hread
  obtain ⟨-, rfl⟩ := Prod.mk.inj (inj_on_of_nodup_map honce hfields hmem rfl)
  rw [hsame.find?] at hslot
  exact ⟨slot, index, hslot, hindex, hemitted, rfl⟩

/-- Fields are read by the text: where every struct type is declared once and a variable is assigned
structs only, every read of a field, in whatever branch, loop or function, uses the position in the type
of the struct that is assigned to the variable last in the text. This is the type that was assigned last
on every path, if the text is steady, and if in a function the variable at top level has the type then
that it has in the end. -/
theorem generate_fieldReads {target : Target} {naming : Naming} {observed : List String}
    {u : Generated} (hu : generate target naming observed statements = .ok u)
    (hp : AssignsStructs naming statements p)
    (honce : ((unitStructs naming statements).map (·.1)).Nodup) :
    ∀ nodes τ₀ t₀ inner τ t, Text naming statements p nodes τ₀ → Meets p inner nodes τ₀ t₀ τ t →
      ReadsFields (Stage.contextOf target naming observed statements) statements inner p τ ∧
        (isSteady p τ₀ nodes = true → t₀ = τ₀ → t = τ) := by
  intro nodes τ₀ t₀ inner τ t htext hmeets
  refine ⟨?_, fun hsteady heq => hmeets.eq_of_isSteady heq hsteady⟩
  obtain ⟨s, done, hentry, -, hroutines, hdone⟩ := generate_done rfl hu
  cases htext with
  | top =>
    unfold entryFunction at hentry
    rw [run_read] at hentry
    obtain ⟨_, s₁, hinits, hrun⟩ := run_bind hentry
    obtain ⟨_, s₂, hblock, -⟩ := run_bind hrun
    have htop := top_subset_unitStructs naming statements
    have hs₁ := (layouts_start (p := p) htop).same (sameTables_emit hinits)
    obtain ⟨v, v', hvisits, hinner, hv⟩ := hmeets.exists_visits hp.top htop hs₁ hblock
    exact readsFields_of_layouts (.stmt (.entry hinits hvisits)) hinner hv honce
  | @body r mem =>
    obtain ⟨q, hq, rfl⟩ := mem_map.mp (hroutines ▸ mem)
    obtain ⟨s₁, s₂, ⟨rest, before, hrun⟩, -, -⟩ := hdone q hq
    obtain ⟨hstructs, htodo, s₃, hs₃, hglobals⟩ := before.layouts hp
    have hr := (cons_subset.mp htodo).1
    rw [functionBody_eq] at hrun
    obtain ⟨_, s₄, hopen, hrun⟩ := run_bind hrun
    obtain ⟨_, s₅, hblock, -⟩ := run_bind hrun
    have hs₄ := hs₃.openBody hglobals hstructs (hp.params _ hr) hopen
    obtain ⟨v, v', hvisits, hinner, hv⟩ :=
      hmeets.exists_visits (hp.bodies _ hr) (body_subset_unitStructs hr) hs₄ hblock
    exact readsFields_of_layouts (.stmt (.body before hopen hvisits)) hinner hv honce

end

/-! ## Two types -/

/-- The two types have the same fields in another order. -/
def twoTypes : List Node := [.structDef "A" ["f", "g"], .structDef "B" ["g", "f"]]

/-- A struct of one of the two types is assigned. -/
def assignPair (type : String) (x y : Double) : Node :=
  .assignment "p" (.structLiteral type [.literal (.number x), .literal (.number y)])

/-- A field is printed. -/
def printField : Node := .relation (.identifier "print") (.memberAccess (.identifier "p") "f")

/-- A program in which the type of a variable changes at the top of the text. -/
def retyped : List Node :=
  twoTypes ++ [assignPair "A" .one .zero,
    .loop (.literal (.number .one)) [printField, .breakLoop], assignPair "B" .one .zero, printField]

theorem fieldReads_retyped :
    ∃ u, generate (.resolve none) { mode := .program } [] retyped = .ok u ∧
      ∀ inner τ t, Meets "p" inner retyped none none τ t →
        ReadsFields (Stage.contextOf (.resolve none) { mode := .program } [] retyped) retyped inner "p" τ
          ∧ t = τ := by
  obtain ⟨u, hu, -⟩ := exists_generate (.resolve none) { mode := .program } [] retyped
    (fun _ => true) (by decide +kernel)
  refine ⟨u, hu, fun inner τ t hmeets => ?_⟩
  have hp : AssignsStructs { mode := .program } retyped "p" :=
    ⟨by decide, by simp [retyped, twoTypes, assignPair, definitionsAll, definitions, printField],
      by simp [retyped, twoTypes, assignPair, definitionsAll, definitions, printField]⟩
  obtain ⟨hreads, hsteady⟩ := generate_fieldReads hu hp (by decide) retyped none none inner τ t .top hmeets
  exact ⟨hreads, hsteady (by decide) rfl⟩

/-- A program in which a variable has one of two types. -/
def eitherWay : List Node :=
  twoTypes ++ [.conditional (.literal (.number .one)) [assignPair "A" .one .zero]
    [assignPair "B" .one .zero], printField]

/-- The path through the first part of the branch comes to the read with a struct of the first type,
where the field is the first one, and the code reads the second one. -/
theorem fieldReads_eitherWay :
    ∃ u, generate (.resolve none) { mode := .program } [] eitherWay = .ok u ∧
      Meets "p" [printField] eitherWay none none (some "B") (some "A") ∧
      ("A", ["f", "g"]) ∈ unitStructs { mode := .program } eitherWay ∧
      ∃ main, u.assembly.functions = [main] ∧
        ∃ b ∈ main.blocks, fieldRead (.global "main.p") 1 7 <+: b.instrs := by
  obtain ⟨u, hu, hcode⟩ := exists_generate (.resolve none) { mode := .program } [] eitherWay
    (fun u => u.assembly.functions.length = 1 && u.assembly.functions.all fun main =>
      main.blocks.any fun b => decide (fieldRead (.global "main.p") 1 7 <+: b.instrs))
    (by decide +kernel)
  refine ⟨u, hu, ?_, by decide, ?_⟩
  · refine .later (.pass rfl .done) (.later (.pass rfl .done) (.later (.branch (.inl rfl) ?_ .done) .here))
    exact .assign .done
  · obtain ⟨hlength, hread⟩ := Bool.and_eq_true_iff.mp hcode
    obtain ⟨main, hmain⟩ := length_eq_one_iff.mp (of_decide_eq_true hlength)
    obtain ⟨b, hb, hread⟩ := any_eq_true.mp (all_eq_true.mp hread main (by simp [hmain]))
    exact ⟨main, hmain, b, hb, of_decide_eq_true hread⟩

end ScriptCompiler.Lowering
