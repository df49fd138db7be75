import ScriptCompiler.Proofs.Access.Steps

/-!
# Expressions keep to an access

An expression reads variables, fields and external words, and asks boxed records about their value
and their history. It never writes a variable. Its value is a boxed record only if the expression is
a bare name, or asks what a bare name is, and then the record was read from the slot of that name
(`Access.Gives`).
-/

namespace ScriptCompiler

namespace Node

mutual

/-- The texts that stand in a node, in the order of the source. The body of a function is a matter of
its own. -/
def texts : Node → List String
  | .literal (.text text) => [text]
  | .literal _ | .identifier _ | .breakLoop | .importModule _ | .structDef .. | .functionDef .. => []
  | .binary _ left right => left.texts ++ right.texts
  | .unary _ operand => operand.texts
  | .assignment _ value => value.texts
  | .indexedAssignment target position value => target.texts ++ (position.texts ++ value.texts)
  | .ret value => textsOption value
  | .conditional condition thenBlock elseBlock =>
    condition.texts ++ (textsAll thenBlock ++ textsAll elseBlock)
  | .loop condition body => condition.texts ++ textsAll body
  | .listLiteral elements => textsAll elements
  | .index list position => list.texts ++ position.texts
  | .memberAccess object _ => object.texts
  | .structLiteral _ args => textsAll args
  | .interrogative _ target => target.texts
  | .relation callee argument => callee.texts ++ argument.texts

/-- The texts that stand in several nodes. -/
def textsAll : List Node → List String
  | [] => []
  | n :: rest => n.texts ++ textsAll rest

/-- The texts that stand in an optional node. -/
def textsOption : Option Node → List String
  | none => []
  | some n => n.texts

end

/-- The node is a statement, which has no value. -/
def isStatement : Node → Bool
  | .assignment .. | .indexedAssignment .. | .functionDef .. | .ret _ | .breakLoop | .conditional ..
  | .loop .. | .structDef .. | .importModule _ => true
  | _ => false

/-- The expressions that the value of an expression is computed from. A name before a dot is none. -/
def operands : Node → List Node
  | .binary _ left right => [left, right]
  | .unary _ operand => [operand]
  | .listLiteral elements => elements
  | .index list position => [list, position]
  | .memberAccess (.identifier _) _ => []
  | .memberAccess object _ => [object]
  | .structLiteral _ args => args
  | .interrogative _ target => [target]
  | .relation _ argument => [argument]
  | _ => []

theorem textsAll_eq (nodes : List Node) : textsAll nodes = (nodes.map texts).flatten := by
  induction nodes with
  | nil => rfl
  | cons node rest ih => rw [textsAll, ih, List.map_cons, List.flatten_cons]

end Node

/-- The name that an expression consists of, where its value is that of the variable itself. -/
def Node.bare? : Node → Option String
  | .identifier name => some name
  | .interrogative word target => if word = "what" then target.bare? else none
  | _ => none

theorem Node.mem_reads_of_bare {name : String} :
    ∀ {node : Node}, node.bare? = some name → name ∈ node.reads
  | .identifier _, h => by simpa [Node.reads] using (Option.some.inj h).symm
  | .interrogative word target, h => by
    unfold Node.bare? at h
    split at h
    · simpa [Node.reads] using Node.mem_reads_of_bare h
    · simp at h
  | .literal _, h | .binary .., h | .unary .., h | .assignment .., h | .indexedAssignment .., h
  | .functionDef .., h | .ret _, h | .breakLoop, h | .conditional .., h | .loop .., h
  | .listLiteral _, h | .index .., h | .memberAccess .., h | .structDef .., h
  | .structLiteral .., h | .relation .., h | .importModule _, h => by simp [Node.bare?] at h

theorem Node.reads_relation (callee argument : Node) :
    argument.reads ⊆ (Node.relation callee argument).reads := by
  cases callee with
  | identifier name => exact List.Subset.refl _
  | _ =>
    rw [Node.reads]
    · exact List.subset_append_right _ _
    · simp

namespace Lowering.Access

open Ir

/-- The access is that of code in the scope of `T`. A global slot has the symbol of its variable, and
a slot has one storage class, if that matters. -/
structure Serves (A : Access) (ctx : Context) (T : State) : Prop where
  scope : A.scope = T.scope
  symbols : ∀ name storage symbol, A.own name storage (.global symbol) →
    symbol = ctx.naming.globalSymbol name
  cells : A.confines → ∀ storage storage' slot, A.Cell storage slot → A.Cell storage' slot →
    storage = storage'
  notes : Tracks ctx T → A.notes

/-- The access has the slots of those of the given names that are variables of `T`. The others are
read from outside, and each may be that of a module. -/
structure Covers (A : Access) (ctx : Context) (T : State) (names : List String) : Prop
    extends A.Serves ctx T where
  cell : ∀ name ∈ names, ∀ b, T.find? name = some b → A.Cell b.storage b.slot
  external : ∀ name ∈ names, T.find? name = none → A.external name
  members : ∀ name ∈ names, ∀ member, A.external (memberSymbol name member)
  last : ∀ name b, T.lastBound = some name → T.find? name = some b → A.Cell b.storage b.slot
  kinds : ∀ name b, T.find? name = some b → b.storage.Holds b.kind

theorem Covers.mono {A : Access} {ctx : Context} {T : State} {names names' : List String}
    (h : A.Covers ctx T names) (hsub : names' ⊆ names) : A.Covers ctx T names' :=
  { h with
    cell := fun name hname => h.cell name (hsub hname)
    external := fun name hname => h.external name (hsub hname)
    members := fun name hname => h.members name (hsub hname) }

/-- The value of an expression: a boxed record is that of the variable whose bare name the expression
is, and a word has the type of words. -/
structure Gives (A : Access) (T : State) (bare : Option String) (v : Typed) : Prop where
  record : v.kind = .tracked → ∃ name b, bare = some name ∧ T.find? name = some b ∧
    b.storage.isTracked = true ∧ A.Reads v.value b.slot
  word : v.kind = .packed → v.value.ty = .i64
  loose : v.kind ≠ .tracked → ¬ A.Confined v.value

theorem IsPlain.gives {A : Access} {T : State} {bare : Option String} {v : Typed}
    (h : A.IsPlain v) : A.Gives T bare v :=
  ⟨fun ht => absurd ht h.kind, h.word, fun _ => h.loose⟩

theorem Gives.knows {A : Access} {ctx : Context} {T : State} {node : Node} {v : Typed}
    (h : A.Gives T node.bare? v) (hc : A.Covers ctx T node.reads) : A.Knows v := by
  refine ⟨fun ht => ?_, h.word, h.loose⟩
  obtain ⟨name, b, hbare, hfind, htracked, hreads⟩ := h.record ht
  exact ⟨_, _, hc.cell name (Node.mem_reads_of_bare hbare) b hfind, htracked, hreads⟩

theorem slotType_of_isTracked {storage : StorageClass} (h : storage.isTracked = true) :
    storage.slotType = .ptr := by
  cases storage <;> simp_all [StorageClass.isTracked, StorageClass.slotType]

theorem isTracked_of_holds {storage : StorageClass} (h : storage.Holds .tracked) :
    storage.isTracked = true := by
  cases storage <;> simp_all [StorageClass.Holds, StorageClass.isTracked, Kind.Fits]

theorem isTracked_eq_false_of_holds {storage : StorageClass} {kind : Kind} (h : storage.Holds kind)
    (hne : kind ≠ .tracked) : storage.isTracked = false := by
  cases storage <;> simp_all [StorageClass.Holds, StorageClass.isTracked]

theorem slotType_of_holds {storage : StorageClass} (h : storage.Holds .packed) :
    storage.slotType = .i64 := by
  cases storage <;> simp_all [StorageClass.Holds, StorageClass.slotType, Kind.Fits]

theorem mem_queries_of_predicate? {name check : String} (h : Catalog.predicate? name = some check) :
    check ∈ Catalog.queries := by
  unfold Catalog.predicate? at h
  split at h <;> cases h <;> decide

theorem mathFunction?_notMem {name symbol : String} (h : Catalog.mathFunction? name = some symbol) :
    symbol ∉ Catalog.recordFunctions := by
  unfold Catalog.mathFunction? at h
  split at h <;> cases h <;> decide

theorem question?_accessor {word : String} {q : Catalog.Question}
    (h : Catalog.question? word = some q) :
    (q.accessor = none → word = "what") ∧
      ∀ accessor, q.accessor = some accessor → accessor ∈ Catalog.queries := by
  unfold Catalog.question? at h
  split at h <;> cases h <;> simp [Catalog.queries]

section

variable {α : Type} {ctx : Context} {T : State} {F : Error → Prop} {texts : List String}
  {textss : List (List String)} {P : Access → Prop} {ms : List (Lower Typed)}

theorem Computes.gives {m : Lower Typed} {bare : Option String}
    (h : Computes ctx T F texts P m fun A v => A.IsPlain v) :
    Computes ctx T F texts P m fun A v => A.Gives T bare v :=
  h.mono (fun _ hP => hP) fun _ _ _ hv => hv.gives

/-! ## Memory -/

/-- A global that holds no variable: a constant, a word of another object, or one with another
symbol. -/
def IsIncidental (naming : Naming) (d : Global) : Prop :=
  d.constant = true ∨ d.init = none ∨ ∀ name, d.name ≠ naming.globalSymbol name

theorem IsIncidental.stored {naming : Naming} {d : Global} (h : IsIncidental naming d)
    (globals : List Global) (name : String) :
    stored naming (globals ++ [d]) name = stored naming globals name := by
  unfold Access.stored
  rw [List.countP_append, List.countP_singleton]
  rcases h with h | h | h
  · simp [h]
  · simp [h]
  · simp [h name]

theorem quiet_addGlobal {s : State} {d : Global} (a : Assembly)
    (ha : a.globals = s.assembly.globals ++ [d])
    (hd : (∀ name b, s.globals.lookup name = some b → Dotless name) → IsIncidental ctx.naming d)
    (e : Externals) : Quiet ctx s { s with assembly := a, externals := e } :=
  { Adds.refl s with
    stored := fun hdot name => by
      show Access.stored ctx.naming a.globals name = _
      rw [ha, (hd hdot).stored] }

theorem computes_addGlobal {d : Global} (hconstant : d.constant = false)
    (hd : (∀ name b, T.globals.lookup name = some b → Dotless name) → IsIncidental ctx.naming d) :
    Computes ctx T F [] P (addGlobal d) fun _ _ => True := by
  refine .of_ok (fun _ => rfl) (fun s hT => ?_) (fun s => ⟨rfl, ?_⟩)
    fun _ _ _ _ _ => ⟨.refl _, trivial⟩
  · exact quiet_addGlobal (s.assembly.addGlobal d) rfl (by rw [hT.globals]; exact hd) s.externals
  · simp [Assembly.addGlobal, hconstant]

theorem computes_trackAllocation {address : Value} {destroy : String}
    (hdestroy : destroy ∈ Catalog.releasing) (h : ∀ A, P A → A.Serves ctx T) :
    Computes ctx T F [] P (trackAllocation address destroy) fun _ _ => True := by
  unfold trackAllocation
  refine Computes.get_bind fun s hs => Computes.read_bind ?_
  split
  case isFalse => exact Computes.pure fun _ _ => trivial
  case isTrue hprogram =>
    obtain ⟨htop, hlib⟩ : s.scope = .topLevel ∧ ctx.naming.isLibrary = false := by
      simpa using hprogram
    have hmode : ctx.naming.mode = .program := by
      cases hm : ctx.naming.mode with
      | program => rfl
      | library module => simp [Naming.isLibrary, hm] at hlib
    have hother : ∀ name, ctx.naming.globalSymbol name ≠ cleanupSymbol s.cleanup.length := by
      intro name
      rw [Naming.globalSymbol, hmode]
      exact ne_cleanupSymbol_of_head (c := 'm') (by simp [String.toList_append]) (by decide)
    refine (computes_addGlobal rfl fun _ => .inr (.inr fun name => (hother name).symm)).seq fun _ => ?_
    refine (writes_store fun A hP above => ?_).lifted.seq fun _ => ?_
    · have htop : T.scope = .topLevel := hs.scope.symm.trans htop
      refine .storeTop _ ((h A hP).scope.trans htop) (.inr ⟨(h A hP).notes ⟨htop, hlib⟩, _, rfl⟩)
        fun _ name storage hown => ?_
      exact hother name ((h A hP).symbols name storage _ hown).symm
    · refine Computes.modify fun s => ⟨rfl, { Adds.refl s with cleanup := ?_ }, rfl, rfl⟩
      intro e he
      rcases List.mem_append.mp he with he | he
      · exact .inl he
      · exact .inr (by rw [List.mem_singleton.mp he]; exact hdestroy)

theorem computes_allocate {callee destroy : String} {args : List Value}
    (hcallee : callee ∉ Catalog.recordFunctions) (hdestroy : destroy ∈ Catalog.releasing)
    (h : ∀ A, P A → A.Serves ctx T) (hargs : ∀ A, P A → ∀ v ∈ args, ¬ A.Confined v) :
    Computes ctx T F [] P (allocate callee args destroy) fun A v => ¬ A.Confined v ∧
      ∃ dst, v = .reg dst .ptr ∧ .call (some dst) .ptr callee args ∈ A.code := by
  refine (writes_call fun A _ hP _ => .call _ _ (.inl hcallee) (hargs A hP)).lifted.bind fun _ => ?_
  refine (computes_trackAllocation hdestroy fun A hA => h A hA.1).seq fun _ => ?_
  exact Computes.pure fun _ hA => hA.2.2

/-- A text gets the next constant. -/
theorem computes_stringConstant (text : String) :
    Computes ctx T F [text] P (stringConstant text) fun _ v => v.reg? = none where
  code := by
    intro s v s' _ hrun
    obtain ⟨rfl, rfl⟩ := Prod.mk.inj (Except.ok.inj hrun)
    refine ⟨{ Adds.refl s with stored := fun _ name => ?_ }, fun _ _ _ _ => ⟨.refl _, rfl⟩⟩
    exact IsIncidental.stored (.inl rfl) s.assembly.globals name
  adds := by
    intro s v s' old _ hrun hold
    obtain ⟨-, rfl⟩ := Prod.mk.inj (Except.ok.inj hrun)
    refine ⟨?_, ?_⟩
    · show s.strings + 1 = (old ++ [text]).length
      rw [List.length_append, hold.1, List.length_singleton]
    show (s.assembly.globals ++ [Stage.textConstant s.strings text]).filter (·.constant) = _
    rw [List.filter_append, hold.2, hold.1, List.mapIdx_concat]
    rfl
  fails := nofun

theorem computes_warn (message : String) : Computes ctx T F [] P (warn message) fun _ _ => True :=
  Computes.modify fun s => ⟨rfl, { Adds.refl s with }, rfl, rfl⟩

/-! ## Constants, names and members -/

theorem computes_literal (value : Literal) (h : ∀ A, P A → A.Serves ctx T) :
    Computes ctx T (Excusing F) (Node.literal value).texts P (literal value) fun A v => A.IsPlain v := by
  cases value with
  | number x => exact Computes.pure fun _ _ => isPlain_const rfl
  | null => exact Computes.pure fun _ _ => isPlain_const rfl
  | text value =>
    refine (computes_stringConstant value).last fun bytes => ?_
    refine (computes_allocate (by decide) (by decide) (fun A hA => h A hA.1) fun A hA => ?_).bind
      fun _ => Computes.pure fun _ hA => isPlain_text hA.2.1
    simpa using not_confined_of_reg? hA.2

/-- Expressions compute what the access knows, each with the constants of its own texts. -/
def ComputesAll (ctx : Context) (T : State) (F : Error → Prop) (textss : List (List String))
    (P : Access → Prop) (ms : List (Lower Typed)) : Prop :=
  List.Forall₂ (fun texts m => Computes ctx T F texts P m fun A v => A.Knows v) textss ms

theorem ComputesAll.given {P' : Access → Prop} (h : ComputesAll ctx T (Excusing F) textss P ms)
    (hP : ∀ A, P' A → P A) : ComputesAll ctx T (Excusing F) textss P' ms :=
  h.imp fun _ _ hm => hm.given hP

theorem computes_storeElements {list : Value} (index : Nat) (hlist : ∀ A, P A → ¬ A.Confined list)
    (h : ComputesAll ctx T (Excusing F) textss P ms) :
    Computes ctx T (Excusing F) textss.flatten P (storeElements list index ms) fun _ _ => True := by
  induction h generalizing index with
  | nil => exact Computes.pure fun _ _ => trivial
  | cons hm _ ih =>
    refine hm.bind fun v => ?_
    refine (writes_toScalar fun _ hA => hA.2).lifted.bind fun scalar => ?_
    refine (writes_callVoidPlain (by decide) fun A hA => ?_).lifted.seq fun _ => ?_
    · simpa using ⟨hlist A hA.1.1, not_confined_of_reg? rfl, hA.2⟩
    · exact (ih (index + 1)).given fun _ hA => hA.1.1

theorem computes_listOf (hA : ∀ A, P A → A.Serves ctx T) (h : ComputesAll ctx T (Excusing F) textss P ms) :
    Computes ctx T (Excusing F) textss.flatten P (listOf ms) fun A v => A.IsPlain v := by
  have hlength : ∀ A, P A → ∀ v ∈ [Value.word (.ofNat ms.length)], ¬ A.Confined v :=
    fun A _ => by simpa using not_confined_of_reg? rfl
  refine (computes_allocate (by decide) (by decide) hA hlength).bind fun list => ?_
  refine (computes_storeElements 0 (fun _ hA => hA.2.1) (h.given fun _ hA => hA.1)).last fun _ => ?_
  exact Computes.pure fun _ hA => isPlain_list hA.1.2.1

theorem computes_storeFields {object : Value} (index : Nat)
    (hobject : ∀ A, P A → ¬ A.Confined object ∧ A.IsObject object)
    (h : ComputesAll ctx T (Excusing F) textss P ms) :
    Computes ctx T (Excusing F) textss.flatten P (storeFields object index ms) fun _ _ => True := by
  induction h generalizing index with
  | nil => exact Computes.pure fun _ _ => trivial
  | cons hm _ ih =>
    refine hm.bind fun v => ?_
    refine (writes_byValue fun _ hA => hA.2).lifted.bind fun w => ?_
    refine (writes_pack fun _ hA => hA.2).lifted.bind fun word => ?_
    refine (writes_gep fun A hA => ?_).lifted.bind fun address => ?_
    · exact ⟨(hobject A hA.1.1.1).1, not_confined_of_reg? rfl⟩
    refine (writes_store fun A hA _ => ?_).lifted.seq fun _ => ?_
    · obtain ⟨⟨hP, hword⟩, r, rfl, hgep⟩ := hA
      exact .storeField hgep (not_confined_of_ty (by rw [hword]; decide)) (hobject A hP.1.1).2
    · exact (ih (index + 1)).given fun _ hA => hA.1.1.1.1

theorem computes_structOf {name : String} (h : ComputesAll ctx T (Excusing F) textss P ms) :
    Computes ctx T (Excusing F) textss.flatten P (structOf name ms) fun A v => A.IsPlain v := by
  unfold structOf
  refine Computes.get_bind fun s _ => ?_
  split
  case h_1 => exact Computes.diagnose rfl
  case h_2 fields _ =>
    dsimp only
    split
    case isTrue => exact Computes.diagnose_bind rfl
    case isFalse =>
      refine Computes.read_bind ?_
      refine (writes_call fun _ _ _ _ => .call _ _ (.inl (by decide)) ?_).lifted.bind fun object => ?_
      · simpa using not_confined_of_reg? rfl
      refine (computes_storeFields 0 (fun A hA => ?_) (h.given fun _ hA => hA.1)).last fun _ => ?_
      · obtain ⟨-, -, hloose, dst, hobject, hcall⟩ := hA
        exact ⟨hloose, dst, _, hobject, hcall⟩
      · exact Computes.pure fun _ hA => isPlain_struct hA.1.2.2.1 _

/-- Note what another object provides, and declare it. -/
def note (use : Externals → Assembly → Except Error (α × Externals × Assembly)) : Lower α := do
  let s ← get
  let (a, externals, assembly) ← use s.externals s.assembly
  modify fun s => { s with externals, assembly }
  return a

theorem run_note (use : Externals → Assembly → Except Error (α × Externals × Assembly)) (s : State) :
    note use ctx s = (use s.externals s.assembly).map fun p =>
      (p.1, { s with externals := p.2.1, assembly := p.2.2 }) := by
  unfold note
  rw [run_get]
  cases use s.externals s.assembly <;> rfl

theorem computes_note {use : Externals → Assembly → Except Error (α × Externals × Assembly)}
    (hok : ∀ s a externals assembly, use s.externals s.assembly = .ok (a, externals, assembly) →
      Quiet ctx s { s with externals, assembly } ∧
        assembly.globals.filter (·.constant) = s.assembly.globals.filter (·.constant))
    (hfails : ∀ externals assembly e, use externals assembly = .error e → e.classify = .diagnostic) :
    Computes ctx T (Excusing F) [] P (note use) fun _ _ => True := by
  refine ⟨fun {s a s'} _ h => ?_, fun {s a s' old} _ h hold => ?_, fun {s e} _ h => ?_⟩ <;>
    rw [run_note] at h <;> cases hu : use s.externals s.assembly <;> rw [hu] at h <;> cases h
  · exact ⟨(hok _ _ _ _ hu).1, fun _ _ _ _ => ⟨.refl _, trivial⟩⟩
  · rw [List.append_nil]
    exact ⟨hold.1, (hok _ _ _ _ hu).2.trans hold.2⟩
  · exact .inl (.inl (hfails _ _ _ hu))

/-- Note that a variable of another object is read. -/
def noteVariable (symbol : String) : Lower Unit :=
  note fun externals assembly => (externals.useVariable assembly symbol).map ((), ·)

theorem computes_noteVariable (symbol : String) :
    Computes ctx T (Excusing F) [] P (noteVariable symbol) fun _ _ => True := by
  refine computes_note (fun s a externals assembly h => ?_) fun externals assembly e h => ?_ <;>
    unfold Externals.useVariable at h <;> split_ifs at h <;> cases h
  · exact ⟨(Adds.refl s).quiet rfl, rfl⟩
  · exact ⟨quiet_addGlobal _ rfl (fun _ => .inr (.inl rfl)) _, by simp [Assembly.addGlobal]⟩
  · rfl

theorem loadExternal_eq (symbol : String) : loadExternal symbol = (do
    let s ← get
    if (s.routineOf? symbol).isSome then throw (symbolConflict symbol "read as a variable")
    else do
      noteVariable symbol
      load (Externals.binding symbol)) := by
  funext ctx s
  unfold loadExternal
  rw [run_get, run_get]
  dsimp only
  split
  · rfl
  · show _ = (noteVariable symbol ctx s >>= fun p => (liftM (load _) : Lower Typed) ctx p.2)
    rw [noteVariable, run_note]
    cases s.externals.useVariable s.assembly symbol <;> rfl

theorem computes_loadExternal {symbol : String} (h : ∀ A, P A → A.external symbol) :
    Computes ctx T (Excusing F) [] P (loadExternal symbol) fun A v => A.IsPlain v := by
  rw [loadExternal_eq]
  refine Computes.get_bind fun s _ => ?_
  split
  case isTrue => exact Computes.diagnose rfl
  case isFalse =>
    refine (computes_noteVariable symbol).seq fun _ => ?_
    exact Writes.lifted ((writes_load fun A dst hP _ => .loadExternal dst (h A hP)).bind fun w =>
      Writes.pure fun _ hA => isPlain_packed hA.2.1)

theorem computes_predicateOfLast {check : String} (hcheck : check ∈ Catalog.queries)
    {names : List String} (h : ∀ A, P A → A.Covers ctx T names) :
    Computes ctx T (Excusing F) [] P (predicateOfLast check) fun A v => A.IsPlain v := by
  unfold predicateOfLast
  refine Computes.get_bind fun s hs => ?_
  rw [hs.lastBound, hs.find?]
  split
  case h_2 => exact Computes.pure fun _ _ => isPlain_const rfl
  case h_1 b hb =>
    obtain ⟨name, hname, hfind⟩ := Option.bind_eq_some_iff.mp hb
    have hcell : ∀ A, P A → A.Cell b.storage b.slot := fun A hP => (h A hP).last name b hname hfind
    split
    case isFalse => exact Computes.pure fun _ _ => isPlain_const rfl
    case isTrue htracked =>
      have hload : Writes P (Emit.load .ptr b.slot) fun A v => A.Reads v b.slot := by
        refine (writes_load fun A dst hP _ => ?_).mono (fun _ hP => hP) fun _ _ _ hQ => hQ.2.1 rfl
        rw [← slotType_of_isTracked htracked]
        exact .load (hcell A hP) dst
      refine hload.lifted.bind fun record => ?_
      refine (writes_call fun A dst hA _ => ?_).lifted.bind fun _ =>
        Computes.pure fun _ hA => isPlain_scalar hA.2.2.1
      exact .ask _ _ ⟨_, _, hcell A hA.1, htracked, hA.2⟩ hcheck

/-- A name that a function reads is that of a variable in the frame of the entry function. -/
def OutOfReach (s : State) (name : String) (b : Binding) : Prop :=
  name ≠ "True" ∧ name ≠ "False" ∧ s.scope = .function ∧ s.locals.lookup name = none ∧
    s.globals.lookup name = some b ∧ b.isModuleLevel = false

theorem OutOfReach.find? {name : String} {b : Binding} (h : OutOfReach T name b) :
    T.find? name = none := by
  obtain ⟨-, -, hscope, hlocal, hglobal, hframed⟩ := h
  simp [State.find?, hscope, hlocal, hglobal, hframed]

theorem computes_unboundName {name : String} (htrue : name ≠ "True") (hfalse : name ≠ "False")
    (hnone : T.find? name = none) (h : ∀ A, P A → A.Covers ctx T [name])
    (hF : ∀ b, OutOfReach T name b → F (.internal (.notAddressable name b.slot.text))) :
    Computes ctx T (Excusing F) [] P (unboundName name) fun A v => A.IsPlain v := by
  unfold unboundName
  refine Computes.get_bind fun s hs => ?_
  split
  case h_1 b hscope hb =>
    rw [hs.scope] at hscope
    rw [hs.globals] at hb
    simp only [State.find?, hscope, hb, Option.or_eq_none_iff] at hnone
    refine Computes.throw (.inr (hF b ⟨htrue, hfalse, hscope, hnone.1, hb, ?_⟩))
    simpa using hnone.2
  case h_2 =>
    split
    case h_1 check hcheck => exact computes_predicateOfLast (mem_queries_of_predicate? hcheck) h
    case h_2 =>
      refine Computes.read_bind ?_
      split
      case isTrue =>
        exact computes_loadExternal fun A hP => (h A hP).external name (by simp) hnone
      case isFalse => exact Computes.get_bind fun _ _ => Computes.diagnose rfl

theorem writes_load_binding {b : Binding} (hcell : ∀ A, P A → A.Cell b.storage b.slot)
    (hserves : ∀ A, P A → A.Serves ctx T) (hholds : ∀ A, P A → b.storage.Holds b.kind) :
    Writes P (load b) fun A v => (v.kind = .tracked → b.storage.isTracked = true ∧
      A.Reads v.value b.slot) ∧ (v.kind = .packed → v.value.ty = .i64) ∧
        (v.kind ≠ .tracked → ¬ A.Confined v.value) := by
  refine (writes_load fun A dst hP _ => .load (hcell A hP) dst).bind fun w => Writes.pure ?_
  rintro A ⟨hP, hty, hreads, hloose⟩
  have hholds := hholds A hP
  refine ⟨fun ht => ?_, fun hp => ?_, fun hne => hloose fun hconfines storage hstorage => ?_⟩
  · rw [show b.kind = .tracked from ht] at hholds
    have htracked := isTracked_of_holds hholds
    exact ⟨htracked, hreads (slotType_of_isTracked htracked)⟩
  · rw [show b.kind = .packed from hp] at hholds
    exact hty.trans (slotType_of_holds hholds)
  · rw [(hserves A hP).cells hconfines _ _ _ hstorage (hcell A hP)]
    exact isTracked_eq_false_of_holds hholds hne

/-- A name is read without a fault, unless it is out of reach. -/
theorem computes_identifier {name : String} (h : ∀ A, P A → A.Covers ctx T [name])
    (hF : ∀ b, OutOfReach T name b → F (.internal (.notAddressable name b.slot.text))) :
    Computes ctx T (Excusing F) [] P (identifier name) fun A v => A.Gives T (some name) v := by
  unfold identifier
  split
  case isTrue => exact Computes.pure fun _ _ => (isPlain_const rfl).gives
  case isFalse htrue =>
    split
    case isTrue => exact Computes.pure fun _ _ => (isPlain_const rfl).gives
    case isFalse hfalse =>
      refine Computes.get_bind fun s hs => ?_
      rw [hs.find?]
      split
      case h_2 hnone =>
        exact (computes_unboundName htrue hfalse hnone h hF).gives
      case h_1 b hb =>
        refine (writes_load_binding (fun A hP => (h A hP).cell name (by simp) b hb)
          (fun A hP => (h A hP).toServes) fun A hP => (h A hP).kinds name b hb).lifted.mono
          (fun _ hP => hP) ?_
        rintro A v hP ⟨hrecord, hword, hloose⟩
        exact ⟨fun ht => ⟨name, b, rfl, hb, hrecord ht⟩, hword, hloose⟩

theorem kind_of_structType {v : Typed} {field type : String} {s s' : State}
    (h : structType v field ctx s = .ok (type, s')) : v.kind = .struct type ∨ v.kind = .packed := by
  obtain ⟨value, kind⟩ := v
  cases kind with
  | struct name => exact .inl (congrArg (Kind.struct ·.1) (Except.ok.inj h))
  | packed => exact .inr rfl
  | _ => cases h

theorem computes_fieldOf {object : Typed} {field : String} (h : ∀ A, P A → A.Knows object) :
    Computes ctx T (Excusing F) [] P (fieldOf object field) fun A v => A.IsPlain v := by
  have htype : Computes ctx T (Excusing F) [] P (structType object field) fun _ _ => True := by
    unfold structType
    split
    case h_1 => exact Computes.pure fun _ _ => trivial
    case h_2 =>
      refine Computes.get_bind fun _ _ => Computes.lift (fun _ _ _ _ => trivial) fun e he => ?_
      unfold ownerOf at he
      split at he <;> cases he <;> exact .inl (.inl rfl)
    case h_3 => exact Computes.refuse
  unfold fieldOf
  refine htype.bind_of fun _ type _ _ hrun => ?_
  refine (computes_coerce (by simp) (fun A hA => h A hA.1) (kind_of_structType hrun)).bind
    fun struct => ?_
  refine Computes.get_bind fun s _ => ?_
  dsimp only
  split
  case h_2 => exact Computes.diagnose rfl
  case h_1 =>
    refine (writes_gep fun A hA => ⟨hA.2.2.loose, not_confined_of_reg? rfl⟩).lifted.bind
      fun address => ?_
    refine (writes_load fun A dst hA _ => ?_).lifted.bind fun w =>
      Computes.pure fun _ hA => isPlain_packed hA.2.1
    obtain ⟨r, rfl, hgep⟩ := hA.2
    exact .loadField dst _ hgep

theorem computes_deferredMember {module member : String} :
    Computes ctx T (Excusing F) [] P (deferredMember module member) fun _ symbol =>
      symbol = memberSymbol module member := by
  unfold deferredMember
  refine Computes.read_bind (Computes.get_bind fun s _ => ?_)
  split
  case isTrue => exact Computes.pure fun _ _ => rfl
  case isFalse => exact Computes.diagnose rfl

theorem computes_memberOf {name member : String} (h : ∀ A, P A → A.Covers ctx T [name]) :
    Computes ctx T (Excusing F) [] P (memberOf name member) fun A v => A.IsPlain v := by
  unfold memberOf
  refine Computes.get_bind fun s hs => ?_
  rw [hs.find?]
  split
  case h_1 =>
    refine computes_deferredMember.bind fun symbol => ?_
    refine computes_loadExternal fun A hA => ?_
    rw [hA.2]
    exact (h A hA.1).members name (by simp) member
  case h_2 hfind =>
    have hreach (b : Binding) (hb : OutOfReach T name b) : False := by simp [hb.find?] at hfind
    refine (computes_identifier h fun b hb => (hreach b hb).elim).bind fun v => ?_
    refine computes_fieldOf fun A hA => ?_
    have hgives : A.Gives T (Node.identifier name).bare? v := hA.2
    exact hgives.knows (h A hA.1)

theorem computes_answer {word : String} {target : Lower Typed} {bare : Option String}
    (hknows : ∀ A v, P A → A.Gives T bare v → A.Knows v)
    (h : Computes ctx T (Excusing F) texts P target fun A v => A.Gives T bare v) :
    Computes ctx T (Excusing F) texts P (answer word target) fun A v =>
      A.Gives T (if word = "what" then bare else none) v := by
  unfold answer
  split
  case h_1 => exact Computes.refuse
  case h_2 q hq =>
    obtain ⟨hwhat, hquery⟩ := question?_accessor hq
    refine h.last fun subject => ?_
    split
    case h_1 haccessor =>
      rw [if_pos (hwhat haccessor)]
      exact Computes.pure fun _ hA => hA.2
    case h_2 accessor haccessor =>
      split
      case isTrue => exact Computes.pure fun _ _ => (isPlain_const rfl).gives
      case isFalse hkind =>
        refine Computes.read_bind ?_
        refine (writes_call fun A dst hA _ => ?_).lifted.bind fun value => ?_
        · exact .ask _ _ ((hknows A subject hA.1 hA.2).record (not_not.mp hkind))
            (hquery accessor haccessor)
        · split
          case isTrue =>
            exact (writes_cast fun _ hA => hA.2.2.1).lifted.bind fun _ =>
              Computes.pure fun _ hA => (isPlain_scalar hA.2.1).gives
          case isFalse => exact Computes.pure fun _ hA => (isPlain_scalar hA.2.2.1).gives

/-! ## Operators -/

section

variable {v lhs rhs : Typed}

theorem computes_numberText (hA : ∀ A, P A → A.Serves ctx T) (h : ∀ A, P A → A.Knows v) :
    Computes ctx T (Excusing F) [] P (numberText v) fun A w => ¬ A.Confined w :=
  (writes_toScalar h).lifted.bind fun _ =>
    (computes_allocate (by decide) (by decide) (fun A hP => hA A hP.1)
      fun _ hA => by simpa using hA.2).mono (fun _ hP => hP) fun _ _ _ hQ => hQ.1

theorem computes_asText (hA : ∀ A, P A → A.Serves ctx T) (h : ∀ A, P A → A.Knows v) :
    Computes ctx T (Excusing F) [] P (asText v) fun A w => ¬ A.Confined w := by
  unfold asText
  split
  case h_1 hk => exact Computes.pure fun A hP => (h A hP).loose (by simp [hk])
  case h_2 hk =>
    exact (computes_coerce (by simp) h (.inr hk)).bind fun _ =>
      Computes.pure fun _ hA => hA.2.2.loose
  case h_3 | h_4 => exact computes_numberText hA h
  case h_5 | h_6 => exact Computes.refuse

theorem computes_concat (hA : ∀ A, P A → A.Serves ctx T) (hl : ∀ A, P A → A.Knows lhs)
    (hr : ∀ A, P A → A.Knows rhs) : Computes ctx T (Excusing F) [] P (concat lhs rhs) fun A v => A.IsPlain v := by
  refine (computes_asText hA hl).bind fun l => ?_
  refine (computes_asText (fun A hP => hA A hP.1) fun A hP => hr A hP.1).bind fun r => ?_
  refine (computes_allocate (by decide) (by decide) (fun A hP => hA A hP.1.1) fun A hP => ?_).bind
    fun _ => Computes.pure fun _ hP => isPlain_text hP.2.1
  simpa using ⟨hP.1.2, hP.2⟩

theorem computes_textEquality {negated : Bool} (hA : ∀ A, P A → A.Serves ctx T)
    (hl : ∀ A, P A → A.Knows lhs) (hr : ∀ A, P A → A.Knows rhs) :
    Computes ctx T (Excusing F) [] P (textEquality negated lhs rhs) fun A v => A.IsPlain v := by
  unfold textEquality
  split
  case isFalse => exact Computes.pure fun _ _ => isPlain_const rfl
  case isTrue =>
    refine (computes_asText hA hl).bind fun l => ?_
    refine (computes_asText (fun A hP => hA A hP.1) fun A hP => hr A hP.1).bind fun r => ?_
    refine (writes_callPlain (by decide) fun A hP => ?_).lifted.bind fun same => ?_
    · simpa using ⟨hP.1.2, hP.2⟩
    refine (writes_compute (fun _ => ⟨rfl, rfl⟩) fun A _ hP => ?_).lifted.bind fun _ =>
      Computes.pure fun _ hP => isPlain_scalar hP.2
    simpa [Instr.operands] using ⟨hP.2, not_confined_of_reg? rfl⟩

theorem computes_plainBinary {op : String} (hl : ∀ A, P A → A.Knows lhs)
    (hr : ∀ A, P A → A.Knows rhs) :
    Computes ctx T (Excusing F) [] P (plainBinary op lhs rhs) fun A v => A.IsPlain v := by
  -- Whatever the operation, it computes from two values that are not confined.
  have hcompute : ∀ {P : Access → Prop} {l r : Value} {ty : Ty} {instr : Reg → Instr},
      (∀ dst, (instr dst).isComputation = true ∧ (instr dst).dst? = some dst) →
      (∀ dst, (instr dst).operands = [l, r]) → (∀ A, P A → ¬ A.Confined l ∧ ¬ A.Confined r) →
      Computes ctx T (Excusing F) [] P (do return .scalar (← Emit.define ty instr)) fun A v => A.IsPlain v :=
    fun hi hops h => (writes_compute hi fun A dst hP => by simpa [hops] using h A hP).lifted.bind
      fun _ => Computes.pure fun _ hP => isPlain_scalar hP.2
  unfold plainBinary
  split
  case h_1 | h_2 =>
    refine (writes_toScalar hl).lifted.bind fun l => ?_
    refine (writes_toScalar fun A hP => hr A hP.1).lifted.bind fun r => ?_
    exact hcompute (fun _ => ⟨rfl, rfl⟩) (fun _ => rfl) fun _ hP => ⟨hP.1.2, hP.2⟩
  case h_3 =>
    refine (computes_toBoolean hl).bind fun l => ?_
    refine (computes_toBoolean fun A hP => hr A hP.1).bind fun r => ?_
    exact hcompute (fun _ => ⟨rfl, rfl⟩) (fun _ => rfl) fun _ hP => ⟨hP.1.2, hP.2⟩
  case h_4 => exact Computes.refuse

theorem computes_binary {op : String} (hA : ∀ A, P A → A.Serves ctx T)
    (hl : ∀ A, P A → A.Knows lhs) (hr : ∀ A, P A → A.Knows rhs) :
    Computes ctx T (Excusing F) [] P (binary op lhs rhs) fun A v => A.IsPlain v := by
  unfold binary
  split
  case isFalse => exact computes_plainBinary hl hr
  case isTrue =>
    unfold textBinary
    split
    case h_1 => exact computes_concat hA hl hr
    case h_2 | h_3 => exact computes_textEquality hA hl hr
    case h_4 => exact Computes.refuse

theorem computes_unary {op : String} (h : ∀ A, P A → A.Knows v) :
    Computes ctx T (Excusing F) [] P (unary op v) fun A w => A.IsPlain w := by
  unfold unary
  split
  case h_1 =>
    refine (computes_toBoolean h).bind fun _ => ?_
    refine (writes_compute (fun _ => ⟨rfl, rfl⟩) fun A _ hP => ?_).lifted.bind fun _ =>
      Computes.pure fun _ hP => isPlain_scalar hP.2
    simpa [Instr.operands] using ⟨hP.2, not_confined_of_reg? rfl⟩
  case h_2 =>
    refine (writes_toScalar h).lifted.bind fun _ => ?_
    refine (writes_compute (fun _ => ⟨rfl, rfl⟩) fun A _ hP => ?_).lifted.bind fun _ =>
      Computes.pure fun _ hP => isPlain_scalar hP.2
    simpa [Instr.operands] using hP.2
  case h_3 => exact Computes.refuse

theorem writes_toPosition (h : ∀ A, P A → A.Knows v) :
    Writes P (toPosition v) fun A w => ¬ A.Confined w :=
  (writes_toScalar h).bind fun _ =>
    (writes_cast fun _ hA => hA.2).mono (fun _ hP => hP) fun _ _ _ hQ => hQ.1

theorem computes_elementAt {position : Value} (h : ∀ A, P A → A.Knows v)
    (hposition : ∀ A, P A → ¬ A.Confined position) :
    Computes ctx T (Excusing F) [] P (elementAt v position) fun A w => A.IsPlain w := by
  have hlist (hk : v.kind = .list ∨ v.kind = .packed) : Computes ctx T (Excusing F) [] P (do
      let list ← perform (coerce v .list)
      let element ← Emit.call .double Catalog.listGet [list.value, position]
      return .packed (← Emit.cast .bitcast element .i64)) fun A w => A.IsPlain w := by
    refine (computes_coerce (by simp) h hk).bind fun _ => ?_
    refine (writes_callPlain (by decide) fun A hA => ?_).lifted.bind fun _ => ?_
    · simpa using ⟨hA.2.2.loose, hposition A hA.1⟩
    · exact (writes_cast fun _ hA => hA.2).lifted.bind fun _ =>
        Computes.pure fun _ hA => isPlain_packed (hA.2.2 (.inl rfl) rfl)
  unfold elementAt
  split
  case h_1 hk =>
    refine (writes_callPlain (by decide) fun A hP => ?_).lifted.bind fun _ => ?_
    · simpa using ⟨(h A hP).loose (by simp [hk]), hposition A hP⟩
    · exact (writes_cast fun _ hA => hA.2).lifted.bind fun _ =>
        Computes.pure fun _ hA => isPlain_scalar hA.2.1
  case h_2 hk | h_3 hk => exact hlist (by simp [hk])
  case h_4 => exact Computes.refuse

end

/-! ## Applications -/

/-- An argument computes what the access knows, as one value and as several. -/
structure ArgumentComputes (ctx : Context) (T : State) (F : Error → Prop) (texts : List String)
    (P : Access → Prop) (a : Argument) : Prop where
  whole : Computes ctx T (Excusing F) texts P a.whole fun A v => A.Knows v
  elements : ∀ ms, a.elements = some ms → ∃ textss, textss.flatten = texts ∧
    ComputesAll ctx T (Excusing F) textss P ms

/-- That something is appended to what is no list is an error in `F`, for an argument of two written
values. -/
def AppendTolerated (ctx : Context) (T : State) (F : Error → Prop) (a : Argument) : Prop :=
  ∀ list value s v s', a.elements = some [list, value] → SameTables T s → list ctx s = .ok (v, s') →
    ¬ (v.kind = .list ∨ v.kind = .packed) → F (.invalidConversion v.kind.title Kind.list.title)

section

variable {a : Argument} {v : Typed}

theorem computes_values (h : ArgumentComputes ctx T F texts P a) (spread : Bool) :
    Computes ctx T (Excusing F) texts P (a.values spread) fun A vs => ∀ v ∈ vs, A.Knows v := by
  unfold Argument.values
  split
  case h_1 ms hms =>
    obtain ⟨textss, rfl, hall⟩ := h.elements ms hms
    exact Computes.mapM hall
  case h_2 => exact h.whole.last fun _ => Computes.pure fun _ hA => by simpa using hA.2

theorem carries_fitted {A : Access} {slots : List Slot} (h : ∀ s ∈ slots, A.Carries s)
    (arity : Nat) : ∀ s ∈ fitted slots arity, A.Carries s := by
  intro s hs
  rcases List.mem_append.mp hs with hs | hs
  · exact h s (List.mem_of_mem_take hs)
  · rw [List.eq_of_mem_replicate hs]
    exact not_confined_of_reg? rfl

theorem computes_callFunction {symbol callee : String} {arity : Nat} {args : List Typed}
    (h : ∀ A, P A → ∀ v ∈ args, A.Knows v) :
    Computes ctx T (Excusing F) [] P (callFunction symbol callee arity args) fun A v => A.IsPlain v := by
  have hcall : ∀ slots : List Slot, Computes ctx T (Excusing F) [] (fun A => P A ∧ ∀ s ∈ slots, A.Carries s) (do
      let words ← emit ((fitted slots arity).mapM Slot.erase)
      return .packed (← Emit.call .i64 symbol words)) fun A v => A.IsPlain v := fun slots => by
    have hwords : Writes (fun A => P A ∧ ∀ s ∈ slots, A.Carries s)
        ((fitted slots arity).mapM Slot.erase) fun _ words => ∀ w ∈ words, w.ty = .i64 :=
      Writes.mapM fun s hs => writes_erase fun A hA => carries_fitted hA.2 arity s hs
    refine hwords.computes.bind fun words => ?_
    refine (writes_call fun A dst hA _ => .words dst symbol hA.2).lifted.bind fun w => ?_
    exact Computes.pure fun _ hA => isPlain_packed hA.2.1
  unfold callFunction
  have hslots : Writes P (args.mapM fun arg => do Slot.ofTyped (← byValue arg)) fun A slots =>
      ∀ s ∈ slots, A.Carries s :=
    Writes.mapM fun arg harg => (writes_byValue fun A hP => h A hP arg harg).bind fun _ =>
      writes_ofTyped fun _ hA => hA.2
  refine hslots.computes.bind fun slots => ?_
  dsimp only
  split
  case h_1 => exact (computes_warn _).seq fun _ => hcall slots
  case h_2 => exact hcall slots

theorem computes_callRoutine {r : Routine} {callee : String} (h : ArgumentComputes ctx T F texts P a) :
    Computes ctx T (Excusing F) texts P (callRoutine r callee a) fun A v => A.IsPlain v :=
  (computes_values h _).last fun _ => computes_callFunction fun _ hA => hA.2

/-- Note that a function of another object is called, and give the number of its words. -/
def noteFunction (symbol : String) (asked : Nat) : Lower Nat :=
  note fun externals assembly => externals.useFunction assembly symbol asked

theorem computes_noteFunction (symbol : String) (asked : Nat) :
    Computes ctx T (Excusing F) [] P (noteFunction symbol asked) fun _ _ => True := by
  refine computes_note (fun s a externals assembly h => ?_) fun externals assembly e h => ?_
  · have hglobals := (Stage.useFunction_globals h).1
    exact ⟨Adds.quiet { Adds.refl s with } hglobals, by rw [hglobals]⟩
  · unfold Externals.useFunction at h
    split at h
    · cases h
    · split_ifs at h
      cases h
      rfl

theorem computes_callExternal {symbol : String} (h : ArgumentComputes ctx T F texts P a) :
    Computes ctx T (Excusing F) texts P (callExternal symbol a) fun A v => A.IsPlain v := by
  unfold callExternal
  refine Computes.get_bind fun s _ => ?_
  split
  case h_1 => exact computes_callRoutine h
  case h_2 =>
    refine (computes_values h _).last fun args => ?_
    have huse : Computes ctx T (Excusing F) [] (fun A => P A ∧ ∀ v ∈ args, A.Knows v) (do
        let arity ← noteFunction symbol args.length
        callFunction symbol symbol arity args) fun A v => A.IsPlain v :=
      (computes_noteFunction symbol _).seq fun _ => computes_callFunction fun _ hA => hA.2
    simpa only [noteFunction, note, bind_assoc, pure_bind] using huse

theorem computes_predicateOf {check : String} (hcheck : check ∈ Catalog.queries)
    (h : ArgumentComputes ctx T F texts P a) :
    Computes ctx T (Excusing F) texts P (predicateOf check a) fun A v => A.IsPlain v := by
  unfold predicateOf
  refine h.whole.last fun subject => ?_
  split
  case isFalse => exact Computes.pure fun _ _ => isPlain_const rfl
  case isTrue hkind =>
    refine (writes_call fun A dst hA _ => ?_).lifted.bind fun _ =>
      Computes.pure fun _ hA => isPlain_scalar hA.2.2.1
    exact .ask _ _ (hA.2.record hkind) hcheck

theorem computes_print (h : ∀ A, P A → A.Knows v) :
    Computes ctx T (Excusing F) [] P (print v) fun A w => A.IsPlain w := by
  have hcall : ∀ {P : Access → Prop} callee x, callee ∉ Catalog.recordFunctions →
      (∀ A, P A → ¬ A.Confined x) → Computes ctx T (Excusing F) [] P (do
        Emit.callVoid callee [x]
        return .scalar (.float .zero)) fun A w => A.IsPlain w := fun callee x hcallee hx =>
    (writes_callVoidPlain hcallee fun A hP => by simpa using hx A hP).lifted.seq fun _ =>
      Computes.pure fun _ _ => isPlain_const rfl
  unfold print
  dsimp only
  split
  case h_1 hk => exact hcall _ _ (by decide) fun A hP => (h A hP).loose (by simp [hk])
  case h_2 | h_3 | h_4 =>
    exact (writes_toScalar h).lifted.bind fun x => hcall _ x (by decide) fun _ hA => hA.2
  case h_5 | h_6 => exact Computes.diagnose_bind rfl

theorem computes_lengthOf (h : ∀ A, P A → A.Knows v) :
    Computes ctx T (Excusing F) [] P (lengthOf v) fun A w => A.IsPlain w := by
  have hcall : ∀ {P : Access → Prop} callee x, callee ∉ Catalog.recordFunctions →
      (∀ A, P A → ¬ A.Confined x) → Computes ctx T (Excusing F) [] P (do
        let count ← Emit.call .i64 callee [x]
        return .scalar (← Emit.cast .sitofp count .double)) fun A w => A.IsPlain w :=
    fun callee x hcallee hx =>
      (writes_callPlain hcallee fun A hP => by simpa using hx A hP).lifted.bind fun _ =>
        (writes_cast fun _ hA => hA.2).lifted.bind fun _ =>
          Computes.pure fun _ hA => isPlain_scalar hA.2.1
  unfold lengthOf
  dsimp only
  split
  case h_1 hk => exact hcall _ _ (by decide) fun A hP => (h A hP).loose (by simp [hk])
  case h_2 hk | h_3 hk =>
    exact (computes_coerce (by simp) h (by simp [hk])).bind fun list =>
      hcall _ list.value (by decide) fun _ hA => hA.2.2.loose
  case h_4 => exact Computes.diagnose_bind rfl

theorem computes_append (h : ArgumentComputes ctx T F texts P a) (hF : AppendTolerated ctx T F a) :
    Computes ctx T (Excusing F) texts P (append a) fun A v => A.IsPlain v := by
  unfold append
  split
  case h_2 => exact Computes.refuse
  case h_1 list value helements =>
    obtain ⟨_, rfl, _ | ⟨hlist, _ | ⟨hvalue, ⟨⟩⟩⟩⟩ := h.elements _ helements
    refine hlist.bind_of fun s l s' hT hrun => ?_
    rw [List.flatten_cons, List.flatten_nil, List.append_nil]
    have hcoerce : Computes ctx T (Excusing F) [] (fun A => P A ∧ A.Knows l) (perform (coerce l .list))
        fun A w => w.kind = .list ∧ A.IsPlain w := by
      refine .perform (fun _ he => writes_coerce (by simp) (fun _ hA => hA.2) he) fun e he => .inr ?_
      have hkind : ¬ (l.kind = .list ∨ l.kind = .packed) := fun hk => coerce_ne_error hk e he
      have herror : e = .invalidConversion l.kind.title Kind.list.title := by
        unfold coerce at he
        split at he <;> [skip; split at he] <;> cases he
        rfl
      exact herror ▸ hF list value s l s' helements hT hrun hkind
    refine hcoerce.bind fun l' => (hvalue.given fun _ hA => hA.1.1).last fun v => ?_
    refine (writes_toScalar fun _ hA => hA.2).lifted.bind fun _ => ?_
    refine (writes_callVoidPlain (by decide) fun A hA => ?_).lifted.seq fun _ => ?_
    · simpa using ⟨hA.1.1.2.2.loose, hA.2⟩
    · exact Computes.pure fun _ hA => hA.1.1.2.2

theorem computes_textOf (hA : ∀ A, P A → A.Serves ctx T) (h : ∀ A, P A → A.Knows v) :
    Computes ctx T (Excusing F) [] P (textOf v) fun A w => A.IsPlain w := by
  unfold textOf
  split
  case isTrue hkind => exact Computes.pure fun A hP => (h A hP).isPlain (by simp [hkind])
  case isFalse =>
    exact (computes_numberText hA h).bind fun _ => Computes.pure fun _ hP => isPlain_text hP.2

theorem computes_numberOf (hA : ∀ A, P A → A.Serves ctx T) (h : ∀ A, P A → A.Knows v) :
    Computes ctx T (Excusing F) [] P (numberOf v) fun A w => A.IsPlain w := by
  unfold numberOf
  split
  case isTrue =>
    refine (computes_asText hA h).bind fun _ => ?_
    refine (writes_callPlain (by decide) fun A hP => by simpa using hP.2).lifted.bind fun _ => ?_
    exact Computes.pure fun _ hP => isPlain_scalar hP.2
  case isFalse =>
    exact (writes_toScalar h).lifted.bind fun _ => Computes.pure fun _ hP => isPlain_scalar hP.2

theorem computes_power (h : ArgumentComputes ctx T F texts P a) :
    Computes ctx T (Excusing F) texts P (power a) fun A v => A.IsPlain v := by
  unfold power
  refine (computes_values h true).last fun args => ?_
  split
  case h_2 => exact Computes.refuse
  case h_1 base exponent =>
    refine (writes_toScalar fun A hA => hA.2 base (by simp)).lifted.bind fun _ => ?_
    refine (writes_toScalar fun A hA => hA.1.2 exponent (by simp)).lifted.bind fun _ => ?_
    refine (writes_callPlain (by decide) fun A hA => ?_).lifted.bind fun _ => ?_
    · simpa using ⟨hA.1.2, hA.2⟩
    · exact Computes.pure fun _ hA => isPlain_scalar hA.2

theorem computes_mathOf {symbol : String} (hsymbol : symbol ∉ Catalog.recordFunctions)
    (h : ∀ A, P A → A.Knows v) : Computes ctx T (Excusing F) [] P (mathOf symbol v) fun A w => A.IsPlain w :=
  (writes_toScalar h).lifted.bind fun _ =>
    (writes_callPlain hsymbol fun A hA => by simpa using hA.2).lifted.bind fun _ =>
      Computes.pure fun _ hA => isPlain_scalar hA.2

theorem computes_builtin {name : String} {builtin : Argument → Lower Typed}
    (hbuiltin : builtin? name = some builtin) (hA : ∀ A, P A → A.Serves ctx T)
    (h : ArgumentComputes ctx T F texts P a) (hF : name = "append" → AppendTolerated ctx T F a) :
    Computes ctx T (Excusing F) texts P (builtin a) fun A v => A.IsPlain v := by
  unfold builtin? at hbuiltin
  split at hbuiltin
  case h_1 => cases hbuiltin; exact h.whole.last fun _ => computes_print fun _ hA => hA.2
  case h_2 => cases hbuiltin; exact h.whole.last fun _ => computes_lengthOf fun _ hA => hA.2
  case h_3 => cases hbuiltin; exact computes_append h (hF rfl)
  case h_4 =>
    cases hbuiltin
    exact h.whole.last fun _ => computes_textOf (fun A hP => hA A hP.1) fun _ hA => hA.2
  case h_5 =>
    cases hbuiltin
    exact h.whole.last fun _ => computes_numberOf (fun A hP => hA A hP.1) fun _ hA => hA.2
  case h_6 => cases hbuiltin; exact computes_power h
  case h_7 =>
    obtain ⟨symbol, hsymbol, rfl⟩ := Option.map_eq_some_iff.mp hbuiltin
    exact h.whole.last fun _ => computes_mathOf (mathFunction?_notMem hsymbol) fun _ hA => hA.2

theorem computes_applyName {name : String} (hA : ∀ A, P A → A.Serves ctx T)
    (h : ArgumentComputes ctx T F texts P a)
    (hF : name = "append" → T.routine? name = none → AppendTolerated ctx T F a) :
    Computes ctx T (Excusing F) texts P (applyName name a) fun A v => A.IsPlain v := by
  unfold applyName
  refine Computes.get_bind fun s hs => ?_
  rw [show s.routine? name = T.routine? name by rw [State.routine?, hs.functions]; rfl]
  split
  case h_1 => exact computes_callRoutine h
  case h_2 check _ _ hcheck => exact computes_predicateOf (mem_queries_of_predicate? hcheck) h
  case h_3 builtin hfree _ hbuiltin =>
    exact computes_builtin hbuiltin hA h fun hname => hF hname hfree
  case h_4 =>
    refine Computes.read_bind ?_
    split
    case isTrue => exact computes_callExternal h
    case isFalse => exact Computes.get_bind fun _ _ => Computes.diagnose rfl

theorem computes_applyMember {module member : String} (h : ArgumentComputes ctx T F texts P a) :
    Computes ctx T (Excusing F) texts P (applyMember module member a) fun A v => A.IsPlain v := by
  refine computes_deferredMember.seq fun _ => ?_
  exact computes_callExternal h

end

/-! ## The tree -/

/-- An expression that appends a value to a list. -/
def appendOf (list value : Node) : Node :=
  .relation (.identifier "append") (.listLiteral [list, value])

/-- Where variables are those of `T`, the expression may stop lowering with an error although the unit
has no mistake that is reported as one. -/
inductive Stumbles (ctx : Context) (T : State) : Node → Error → Prop where
  /-- A statement is used as an expression. -/
  | statement {node : Node} (statement : node.isStatement = true) :
      Stumbles ctx T node (.internal (.notAnExpression node.title))
  /-- A function reads a variable that is in the frame of the entry function. -/
  | outOfReach {name b} (outside : OutOfReach T name b) :
      Stumbles ctx T (.identifier name) (.internal (.notAddressable name b.slot.text))
  /-- Something is appended to what is no list. -/
  | append {list value s v s'} (free : T.routine? "append" = none) (same : SameTables T s)
      (run : expr list ctx s = .ok (v, s')) (kind : ¬ (v.kind = .list ∨ v.kind = .packed)) :
      Stumbles ctx T (appendOf list value) (.invalidConversion v.kind.title Kind.list.title)
  /-- A part of the expression does. -/
  | inside {part node e} (mem : part ∈ node.operands) (h : Stumbles ctx T part e) :
      Stumbles ctx T node e

/-- All that expressions may stumble over is in `F`. -/
def Tolerates (ctx : Context) (T : State) (F : Error → Prop) (nodes : List Node) : Prop :=
  ∀ node ∈ nodes, ∀ e, Stumbles ctx T node e → F e

theorem tolerates_all (nodes : List Node) : Tolerates ctx T (fun _ => True) nodes :=
  fun _ _ _ _ => trivial

theorem Tolerates.operands {node : Node} (h : Tolerates ctx T F [node]) :
    Tolerates ctx T F node.operands :=
  fun _ hpart e he => h node (List.mem_singleton_self _) e (.inside hpart he)

theorem Tolerates.sub {nodes nodes' : List Node} (h : Tolerates ctx T F nodes)
    (hsub : nodes' ⊆ nodes) : Tolerates ctx T F nodes' :=
  fun node hnode => h node (hsub hnode)

theorem Tolerates.append {argument : Node} (h : Tolerates ctx T F [.relation (.identifier "append") argument])
    (hfree : T.routine? "append" = none) :
    AppendTolerated ctx T F ⟨expr argument, writtenElements argument⟩ := by
  intro list value s v s' helements hT hrun hkind
  cases argument with
  | listLiteral nodes =>
    obtain _ | ⟨node, _ | ⟨node', _ | _⟩⟩ := nodes <;>
      simp only [writtenElements, exprs, Option.some.injEq, List.cons.injEq, reduceCtorEq, and_false,
        and_true] at helements
    obtain ⟨rfl, rfl⟩ := helements
    exact h _ (List.mem_singleton_self _) _ (.append hfree hT hrun hkind)
  | _ => simp [writtenElements] at helements

mutual

theorem computes_expr : (node : Node) → (∀ A, P A → A.Covers ctx T node.reads) →
    Tolerates ctx T F [node] →
    Computes ctx T (Excusing F) node.texts P (expr node) fun A v => A.Gives T node.bare? v
  | .literal value, h, _ => by
    rw [expr]
    exact (computes_literal value fun A hP => (h A hP).toServes).gives
  | .identifier name, h, hF => by
    rw [expr]
    exact computes_identifier h fun b hb => hF _ (by simp) _ (.outOfReach hb)
  | .binary op left right, h, hF => by
    rw [expr, Node.texts]
    have hleft := computes_known left (fun A hP => (h A hP).mono (by simp [Node.reads]))
      (hF.operands.sub (by simp [Node.operands]))
    have hright := computes_known right (fun A hP => (h A hP).mono (by simp [Node.reads]))
      (hF.operands.sub (by simp [Node.operands]))
    refine hleft.bind fun lhs => (hright.given fun _ hA => hA.1).last fun rhs => ?_
    exact (computes_binary (fun A hA => (h A hA.1.1).toServes) (fun _ hA => hA.1.2)
      fun _ hA => hA.2).gives
  | .unary op operand, h, hF => by
    rw [expr, Node.texts]
    refine (computes_known operand (fun A hP => (h A hP).mono (by simp [Node.reads]))
      hF.operands).last fun v => ?_
    exact (computes_unary fun _ hA => hA.2).gives
  | .listLiteral elements, h, hF => by
    rw [expr, Node.texts, Node.textsAll_eq]
    exact (computes_listOf (fun A hP => (h A hP).toServes) (computes_exprs elements
      (fun A hP => (h A hP).mono (by simp [Node.reads])) hF.operands)).gives
  | .index list index, h, hF => by
    rw [expr, Node.texts]
    have hlist := computes_known list (fun A hP => (h A hP).mono (by simp [Node.reads]))
      (hF.operands.sub (by simp [Node.operands]))
    have hindex := computes_known index (fun A hP => (h A hP).mono (by simp [Node.reads]))
      (hF.operands.sub (by simp [Node.operands]))
    refine hlist.bind fun target => (hindex.given fun _ hA => hA.1).last fun position => ?_
    refine (writes_toPosition fun _ hA => hA.2).lifted.bind fun _ => ?_
    exact (computes_elementAt (fun _ hA => hA.1.1.2) fun _ hA => hA.2).gives
  | .memberAccess object member, h, hF => by
    have hobject := computes_known object fun A hP => (h A hP).mono (by simp [Node.reads])
    rw [expr_memberAccess, Node.texts]
    split
    case h_1 name => exact (computes_memberOf h).gives
    case h_2 hne =>
      exact (hobject (hF.operands.sub (by simp [Node.operands]))).last fun _ =>
        (computes_fieldOf fun _ hA => hA.2).gives
  | .structLiteral name args, h, hF => by
    rw [expr, Node.texts, Node.textsAll_eq]
    exact (computes_structOf (computes_exprs args
      (fun A hP => (h A hP).mono (by simp [Node.reads])) hF.operands)).gives
  | .interrogative word target, h, hF => by
    rw [expr, Node.texts]
    have hcovers : ∀ A, P A → A.Covers ctx T target.reads := fun A hP =>
      (h A hP).mono (by simp [Node.reads])
    exact computes_answer (fun A v hP hv => hv.knows (hcovers A hP))
      (computes_expr target hcovers hF.operands)
  | .relation callee argument, h, hF => by
    have hcovers : ∀ A, P A → A.Covers ctx T argument.reads := fun A hP =>
      (h A hP).mono (Node.reads_relation callee argument)
    have ha : ArgumentComputes ctx T F argument.texts P ⟨expr argument, writtenElements argument⟩ :=
      ⟨computes_known argument hcovers hF.operands,
        computes_writtenElements argument hcovers hF.operands⟩
    rw [expr_relation, Node.texts]
    split
    case h_1 name =>
      exact (computes_applyName (fun A hP => (h A hP).toServes) ha fun hname hfree => by
        subst hname
        exact hF.append hfree).gives
    case h_2 => exact (computes_applyMember ha).gives
    case h_3 => exact Computes.refuse
  | .assignment .., _, hF | .indexedAssignment .., _, hF | .functionDef .., _, hF | .ret _, _, hF
  | .breakLoop, _, hF | .conditional .., _, hF | .loop .., _, hF | .structDef .., _, hF
  | .importModule _, _, hF =>
    Computes.throw (.inr (hF _ (List.mem_singleton_self _) _ (.statement rfl)))

theorem computes_known (node : Node) (h : ∀ A, P A → A.Covers ctx T node.reads)
    (hF : Tolerates ctx T F [node]) :
    Computes ctx T (Excusing F) node.texts P (expr node) fun A v => A.Knows v :=
  (computes_expr node h hF).mono (fun _ hP => hP) fun A _ hP hv => hv.knows (h A hP)

theorem computes_exprs : (nodes : List Node) → (∀ A, P A → A.Covers ctx T (Node.readsAll nodes)) →
    Tolerates ctx T F nodes → ComputesAll ctx T (Excusing F) (nodes.map Node.texts) P (exprs nodes)
  | [], _, _ => .nil
  | node :: rest, h, hF => by
    rw [exprs]
    refine .cons (computes_known node (fun A hP => (h A hP).mono ?_) (hF.sub (by simp)))
      (computes_exprs rest (fun A hP => (h A hP).mono ?_) (hF.sub (by simp))) <;> simp [Node.readsAll]

theorem computes_writtenElements (node : Node) (h : ∀ A, P A → A.Covers ctx T node.reads)
    (hF : Tolerates ctx T F [node]) (ms : List (Lower Typed)) (hms : writtenElements node = some ms) :
    ∃ textss, textss.flatten = node.texts ∧ ComputesAll ctx T (Excusing F) textss P ms := by
  cases node with
  | listLiteral nodes =>
    rw [writtenElements, Option.some.injEq] at hms
    subst hms
    refine ⟨nodes.map Node.texts, ?_, computes_exprs nodes
      (fun A hP => (h A hP).mono (by simp [Node.reads])) hF.operands⟩
    rw [Node.texts, Node.textsAll_eq]
  | _ => simp [writtenElements] at hms

end

end

end Lowering.Access

end ScriptCompiler
