import ScriptCompiler.Proofs.Access.Assign

/-!
# Statements keep to an access

Rules are checked against a text from its beginning to its end, whatever control does: `Rules.keeps`
goes by the names that are assigned further up, in whatever branch. Lowering goes the same way, so the
code of statements that keep the rules keeps to every access that suits them (`performs_stmt`,
`performs_block`). A loop may come back to its body when more names have been assigned; the code of
the body does not change by that.
-/

namespace ScriptCompiler.Lowering

open Ir
open Numeric (assigned assignedAll)

mutual

/-- A statement does with names only what it may, where the names `bound` are assigned further up. -/
def Rules.keeps (D : Rules) (bound : List String) : Node → Bool
  | .assignment name value =>
    value.reads.all (D.mayRead bound) && (name ∈ bound || value.bare?.all (D.mayShare bound name))
  | .conditional condition thenBlock elseBlock =>
    condition.reads.all (D.mayRead bound) && D.keepsAll bound thenBlock
      && D.keepsAll (bound ++ assignedAll thenBlock) elseBlock
  | .loop condition body => condition.reads.all (D.mayRead bound) && D.keepsAll bound body
  | .functionDef .. => true
  | node => node.reads.all (D.mayRead bound)

/-- Statements do with names only what they may. -/
def Rules.keepsAll (D : Rules) (bound : List String) : List Node → Bool
  | [] => true
  | node :: rest => D.keeps bound node && D.keepsAll (bound ++ assigned node) rest

end

mutual

/-- The functions that a statement defines, in whatever branch. -/
def definitions (naming : Naming) : Node → List Routine
  | .functionDef name params body => [{ name, symbol := naming.functionSymbol name, params, body }]
  | .conditional _ thenBlock elseBlock =>
    definitionsAll naming thenBlock ++ definitionsAll naming elseBlock
  | .loop _ body => definitionsAll naming body
  | _ => []

/-- The functions that statements define. -/
def definitionsAll (naming : Naming) : List Node → List Routine
  | [] => []
  | node :: rest => definitions naming node ++ definitionsAll naming rest

end

/-! ## The parts of branches and loops -/

/-- Test a condition and begin the first of two blocks. The result is the labels of the second block
and of what follows both. -/
def openThen (condition : Lower Typed) : Lower (String × String) := do
  let flag ← perform (toBoolean (← condition))
  let thenLabel ← freshLabel "if_then"
  let elseLabel ← freshLabel "if_else"
  let mergeLabel ← freshLabel "if_merge"
  Emit.condBr flag thenLabel elseLabel
  openBlock thenLabel
  return (elseLabel, mergeLabel)

/-- End the first block and begin the second. -/
def openElse (labels : String × String) : Lower Unit := do
  fallThrough labels.2
  openBlock labels.1

/-- End the second block and go on behind both. -/
def openMerge (labels : String × String) : Lower Unit := do
  fallThrough labels.2
  openBlock labels.2

/-- Begin a loop with the test of its condition. The result is the labels of the test and of what
follows the loop. -/
def openLoop (condition : Lower Typed) : Lower (String × String) := do
  let condLabel ← freshLabel "loop_cond"
  let bodyLabel ← freshLabel "loop_body"
  let endLabel ← freshLabel "loop_end"
  Emit.br condLabel
  openBlock condLabel
  let flag ← perform (toBoolean (← condition))
  Emit.condBr flag bodyLabel endLabel
  openBlock bodyLabel
  modify fun s => { s with loopEnds := endLabel :: s.loopEnds }
  return (condLabel, endLabel)

/-- End a loop. -/
def closeLoop (labels : String × String) : Lower Unit := do
  modify fun s => { s with loopEnds := s.loopEnds.tail }
  fallThrough labels.1
  openBlock labels.2

theorem conditional_eq (condition : Lower Typed) (thenBlock elseBlock : Lower Unit) :
    conditional condition thenBlock elseBlock = (do
      let labels ← openThen condition
      thenBlock
      openElse labels
      elseBlock
      openMerge labels) := by
  simp only [conditional, openThen, openElse, openMerge, bind_assoc, pure_bind]

theorem loopWhile_eq (condition : Lower Typed) (body : Lower Unit) :
    loopWhile condition body = (do
      let labels ← openLoop condition
      body
      closeLoop labels) := by
  simp only [loopWhile, openLoop, closeLoop, bind_assoc, pure_bind]

namespace Access

section

variable {ctx : Context} {scope : Scope} {D : Rules} {noted noted' : List Routine}
  {P : Access → Prop} {bound new : List String} {condition : Node} {T s : State} {F : Error → Prop}

/-! ## Steps of control flow -/

namespace Performs

theorem given {m : Lower Unit} {P' : Access → Prop} (h : Performs ctx scope D noted P bound new m)
    (hP : ∀ A, P' A → P A) : Performs ctx scope D noted P' bound new m := by
  intro s s' hrun hready
  obtain ⟨made, hmakes, hready', hsingly, henlarge⟩ := h s s' hrun hready
  exact ⟨made, hmakes, hready', hsingly, fun A hsuits hPA => henlarge A hsuits (hP A hPA)⟩

theorem after {α : Type} {m : Lower α} {f : α → Lower Unit} {Q : Access → α → Prop}
    {texts : List String} (h : ∀ T, Ready scope bound T →
      Computes ctx T AnyError texts (fun A => A.Suits ctx D T ∧ P A) m Q)
    (k : ∀ a, Performs ctx scope D noted P bound new (f a)) :
    Performs ctx scope D noted P bound new (m >>= f) :=
  fun s => Computes.performs_bind (h s) fun a s₁ _ => (k a).given (fun _ hA => hA.1) s₁

theorem last {m : Lower Unit} {texts : List String}
    (h : ∀ T, Ready scope bound T →
      Computes ctx T AnyError texts (fun A => A.Suits ctx D T ∧ P A) m fun _ _ => True) :
    Performs ctx scope D [] P bound [] m :=
  fun s => PerformsAt.of_computes (h s)

theorem before {m m' : Lower Unit} (h : Performs ctx scope D noted P bound new m)
    (h' : Performs ctx scope D [] P (bound ++ new) [] m') :
    Performs ctx scope D noted P bound new (m >>= fun _ => m') := by
  have hseq : Performs ctx scope D (noted ++ []) P bound (new ++ []) (m >>= fun _ => m') :=
    fun s => (h s).seq h'
  rwa [List.append_nil, List.append_nil] at hseq

end Performs

theorem computes_fallThrough (label : String) :
    Computes ctx T F [] P (fallThrough label) fun _ _ => True := by
  unfold fallThrough isTerminated
  rw [bind_assoc]
  refine Computes.get_bind fun s _ => ?_
  rw [pure_bind]
  split
  case isTrue => exact Computes.pure fun _ _ => trivial
  case isFalse => exact (writes_br _).lifted

theorem computes_openDeadBlock : Computes ctx T F [] P openDeadBlock fun _ _ => True :=
  (computes_freshLabel _).seq fun _ => computes_openBlock _

theorem computes_loopEnds (f : List String → List String) :
    Computes ctx T F [] P (modify fun s => { s with loopEnds := f s.loopEnds }) fun _ _ => True :=
  Computes.modify fun s => ⟨rfl, { Adds.refl s with }, rfl, rfl⟩

theorem computes_test (h : ∀ A, P A → A.Covers ctx T condition.reads)
    (hF : Tolerates ctx T F [condition]) :
    Computes ctx T (Excusing F) condition.texts P (do perform (toBoolean (← expr condition)))
      fun A flag => ¬ A.Confined flag :=
  (computes_known condition h hF).last fun _ => computes_toBoolean fun _ hA => hA.2

theorem Computes.sameTables {α : Type} {m : Lower α} {a : α} {s' : State} {Q : Access → α → Prop}
    {texts : List String} (h : Computes ctx s AnyError texts (fun _ => False) m Q)
    (hrun : m ctx s = .ok (a, s')) : SameTables s s' :=
  (h.code (.refl s) hrun).1.toSameTables

theorem sameTables_expr {node : Node} {v : Typed} {s' : State}
    (hrun : expr node ctx s = .ok (v, s')) : SameTables s s' :=
  (computes_known node (fun _ hA => hA.elim) (tolerates_all _)).sameTables hrun

theorem sameTables_test {flag : Value} {s' : State}
    (hrun : (do perform (toBoolean (← expr condition)) : Lower Value) ctx s = .ok (flag, s')) :
    SameTables s s' :=
  (computes_test (fun _ hA => hA.elim) (tolerates_all _)).sameTables hrun

theorem computes_openThen (h : ∀ A, P A → A.Covers ctx T condition.reads)
    (hF : Tolerates ctx T F [condition]) :
    Computes ctx T (Excusing F) condition.texts P (openThen (expr condition)) fun _ _ => True := by
  refine (computes_known condition h hF).last fun v => ?_
  refine (computes_toBoolean fun _ hA => hA.2).bind fun flag => ?_
  refine (computes_freshLabel _).seq fun thenLabel => (computes_freshLabel _).seq fun elseLabel => ?_
  refine (computes_freshLabel _).seq fun mergeLabel => ?_
  refine (writes_terminate rfl fun A hA => by simpa [Instr.operands] using hA.2).lifted.seq
    fun _ => ?_
  exact (computes_openBlock _).seq fun _ => Computes.pure fun _ _ => trivial

theorem sameTables_openThen {labels : String × String} {s' : State}
    (hrun : openThen (expr condition) ctx s = .ok (labels, s')) : SameTables s s' :=
  (computes_openThen (fun _ hA => hA.elim) (tolerates_all _)).sameTables hrun

theorem computes_goTo {label next : String} :
    Computes ctx T F [] P (do fallThrough label; openBlock next) fun _ _ => True :=
  (computes_fallThrough _).seq fun _ => computes_openBlock _

theorem computes_openLoop (h : ∀ A, P A → A.Covers ctx T condition.reads)
    (hF : Tolerates ctx T F [condition]) :
    Computes ctx T (Excusing F) condition.texts P (openLoop (expr condition)) fun _ _ => True := by
  refine (computes_freshLabel _).seq fun condLabel => (computes_freshLabel _).seq fun bodyLabel => ?_
  refine (computes_freshLabel _).seq fun endLabel => (writes_br _).lifted.seq fun _ => ?_
  refine (computes_openBlock _).seq fun _ => (computes_known condition h hF).last fun v => ?_
  refine (computes_toBoolean fun _ hA => hA.2).bind fun flag => ?_
  refine (writes_terminate rfl fun A hA => by simpa [Instr.operands] using hA.2).lifted.seq
    fun _ => ?_
  refine (computes_openBlock _).seq fun _ => (computes_loopEnds (endLabel :: ·)).seq fun _ => ?_
  exact Computes.pure fun _ _ => trivial

theorem sameTables_openLoop {labels : String × String} {s' : State}
    (hrun : openLoop (expr condition) ctx s = .ok (labels, s')) : SameTables s s' :=
  (computes_openLoop (fun _ hA => hA.elim) (tolerates_all _)).sameTables hrun

theorem computes_closeLoop {labels : String × String} :
    Computes ctx T F [] P (closeLoop labels) fun _ _ => True :=
  (computes_loopEnds List.tail).seq fun _ => computes_goTo

/-! ## Statements -/

theorem computes_leaveWith {value : Option Typed} (h : ∀ A, P A → ∀ v, value = some v → A.Knows v) :
    Computes ctx T F [] P (leaveWith value) fun _ _ => True := by
  have hend : ∀ {P : Access → Prop} {i : Instr}, i.isTerminator = true →
      (∀ A, P A → ∀ v ∈ i.operands, ¬ A.Confined v) →
      Computes ctx T F [] P (do Emit.push i; openDeadBlock) fun _ _ => True :=
    fun hi hloose => (writes_terminate hi hloose).lifted.seq fun _ => computes_openDeadBlock
  unfold leaveWith
  refine Computes.get_bind fun s _ => ?_
  dsimp only
  split
  case h_1 =>
    split
    case h_1 v =>
      refine (writes_byValue fun A hP => h A hP v rfl).lifted.bind fun w => ?_
      refine (writes_pack fun A hA => hA.2).lifted.bind fun word => hend rfl fun A hA => ?_
      simpa [Instr.operands] using not_confined_of_ty (by rw [hA.2]; decide)
    case h_2 => exact hend rfl fun _ _ => by simpa [Instr.operands] using not_confined_of_reg? rfl
  case h_2 =>
    refine Computes.read_bind ?_
    split
    case isTrue => exact hend rfl (by simp [Instr.operands])
    case isFalse => exact hend rfl (by simp [Instr.operands])

theorem computes_leave {value : Option Node}
    (h : ∀ A, P A → A.Covers ctx T (Node.readsOption value))
    (hF : Tolerates ctx T F value.toList) :
    Computes ctx T (Excusing F) (Node.textsOption value) P (leave (value.map expr)) fun _ _ => True := by
  unfold leave
  cases value with
  | none =>
    refine Computes.bind (Q := fun _ v => v = none) (Computes.pure fun _ _ => rfl) fun v => ?_
    exact computes_leaveWith fun A hA w hw => by simp [hA.2] at hw
  | some node =>
    have hvalue : Computes ctx T (Excusing F) node.texts P (some <$> expr node)
        fun A v => ∀ w, v = some w → A.Knows w :=
      Computes.map ((computes_known node h hF).mono (fun _ hA => hA)
        fun A w _ hw w' heq => Option.some.inj heq ▸ hw)
    exact hvalue.last fun v => computes_leaveWith fun _ hA => hA.2

theorem computes_leaveLoop : Computes ctx T (Excusing F) [] P leaveLoop fun _ _ => True := by
  refine Computes.get_bind fun s _ => ?_
  split
  case h_1 => exact (writes_br _).lifted.seq fun _ => computes_openDeadBlock
  case h_2 => exact Computes.diagnose rfl

theorem computes_discard {node : Node} (h : ∀ A, P A → A.Covers ctx T node.reads)
    (hF : Tolerates ctx T F [node]) :
    Computes ctx T (Excusing F) node.texts P (discard (expr node)) fun _ _ => True :=
  Computes.map (computes_known node h hF).anyway

theorem performs_conditional {thenBlock elseBlock : Lower Unit} {inThen inElse : List String}
    (h : condition.reads.all (D.mayRead bound) = true)
    (hthen : Performs ctx scope D noted P bound inThen thenBlock)
    (helse : Performs ctx scope D noted' P (bound ++ inThen) inElse elseBlock) :
    Performs ctx scope D (noted ++ noted') P bound (inThen ++ inElse)
      (conditional (expr condition) thenBlock elseBlock) := by
  rw [conditional_eq]
  refine Performs.after (fun _ hready => computes_openThen (fun _ hA =>
    hA.1.covers hready (List.all_eq_true.mp h)) (tolerates_all _)) fun labels s => (hthen s).seq ?_
  refine Performs.after (fun _ _ => computes_goTo) fun _ => helse.before ?_
  exact Performs.last fun _ _ => computes_goTo

theorem performs_loopWhile {body : Lower Unit} (h : condition.reads.all (D.mayRead bound) = true)
    (hbody : Performs ctx scope D noted P bound new body) :
    Performs ctx scope D noted P bound new (loopWhile (expr condition) body) := by
  rw [loopWhile_eq]
  refine Performs.after (fun _ hready => computes_openLoop (fun _ hA =>
    hA.1.covers hready (List.all_eq_true.mp h)) (tolerates_all _)) fun labels => hbody.before ?_
  exact Performs.last fun _ _ => computes_closeLoop

/-- A function is noted, and nothing is compiled yet. -/
theorem performs_defineFunction {name : String} {params : List String} {body : List Node} :
    Performs ctx scope D [{ name, symbol := ctx.naming.functionSymbol name, params, body }] P bound
      [] (defineFunction name params body) := by
  intro s s' hrun hready
  unfold defineFunction at hrun
  rw [run_get] at hrun
  cases hscope : s.scope with
  | function =>
    rw [hscope] at hrun
    have hfails : (Except.error _ : Except Error (Unit × State)) = .ok ((), s') := hrun
    simp at hfails
  | topLevel =>
    rw [hscope] at hrun
    dsimp only at hrun
    rw [run_read] at hrun
    generalize ({ name, symbol := ctx.naming.functionSymbol name, params, body } : Routine) = r at *
    obtain rfl : s.addRoutine r = s' := congrArg Prod.snd (Except.ok.inj hrun)
    rw [addRoutine_eq]
    refine ⟨[], ?_, ?_, fun _ => singly_nil, fun A _ _ _ _ _ => ⟨.refl _, by simp⟩⟩
    · exact { (Quiet.refl ctx s).makes with
        functions := rfl
        settled := fun hfun => by simp [hscope] at hfun }
    · rw [List.append_nil]
      exact { hready with }

theorem performs_defineStruct {name : String} {fields : List String} :
    Performs ctx scope D [] P bound [] (defineStruct name fields) := by
  intro s s' hrun hready
  obtain rfl : { s with structs := Table.set s.structs name fields } = s' :=
    congrArg Prod.snd (Except.ok.inj hrun)
  refine ⟨[], { (Quiet.refl ctx s).makes with }, ?_, fun _ => singly_nil,
    fun A _ _ _ _ _ => ⟨.refl _, by simp⟩⟩
  rw [List.append_nil]
  exact { hready with }

theorem computes_assignElement {target index value : Node}
    (h : ∀ A, P A → A.Covers ctx T (Node.indexedAssignment target index value).reads)
    (hF : Tolerates ctx T F [target, index, value]) :
    Computes ctx T (Excusing F) (Node.indexedAssignment target index value).texts P
      (assignElement (expr target) (expr index) (expr value)) fun _ _ => True := by
  have htarget : ∀ A, P A → A.Covers ctx T target.reads := fun A hA => (h A hA).mono (by
    simp [Node.reads])
  have hindex : ∀ A, P A → A.Covers ctx T index.reads := fun A hA => (h A hA).mono (by
    simp [Node.reads])
  have hvalue : ∀ A, P A → A.Covers ctx T value.reads := fun A hA => (h A hA).mono (by
    simp [Node.reads])
  have hrest : ∀ {P' : Access → Prop} (list : Typed),
      (∀ A, P' A → P A ∧ ¬ A.Confined list.value) → Computes ctx T (Excusing F) (index.texts ++ value.texts) P' (do
        let position ← toPosition (← expr index)
        let scalar ← toScalar (← expr value)
        Emit.callVoid Catalog.listSet [list.value, position, scalar]) fun _ _ => True := by
    intro P' list hP'
    refine (computes_known index (fun A hA => hindex A (hP' A hA).1) (hF.sub (by simp))).bind
      fun i => ?_
    refine (writes_toPosition fun _ hA => hA.2).lifted.bind fun position => ?_
    refine (computes_known value (fun A hA => hvalue A (hP' A hA.1.1).1) (hF.sub (by simp))).last
      fun v => ?_
    refine (writes_toScalar fun _ hA => hA.2).lifted.bind fun scalar => ?_
    refine (writes_callVoidPlain (by decide) fun A hA => ?_).lifted
    simpa using ⟨(hP' A hA.1.1.1.1).2, hA.1.1.2, hA.2⟩
  unfold assignElement
  rw [Node.texts]
  refine (computes_known target htarget (hF.sub (by simp))).bind fun list => ?_
  dsimp only
  split
  case h_1 hk | h_2 hk =>
    refine (computes_coerce (by simp) (fun _ hA => hA.2) (by simp [hk])).bind fun list => ?_
    exact hrest list fun _ hA => ⟨hA.1.1, hA.2.2.loose⟩
  case h_3 => exact Computes.diagnose_bind rfl

theorem performs_discard {node : Node} (h : node.reads.all (D.mayRead bound) = true) :
    Performs ctx scope D [] P bound [] (discard (expr node)) :=
  fun _ => PerformsAt.of_computes fun hready => computes_discard (fun _ hA =>
    hA.1.covers hready (List.all_eq_true.mp h)) (tolerates_all _)

/-- The record that a bare name stands for may be shared if the rules say so. -/
theorem Gives.lends {A : Access} {target : String} {node : Node} {v : Typed}
    (hv : A.Gives s node.bare? v) (hcovers : A.Covers ctx s node.reads) (hsuits : A.Suits ctx D s)
    (hready : Ready scope bound s) (hshare : node.bare?.all (D.mayShare bound target) = true) :
    A.Lends target v := by
  intro ht
  obtain ⟨name, b, hbare, hfind, htracked, hreads⟩ := hv.record ht
  have hmay : D.mayShare bound target name = true := by simpa [hbare] using hshare
  refine ⟨_, _, hcovers.cell name (Node.mem_reads_of_bare hbare) b hfind, htracked, hreads, ?_⟩
  refine hsuits.lends bound target name b.slot hmay (fun hmem => ?_) fun hname => ?_
  · obtain ⟨b', hb'⟩ := (hready.bound name).mp hmem
    obtain rfl : b' = b := Option.some.inj ((find?_of_own hb').symm.trans hfind)
    exact ⟨_, hsuits.own name b' hb'⟩
  · -- A name that is not assigned further up is that of a variable at top level.
    rcases own_of_find? hfind with hown | ⟨-, hscope, hglobal, hmodule⟩
    · exact absurd ((hready.bound name).mpr ⟨b, hown⟩) hname
    · exact ⟨b, hsuits.outer hscope name b hglobal hmodule, rfl⟩

mutual

/-- The code of a statement that keeps the rules keeps to every access that suits them. -/
theorem performs_stmt : (node : Node) → ∀ bound, D.keeps bound node = true →
    Performs ctx scope D (definitions ctx.naming node) P bound (assigned node) (stmt node)
  | .assignment name value, bound, h => by
    simp only [Rules.keeps, Bool.and_eq_true, Bool.or_eq_true, decide_eq_true_eq] at h
    rw [stmt]
    intro s
    -- What is known of the value depends on the state, so it is put in terms of the access.
    have hvalue : Ready scope bound s → Computes ctx s AnyError value.texts
        (fun A => A.Suits ctx D s ∧ P A) (expr value) fun A v => A.Knows v ∧ (name ∉ bound → A.Lends name v) := by
      intro hready
      have hcovers : ∀ A, (A.Suits ctx D s ∧ P A) → A.Covers ctx s value.reads :=
        fun A hA => hA.1.covers hready (List.all_eq_true.mp h.1)
      refine (computes_expr value hcovers (tolerates_all _)).mono (fun _ hA => hA) fun A v hA hv => ?_
      refine ⟨hv.knows (hcovers A hA), fun hname ht => ?_⟩
      have hshare := h.2.resolve_left hname
      exact hv.lends (hcovers A hA) hA.1 hready hshare ht
    refine Computes.performs_bind hvalue fun v s₁ _ => ?_
    exact performs_assign (fun A hA => hA.2.1) (fun hname A hA => hA.2.2 hname) s₁
  | .conditional condition thenBlock elseBlock, bound, h => by
    simp only [Rules.keeps, Bool.and_eq_true] at h
    rw [stmt, assigned, definitions]
    exact performs_conditional h.1.1 (performs_block thenBlock bound h.1.2)
      (performs_block elseBlock _ h.2)
  | .loop condition body, bound, h => by
    simp only [Rules.keeps, Bool.and_eq_true] at h
    rw [stmt, assigned, definitions]
    exact performs_loopWhile h.1 (performs_block body bound h.2)
  | .functionDef name params body, bound, _ => by
    rw [stmt]
    exact performs_defineFunction
  | .structDef name fields, bound, _ => by
    rw [stmt]
    exact performs_defineStruct
  | .indexedAssignment target index value, bound, h => by
    rw [stmt]
    exact fun _ => PerformsAt.of_computes fun hready => computes_assignElement (fun _ hA =>
      hA.1.covers hready (List.all_eq_true.mp h)) (tolerates_all _)
  | .ret value, bound, h => by
    rw [stmt]
    exact fun _ => PerformsAt.of_computes fun hready => computes_leave (fun _ hA =>
      hA.1.covers hready (List.all_eq_true.mp h)) (tolerates_all _)
  | .breakLoop, bound, _ => by
    rw [stmt]
    exact Performs.last fun _ _ => computes_leaveLoop
  | .importModule _, bound, _ => by
    rw [stmt]
    exact Performs.last fun _ _ => Computes.pure fun _ _ => trivial
  | .literal value, bound, h => performs_discard h
  | .identifier name, bound, h => performs_discard h
  | .binary .., bound, h | .unary .., bound, h | .listLiteral _, bound, h
  | .index .., bound, h | .memberAccess .., bound, h | .structLiteral .., bound, h
  | .interrogative .., bound, h | .relation .., bound, h => performs_discard h

theorem performs_block : (nodes : List Node) → ∀ bound, D.keepsAll bound nodes = true →
    Performs ctx scope D (definitionsAll ctx.naming nodes) P bound (assignedAll nodes) (block nodes)
  | [], bound, _ => by
    rw [block]
    exact Performs.last fun _ _ => Computes.pure fun _ _ => trivial
  | node :: rest, bound, h => by
    simp only [Rules.keepsAll, Bool.and_eq_true] at h
    rw [block, assignedAll, definitionsAll]
    exact fun s => (performs_stmt node bound h.1 s).seq (performs_block rest _ h.2)

end

end

end Access

end ScriptCompiler.Lowering
