import ScriptCompiler.Proofs.Access.Unit
import ScriptCompiler.Proofs.Paths.Forward

/-!
# Where a function looks a name up

A function reads a name from outside, from top level or from another object, where the name is not
assigned further up in the text. Whether it is can be told from the text (`Rules.assignedFirst`), and
code whose text keeps these rules does not read the name from outside (`Local.inside`): it keeps to an
access in which the name stands for a slot of the frame only (`Access.inside`). Nor does the code that
makes the variable when it is assigned for the first time (`Local.assign_inside`).

A loop comes back to text that it has passed. So what matters is whether a loop that assigns the name
reads it further up from outside (`readsAhead`).
-/

namespace ScriptCompiler.Lowering

open Ir List
open Numeric (assigned assignedAll)

/-! ## Texts -/

/-- The rules by which `x` is read only where it is assigned further up. -/
def Rules.assignedFirst (x : String) : Rules where
  mayRead bound name := name ≠ x || name ∈ bound
  mayShare _ _ _ := true
  mayRepeat := true

/-- The rules by which besides only some names are read. -/
def Rules.among (D : Rules) (names : List String) : Rules :=
  { D with mayRead := fun bound name => D.mayRead bound name && decide (name ∈ names) }

mutual

/-- A loop in which the name is assigned for the first time reads it further up in its text. -/
def readsAhead (x : String) : Node → Bool
  | .conditional _ thenBlock elseBlock =>
    readsAheadAll x thenBlock || (x ∉ assignedAll thenBlock && readsAheadAll x elseBlock)
  | .loop condition body =>
    x ∈ assignedAll body && !(Rules.assignedFirst x).keeps [] (.loop condition body)
  | _ => false

/-- A loop among several statements does. -/
def readsAheadAll (x : String) : List Node → Bool
  | [] => false
  | node :: rest => readsAhead x node || (x ∉ assigned node && readsAheadAll x rest)

end

section

variable {x : String} {names bound bound' : List String}

theorem mayRead_among (hbound : x ∈ bound → x ∈ bound') {reads : List String}
    (hreads : reads ⊆ names)
    (h : x ∉ bound' → reads.all ((Rules.assignedFirst x).mayRead bound) = true) :
    reads.all (((Rules.assignedFirst x).among names).mayRead bound') = true := by
  refine all_eq_true.mpr fun name hname => ?_
  simp only [Rules.among, Rules.assignedFirst, hreads hname, decide_true, Bool.and_true,
    Bool.or_eq_true, decide_eq_true_eq]
  by_cases hx : x ∈ bound'
  · by_cases heq : name = x
    · exact .inr (heq ▸ hx)
    · exact .inl heq
  · have hmay := all_eq_true.mp (h hx) name hname
    simp only [Rules.assignedFirst, Bool.or_eq_true, decide_eq_true_eq] at hmay
    exact .inl (hmay.elim id fun hmem heq => hx (hbound (heq ▸ hmem)))

mutual

/-- Where the name is assigned further up it may be read, and elsewhere the rules do not depend on
which other names are assigned further up. -/
theorem keeps_among : (node : Node) → ∀ bound bound', (x ∈ bound → x ∈ bound') →
    node.reads ⊆ names → (x ∉ bound' → (Rules.assignedFirst x).keeps bound node = true) →
    ((Rules.assignedFirst x).among names).keeps bound' node = true
  | .assignment name value, bound, bound', hbound, hreads, h => by
    have hshare : value.bare?.all (((Rules.assignedFirst x).among names).mayShare bound' name) =
        true := by
      cases value.bare? <;> rfl
    rw [Rules.keeps, hshare, Bool.or_true, Bool.and_true]
    refine mayRead_among hbound hreads fun hx => ?_
    exact (Bool.and_eq_true_iff.mp (h hx)).1
  | .conditional condition thenBlock elseBlock, bound, bound', hbound, hreads, h => by
    simp only [Node.reads, append_subset] at hreads
    simp only [Rules.keeps, Bool.and_eq_true] at h ⊢
    have hbound₁ : x ∈ bound ++ assignedAll thenBlock → x ∈ bound' ++ assignedAll thenBlock := by
      simpa only [mem_append] using Or.imp_left hbound
    refine ⟨⟨mayRead_among hbound hreads.1.1 fun hx => (h hx).1.1,
      keepsAll_among thenBlock _ _ hbound hreads.1.2 fun hx => (h hx).1.2⟩,
      keepsAll_among elseBlock _ _ hbound₁ hreads.2 fun hx => (h fun hmem => hx ?_).2⟩
    exact mem_append_left _ hmem
  | .loop condition body, bound, bound', hbound, hreads, h => by
    simp only [Node.reads, append_subset] at hreads
    simp only [Rules.keeps, Bool.and_eq_true] at h ⊢
    exact ⟨mayRead_among hbound hreads.1 fun hx => (h hx).1,
      keepsAll_among body _ _ hbound hreads.2 fun hx => (h hx).2⟩
  | .functionDef .., _, _, _, _, _ => rfl
  | .structDef .., _, _, hbound, hreads, h | .indexedAssignment .., _, _, hbound, hreads, h
  | .ret _, _, _, hbound, hreads, h | .breakLoop, _, _, hbound, hreads, h
  | .importModule _, _, _, hbound, hreads, h | .literal _, _, _, hbound, hreads, h
  | .identifier _, _, _, hbound, hreads, h | .binary .., _, _, hbound, hreads, h
  | .unary .., _, _, hbound, hreads, h | .listLiteral _, _, _, hbound, hreads, h
  | .index .., _, _, hbound, hreads, h | .memberAccess .., _, _, hbound, hreads, h
  | .structLiteral .., _, _, hbound, hreads, h | .interrogative .., _, _, hbound, hreads, h
  | .relation .., _, _, hbound, hreads, h => mayRead_among hbound hreads h

theorem keepsAll_among : (nodes : List Node) → ∀ bound bound', (x ∈ bound → x ∈ bound') →
    Node.readsAll nodes ⊆ names →
    (x ∉ bound' → (Rules.assignedFirst x).keepsAll bound nodes = true) →
    ((Rules.assignedFirst x).among names).keepsAll bound' nodes = true
  | [], _, _, _, _, _ => rfl
  | node :: rest, bound, bound', hbound, hreads, h => by
    simp only [Node.readsAll, append_subset] at hreads
    simp only [Rules.keepsAll, Bool.and_eq_true] at h ⊢
    have hbound₁ : x ∈ bound ++ assigned node → x ∈ bound' ++ assigned node := by
      simpa only [mem_append] using Or.imp_left hbound
    refine ⟨keeps_among node _ _ hbound hreads.1 fun hx => (h hx).1,
      keepsAll_among rest _ _ hbound₁ hreads.2 fun hx => (h fun hmem => hx ?_).2⟩
    exact mem_append_left _ hmem

end

end

/-! ## Reads from outside -/

/-- A symbol under which a function reads `x` from outside: that of the slot at top level, or that of
a word of another object. The word of a member of a module that is one of `names` is something
else. -/
def IsOutside (naming : Naming) (names : List String) (x symbol : String) : Prop :=
  (symbol = naming.globalSymbol x ∨ symbol = x) ∧
    ∀ module ∈ names, ∀ member, symbol ≠ memberSymbol module member

/-- An instruction reads `x` from outside. -/
def ReadsOutside (naming : Naming) (names : List String) (x : String) (i : Instr) : Prop :=
  ∃ dst ty symbol, i = .load dst ty (.global symbol) ∧ IsOutside naming names x symbol

theorem dot_mem_globalSymbol (naming : Naming) (name : String) :
    '.' ∈ (naming.globalSymbol name).toList := by
  unfold Naming.globalSymbol
  split
  · simp
  · split <;> simp

theorem ne_globalSymbol_of_dotless {symbol : String} (h : Dotless symbol) (naming : Naming)
    (name : String) : symbol ≠ naming.globalSymbol name :=
  fun heq => h (heq ▸ dot_mem_globalSymbol naming name)

namespace Access

/-- The access of code in which variables are in the frame, and `x` is not read from outside. -/
def inside (naming : Naming) (names : List String) (x : String) (code : List Instr) : Access where
  scope := .function
  own _ _ slot := ∃ r, slot = .reg r .ptr
  outer name b := b.slot = .global (naming.globalSymbol name)
  free name := name ≠ x
  external symbol := ¬ IsOutside naming names x symbol
  publishes _ := True
  lends _ _ := True
  notes := True
  confines := False
  code := code

/-- A state in a function in which the names `bound` are variables, which are in the frame. -/
structure Local (naming : Naming) (bound : List String) (s : State) : Prop
    extends Ready .function bound s where
  slots : ∀ name b, s.own.lookup name = some b → ∃ r, b.slot = .reg r .ptr
  outside : Outside naming s.globals

section

variable {A : Access} {ctx : Context} {D : Rules} {noted : List Routine} {P : Access → Prop}
  {bound new names : List String} {x : String} {code : List Instr} {m : Lower Unit}
  {s s' : State} {made : List (String × Binding)} {b b' : Builder} {i j : Instr}

theorem not_readsOutside_of_prepares (h : A.Prepares i) :
    ¬ ReadsOutside ctx.naming names x i := by
  rintro ⟨dst, ty, symbol, rfl, -⟩
  cases h

theorem not_readsOutside_of_allows (hx : Dotless x) {above : List Instr}
    (h : (inside ctx.naming names x code).Allows above i) :
    ¬ ReadsOutside ctx.naming names x i := by
  rintro ⟨dst, ty, symbol, rfl, houtside⟩
  generalize hptr : Value.global symbol = ptr at h
  generalize hi : Instr.load dst ty ptr = i at h
  cases h with
  | compute h => simp [← hi, Instr.isComputation] at h
  | terminate h => simp [← hi, Instr.isTerminator] at h
  | load cell =>
    obtain ⟨-, -, rfl⟩ := Instr.load.inj hi
    cases cell with
    | own h =>
      obtain ⟨r, rfl⟩ := h
      simp [Value.global, Value.reg] at hptr
    | @outer name b h free =>
      have hslot : b.slot = .global (ctx.naming.globalSymbol name) := h
      obtain rfl : symbol = ctx.naming.globalSymbol name := by
        simpa [hslot, Value.global] using hptr
      rcases houtside.1 with heq | heq
      · exact free (globalSymbol_injective _ heq)
      · exact ne_globalSymbol_of_dotless hx _ _ heq.symm
  | loadExternal dst h =>
    obtain ⟨-, -, rfl⟩ := Instr.load.inj hi
    obtain rfl : symbol = _ := by simpa [Value.global] using hptr
    exact h houtside
  | loadField =>
    obtain ⟨-, -, rfl⟩ := Instr.load.inj hi
    simp [Value.global, Value.reg] at hptr
  | loadTop top => simp [inside] at top
  | compareNull | storeField | storePlain | storeBox | storeTop | fill | update | ask | words
  | call => simp at hi

theorem Local.suits (h : Local ctx.naming bound s) (hnames : ∀ name ∈ names, Dotless name) :
    (inside ctx.naming names x code).Suits ctx ((Rules.assignedFirst x).among names) s := by
  refine ⟨⟨h.scope.symm, ?_, fun hfalse => hfalse.elim, fun _ => trivial⟩, h.slots,
    fun _ name b hb hmodule => (h.outside name b hb).2 hmodule, fun bound' name hmay hname => ?_,
    fun bound' module hmay member => ?_, fun _ => trivial, fun _ _ _ _ _ _ _ => trivial⟩
  · rintro name storage symbol ⟨r, hslot⟩
    simp [Value.global, Value.reg] at hslot
  · simp only [Rules.among, Rules.assignedFirst, Bool.and_eq_true, Bool.or_eq_true,
      decide_eq_true_eq] at hmay
    have hne : name ≠ x := hmay.1.resolve_right hname
    exact ⟨hne, fun houtside =>
      houtside.1.elim (ne_globalSymbol_of_dotless (hnames name hmay.2) _ _) hne⟩
  · simp only [Rules.among, Bool.and_eq_true, decide_eq_true_eq] at hmay
    exact fun houtside => houtside.2 module hmay.2 member rfl

/-- What a step makes of a state in a function. -/
theorem Local.makes (h : Local ctx.naming bound s) (hmakes : Makes ctx noted s s' made)
    (hready : Ready .function (bound ++ new) s') : Local ctx.naming (bound ++ new) s' where
  toReady := hready
  slots := fun name b hb => by
    obtain ⟨b₀, hfrom, -, hslot⟩ := hmakes.own name b hb
    rcases hfrom with hold | hmem
    · obtain ⟨r, hr⟩ := h.slots name b₀ hold
      exact ⟨r, hslot.trans hr⟩
    · rcases hmakes.slot hmem with ⟨r, hr⟩ | ⟨htop, -⟩
      · exact ⟨r, hslot.trans hr⟩
      · simp [h.scope] at htop
  outside := by
    rw [hmakes.globals h.scope]
    exact h.outside

theorem Local.performs (h : Local ctx.naming bound s)
    (hm : PerformsAt ctx .function D noted P bound new m s) (hrun : m ctx s = .ok ((), s')) :
    ∃ made, Makes ctx noted s s' made ∧ Local ctx.naming (bound ++ new) s' := by
  obtain ⟨made, hmakes, hready, -⟩ := hm s' hrun h.toReady
  exact ⟨made, hmakes, h.makes hmakes hready⟩

theorem Local.same (h : Local ctx.naming bound s) (hsame : SameTables s s') :
    Local ctx.naming bound s' where
  toReady := h.toReady.same hsame
  slots := by rw [hsame.own]; exact h.slots
  outside := by rw [hsame.globals]; exact h.outside

/-! ## Code that is added -/

theorem mem_push (h : i ∈ (b.push j).func.instrs) : i ∈ b.func.instrs ∨ i = j := by
  obtain ⟨block, hblock, hi⟩ := mem_flatMap.mp h
  rcases mem_modify hblock with hblock | ⟨old, hold, rfl⟩
  · exact .inl (mem_flatMap.mpr ⟨block, hblock, hi⟩)
  · rcases mem_append.mp hi with hi | hi
    · exact .inl (mem_flatMap.mpr ⟨old, hold, hi⟩)
    · exact .inr (mem_singleton.mp hi)

/-- A change to a function under construction adds code that keeps to the access. -/
theorem Edits.mem (h : A.Edits b b') (hi : i ∈ b'.func.instrs) :
    i ∈ b.func.instrs ∨ A.Prepares i ∨ ∃ above, A.Allows above i := by
  cases h with
  | push follows =>
    obtain ⟨block, hblock, hi⟩ := mem_flatMap.mp hi
    rcases mem_modify hblock with hblock | ⟨old, hold, rfl⟩
    · exact .inl (mem_flatMap.mpr ⟨block, hblock, hi⟩)
    · rcases mem_append.mp hi with hi | hi
      · exact .inl (mem_flatMap.mpr ⟨old, hold, hi⟩)
      · exact .inr (.inr ((follows []).mem hi))
  | prepare prepares =>
    obtain ⟨block, hblock, hi⟩ := mem_flatMap.mp hi
    rcases mem_modify hblock with hblock | ⟨old, hold, rfl⟩
    · exact .inl (mem_flatMap.mpr ⟨block, hblock, hi⟩)
    · rcases eq_or_mem_of_mem_insertIdx hi with rfl | hi
      · exact .inr (.inl prepares)
      · exact .inl (mem_flatMap.mpr ⟨old, hold, hi⟩)
  | openBlock opens =>
    unfold Builder.positionAtEnd at opens
    split at opens
    case h_2 => simp at opens
    case h_1 =>
      obtain rfl := Except.ok.inj opens
      exact .inl (by simpa [Builder.appendBlock, Func.instrs] using hi)
  | note func => exact .inl (by rwa [func] at hi)

theorem Enlarges.mem (h : A.Enlarges b b') (hi : i ∈ b'.func.instrs) :
    i ∈ b.func.instrs ∨ A.Prepares i ∨ ∃ above, A.Allows above i := by
  induction h with
  | refl => exact .inl hi
  | tail _ hstep ih => exact (hstep.1.mem hi).elim ih .inr

theorem Enlarges.inside (hx : Dotless x) (h : (inside ctx.naming names x code).Enlarges b b')
    (hi : i ∈ b'.func.instrs) :
    i ∈ b.func.instrs ∨ ¬ ReadsOutside ctx.naming names x i := by
  refine (h.mem hi).imp_right ?_
  rintro (hprepares | ⟨above, hallows⟩)
  · exact not_readsOutside_of_prepares hprepares
  · exact not_readsOutside_of_allows hx hallows

/-- A step in a function whose text keeps the rules. -/
theorem Local.inside (h : Local ctx.naming bound s) (hx : Dotless x)
    (hnames : ∀ name ∈ names, Dotless name)
    (hm : PerformsAt ctx .function ((Rules.assignedFirst x).among names) noted P bound new m s)
    (hP : P (inside ctx.naming names x s'.builder.func.instrs))
    (hhosts : (Access.inside ctx.naming names x s'.builder.func.instrs).Hosts s.builder)
    (hrun : m ctx s = .ok ((), s')) (hi : i ∈ s'.builder.func.instrs) :
    i ∈ s.builder.func.instrs ∨ ¬ ReadsOutside ctx.naming names x i := by
  obtain ⟨made, hmakes, -, -, henlarge⟩ := hm s' hrun h.toReady
  have hmade : (Access.inside ctx.naming names x s'.builder.func.instrs).Has made := by
    rintro ⟨name, b⟩ hmem
    refine (hmakes.slot hmem).resolve_right fun htop => ?_
    simp [h.scope] at htop
  obtain ⟨henlarges, -⟩ := henlarge _ (h.suits hnames) hP hmade (List.Subset.refl _) hhosts
  exact henlarges.inside hx hi

theorem Local.assign_inside (h : Local ctx.naming bound s) (hx : Dotless x)
    (hnames : ∀ name ∈ names, Dotless name) (hname : x ∉ bound) {v : Typed}
    (hv : v.kind.Fits v.value.ty)
    (hhosts : (Access.inside ctx.naming names x s'.builder.func.instrs).Hosts s.builder)
    (hrun : assign x v ctx s = .ok ((), s')) (hi : i ∈ s'.builder.func.instrs) :
    i ∈ s.builder.func.instrs ∨ ¬ ReadsOutside ctx.naming names x i := by
  by_cases htracked : v.kind = .tracked
  · -- The record of another variable is shared, so the slot is all that is new.
    rw [assign_eq] at hrun
    rw [run_get, h.toReady.none_of_notMem hname] at hrun
    dsimp only at hrun
    obtain ⟨⟨⟩, s₁, hcreate, hrest⟩ := run_bind hrun
    rw [if_neg (by simp [h.scope])] at hrest
    obtain rfl : { s₁ with lastBound := some x } = s' :=
      congrArg Prod.snd (Except.ok.inj hrest)
    unfold create createAs at hcreate
    rw [run_read, run_get, run_read, run_get] at hcreate
    obtain ⟨slot, s₂, hslot, hcreate⟩ := run_bind hcreate
    obtain ⟨kind, s₃, hfirst, hbind⟩ := run_bind hcreate
    obtain rfl : s₃.bind x ⟨_, kind, slot⟩ = s₁ := congrArg Prod.snd (Except.ok.inj hbind)
    rw [htracked] at hslot hfirst
    obtain ⟨⟨⟩, s₄, hstore, hkind⟩ := run_bind hfirst
    obtain rfl : { s₂ with builder := s₂.builder.push (.store v.value slot) } = s₄ :=
      congrArg Prod.snd (Except.ok.inj hstore)
    obtain rfl := congrArg Prod.snd (Except.ok.inj hkind)
    obtain ⟨-, hisSlot, -, henlarge⟩ := newSlot_spec hslot
    rw [h.scope] at hisSlot
    rw [builder_bind] at hhosts hi
    rcases mem_push hi with hi | rfl
    · have hslot : ∃ r, slot = .reg r .ptr := ⟨_, hisSlot.1⟩
      exact (henlarge (Access.inside ctx.naming names x _) (extends_push _ _).code hslot
        hhosts).1.inside hx hi
    · exact .inr fun hreads => by simp [ReadsOutside] at hreads
  · have hP : ∀ A : Access, ¬ A.confines → A.Knows v := fun A hA =>
      ⟨fun ht => absurd ht htracked, fun hk => by simpa [hk, Kind.Fits] using hv,
        fun _ hconfined => hA hconfined.1⟩
    have hm : Performs ctx .function ((Rules.assignedFirst x).among names) [] (¬ ·.confines) bound
        [x] (assign x v) :=
      performs_assign hP fun _ A _ ht => absurd ht htracked
    exact h.inside hx hnames (hm s) (fun hfalse => hfalse) hhosts hrun hi

end

end Access

end ScriptCompiler.Lowering
