import ScriptCompiler.Proofs.Access.Past
import ScriptCompiler.Proofs.Access.Unit
import ScriptCompiler.Proofs.ControlFlow

/-!
# Watching boxed variables in a run

Code that keeps to an access stores in the slot of a boxed variable only null at the head of the
function, a record that has just been made, or one that was read from another such slot. So something
that holds of new records holds of every record that is read from a boxed variable, unless one is
read to which nothing has been assigned. `Watch` is such a property of records, and
`Watch.Holds` says of the past of a run that all data have it which were read from the variables that
are watched. Every step keeps this (`Watch.Holds.does`), and so does a run
(`Watch.holds_of_arises`).
-/

namespace ScriptCompiler.Lowering

open Ir List

/-- Null as a record. -/
abbrev noRecord : Datum := .address .null

/-- Nothing but null was stored in a place. -/
def Unset (past : Past) (a : Address) : Prop := ∀ d, .stored a d ∈ past → d = noRecord

namespace Access

/-! ## Points of a run -/

/-- The records in the frame that the instructions initialize have been initialized. -/
def Filled (A : Access) (above : List Instr) (past : Past) : Prop :=
  ∀ r ty x, .alloca r ty ∈ A.code → .call none .void Catalog.boxInit [.reg r .ptr, x] ∈ above →
    ∃ y, .called none Catalog.boxInit [.address (.slot r), y] none ∈ past

/-- Nothing but null was stored. -/
def OnlyNull (past : Past) : Prop := ∀ a, Unset past a

/-- Where a run is in code that keeps to an access: at the head of the function, where it has stored
nothing but null, or behind some instructions of a block. -/
inductive Stands (A : Access) (past : Past) : List Instr → Prop where
  | head {head todo code : List Instr} (suffix : todo <:+ head) (prepares : ∀ i ∈ head, A.Prepares i)
      (follows : A.Follows head code) (onlyNull : OnlyNull past) : Stands A past (todo ++ code)
  | body {above code : List Instr} (follows : A.Follows above code) (filled : A.Filled above past) :
      Stands A past code

/-- What the next instruction is, and what is needed to go on behind it. -/
inductive Offers (A : Access) (past : Past) (i : Instr) (rest : List Instr) : Prop where
  | prepares (h : A.Prepares i) (onlyNull : OnlyNull past)
      (next : ∀ past', OnlyNull past' → A.Stands past' rest)
  | allows {above : List Instr} (h : A.Allows above i) (filled : A.Filled above past)
      (next : ∀ past', A.Filled (above ++ [i]) past' → A.Stands past' rest)

section

variable {A : Access} {f : Func} {S : Surroundings} {φ₀ φ φ' : Frame Past}
  {past past' : Past} {above code : List Instr} {i : Instr}

theorem Filled.mono (h : A.Filled above past) (hsub : past ⊆ past') : A.Filled above past' := by
  intro r ty x hreserved hcall
  obtain ⟨y, hy⟩ := h r ty x hreserved hcall
  exact ⟨y, hsub hy⟩

theorem filled_of_prepares {head : List Instr} (h : ∀ i ∈ head, A.Prepares i) :
    A.Filled head past := by
  intro r ty x _ hcall
  cases h _ hcall

theorem filled_nil : A.Filled [] past := filled_of_prepares (by simp)

theorem Stands.offers {rest : List Instr} (h : A.Stands past (i :: rest)) :
    A.Offers past i rest := by
  generalize hall : i :: rest = all at h
  have hallows : ∀ {above code}, i :: rest = code → A.Follows above code → A.Filled above past →
      A.Offers past i rest := by
    rintro above code rfl ⟨hi, hrest⟩ hfilled
    exact .allows hi hfilled fun past' hfilled' => .body hrest hfilled'
  cases h with
  | body follows filled => exact hallows hall follows filled
  | @head head todo code suffix prepares follows onlyNull =>
    cases todo with
    | nil => exact hallows hall follows (filled_of_prepares prepares)
    | cons j todo =>
      obtain ⟨rfl, rfl⟩ := List.cons.inj hall
      have hmem : i ∈ head := suffix.subset mem_cons_self
      refine .prepares (prepares i hmem) onlyNull fun past' hnull => ?_
      exact .head ((suffix_cons i todo).trans suffix) prepares follows hnull

/-- What has been initialized after an instruction. -/
theorem Filled.does (hfilled : A.Filled above φ.world) (hcode : A.code = f.instrs)
    (hφ : φ.Derived f) (h : Does S φ i φ') : A.Filled (above ++ [i]) φ'.world := by
  intro r ty x hreserved hcall
  rcases mem_append.mp hcall with hcall | hcall
  · exact hfilled.mono h.past.subset r ty x hreserved hcall
  · obtain rfl := mem_singleton.mp hcall
    cases h with
    | compute h => simp [Instr.isComputation] at h
    | @callVoid args xs memory ret callee data spares =>
      simp only [mapM_cons, mapM_nil, Option.bind_eq_bind, Option.bind_eq_some_iff,
        Option.pure_def, Option.some.injEq] at data
      obtain ⟨d, hd, ys, ⟨y, -, zs, rfl, rfl⟩, rfl⟩ := data
      obtain rfl := hφ.slot (hcode ▸ hreserved) hd
      exact ⟨y, mem_cons_self⟩

/-- At the head of a function nothing but null is stored. -/
theorem Prepares.onlyNull (hi : A.Prepares i) (honly : OnlyNull φ.world)
    (h : Does S φ i φ') : OnlyNull φ'.world := by
  cases hi with
  | alloca dst ty =>
    cases h with
    | alloca => exact honly
    | compute h => simp [Instr.isComputation] at h
  | null own tracked =>
    cases h with
    | compute h => simp [Instr.isComputation] at h
    | @store value ptr a d datum place =>
      intro a' d' hmem
      rcases mem_cons.mp hmem with heq | hmem
      · exact (Event.stored.inj heq).2.trans (Option.some.inj datum).symm
      · exact honly a' d' hmem

theorem Offers.does {rest : List Instr} (h : A.Offers φ.world i rest) (hcode : A.code = f.instrs)
    (hφ : φ.Derived f) (hdoes : Does S φ i φ') : A.Stands φ'.world rest := by
  cases h with
  | prepares hi honly next => exact next _ (hi.onlyNull honly hdoes)
  | allows hi filled next => exact next _ (filled.does hcode hφ hdoes)

theorem Keeps.stands {naming : Naming} (hA : A.Keeps naming f) (hf : f.Linear)
    (hbegin : φ₀.Begins f) {c : Point} (h : Arises S f φ₀ c) :
    A.Stands c.frame.world c.code := by
  -- A jump leads to the beginning of a block that is not the first.
  have hblock : ∀ {past i l b}, i ∈ f.instrs → l ∈ i.successors → f.block? l = some b →
      A.Stands past b.instrs := fun hi hl hb =>
    .body (hA.rest _ (hf.once _ hi _ hl _ hb)) filled_nil
  induction h with
  | refl =>
    unfold Func.start
    split
    · exact .body trivial filled_nil
    · rename_i first rest hblocks
      obtain ⟨-, head, code, hcode, -, hprepares, hfollows⟩ := hA.first first (by rw [hblocks]; rfl)
      show A.Stands φ₀.world first.instrs
      rw [hcode]
      exact .head (suffix_refl head) hprepares hfollows
        (by simp [OnlyNull, Unset, hbegin.past])
  | tail hpath hstep ih =>
    cases hstep with
    | exec label rest hdoes => exact ih.offers.does hA.code (Arises.derived hf hbegin hpath) hdoes
    | br φ rest h => exact hblock (Arises.mem hpath) mem_cons_self h
    | @condBr label cond n yes no b φ rest word h =>
      refine hblock (l := if n ≠ 0 then yes else no) (Arises.mem hpath) ?_ h
      split <;> simp [Instr.successors]

/-- Where there is nothing in memory, nothing but null was stored: stack slots are reserved at the head
of a function. -/
theorem Keeps.onlyNull_of_none {naming : Naming} (hA : A.Keeps naming f) (hf : f.Linear)
    (hbegin : φ₀.Begins f) {a : Address} (ha : a.IsKept S) {c : Point}
    (h : Arises S f φ₀ c) :
    c.frame.memory a = none → Unset c.frame.world a := by
  induction h with
  | refl =>
    intro _ d hd
    rw [Func.frame_start, hbegin.past] at hd
    simp at hd
  | @tail c' _ hpath hstep ih =>
    cases hstep with
    | br | condBr => exact ih
    | @exec φ _ i label rest hdoes =>
      have hoffers := (hA.stands hf hbegin hpath).offers
      intro hnone d hd
      cases hdoes with
      | alloca dst ty =>
        cases hoffers with
        | prepares _ honly => exact honly a d hd
        | allows hi =>
          cases hi with
          | compute h => simp [Instr.isComputation] at h
          | terminate h => simp [Instr.isTerminator] at h
      | compute => exact ih hnone d hd
      | load | loadAny => exact ih hnone d ((mem_cons.mp hd).resolve_left (by simp))
      | callVoid ret callee data spares | call dst ret callee data spares =>
        refine ih ((spares.memory_eq ha).symm.trans hnone) d ?_
        exact (mem_cons.mp hd).resolve_left (by simp)
      | @store value ptr a' d' datum place =>
        by_cases hplace : a = a'
        · subst hplace
          have hsome : some d' = none := Frame.memory_write.symm.trans hnone
          simp at hsome
        · have hold : φ.memory a = none := (Frame.memory_write_of_ne hplace).symm.trans hnone
          refine ih hold d ((mem_cons.mp hd).resolve_left fun heq => hplace ?_)
          exact (Event.stored.inj heq).1

theorem Keeps.home_of_own {naming : Naming} (hA : A.Keeps naming f) {name : String}
    {storage : StorageClass} {slot : Value} (hown : A.own name storage slot) :
    ∃ a, f.Home slot a := by
  rcases hA.slots _ _ _ hown with ⟨r, rfl, hreserved⟩ | ⟨-, rfl⟩
  · exact ⟨_, .slot hreserved⟩
  · exact ⟨_, .global _⟩

theorem Keeps.heap_of_field {naming : Naming} (hA : A.Keeps naming f) (hφ : φ.Derived f) {r : Reg}
    {element : Ty} {base index : Value} {a : Address} (field : .gep r element base index ∈ A.code)
    (ha : φ.place (.reg r .ptr) = some a) : ∃ n, a = .heap n := by
  obtain ⟨e, he, he'⟩ := Option.bind_eq_some_iff.mp ha
  exact (hφ.field (hA.code ▸ field) he).place he'

/-- What is stored goes to a stack slot or a global that the code names, or to memory that was handed
out. -/
theorem Keeps.home_of_store {naming : Naming} (hA : A.Keeps naming f) (hφ : φ.Derived f)
    {value ptr : Value} {a : Address} (hi : .store value ptr ∈ f.instrs)
    (ha : φ.place ptr = some a) : f.Home ptr a ∨ ∃ n, a = .heap n := by
  have hhome : (∃ a', f.Home ptr a') → f.Home ptr a := fun ⟨a', h⟩ => h.place hφ ha ▸ h
  rcases hA.prepares_or_allows hi with hprepares | ⟨above, hallows⟩
  · cases hprepares with
    | null own => exact .inl (hhome (hA.home_of_own own))
  cases hallows with
  | compute h => simp [Instr.isComputation] at h
  | terminate h => simp [Instr.isTerminator] at h
  | storeField field => exact .inr (hA.heap_of_field hφ field ha)
  | storePlain own | storeBox own => exact .inl (hhome (hA.home_of_own own))
  | storeTop value => exact .inl (hhome ⟨_, .global _⟩)

theorem Keeps.home_of_load {naming : Naming} (hA : A.Keeps naming f) (hφ : φ.Derived f) {dst : Reg}
    {ty : Ty} {ptr : Value} {a : Address} (hi : .load dst ty ptr ∈ f.instrs)
    (ha : φ.place ptr = some a) : f.Home ptr a ∨ ∃ n, a = .heap n := by
  have hhome : (∃ a', f.Home ptr a') → f.Home ptr a := fun ⟨a', h⟩ => h.place hφ ha ▸ h
  rcases hA.prepares_or_allows hi with hprepares | ⟨above, hallows⟩
  · cases hprepares
  cases hallows with
  | compute h => simp [Instr.isComputation] at h
  | terminate h => simp [Instr.isTerminator] at h
  | load cell =>
    refine .inl (hhome ?_)
    cases cell with
    | own own => exact hA.home_of_own own
    | outer outer =>
      rw [(hA.outer _ _ outer).2]
      exact ⟨_, .global _⟩
  | loadExternal | loadTop => exact .inl (hhome ⟨_, .global _⟩)
  | loadField dst ty field => exact .inr (hA.heap_of_field hφ field ha)

theorem Keeps.eq_global_of_place {naming : Naming} (hA : A.Keeps naming f) (hφ : φ.Derived f)
    {value ptr : Value} {symbol : String} (hi : .store value ptr ∈ f.instrs)
    (ha : φ.place ptr = some (.global symbol)) : ptr = .global symbol :=
  ((hA.home_of_store hφ hi ha).resolve_right (by simp)).inj (.global symbol)

theorem Keeps.exists_own_of_update {naming : Naming} (hA : A.Keeps naming f) {ret : Ty}
    {v : Value} {args : List Value} (hi : .call none ret Catalog.boxUpdate (v :: args) ∈ f.instrs) :
    ∃ name storage slot, A.own name storage slot ∧ storage.isTracked = true ∧ A.Reads v slot := by
  have hquery : Catalog.boxUpdate ∉ Catalog.queries := by decide
  have hrecord : Catalog.boxUpdate ∈ Catalog.recordFunctions := by decide
  rcases hA.prepares_or_allows hi with hprepares | ⟨above, hallows⟩
  · cases hprepares
  generalize hcallee : Catalog.boxUpdate = callee at hallows
  cases hallows with
  | compute h => simp [Instr.isComputation] at h
  | terminate h => simp [Instr.isTerminator] at h
  | fill => simp [Catalog.boxUpdate, Catalog.boxInit] at hcallee
  | update own tracked reads => exact ⟨_, _, _, own, tracked, reads⟩
  | ask _ _ _ query => exact absurd (hcallee ▸ query) hquery
  | call dst ret h => exact absurd hrecord (hcallee ▸ h.resolve_right (by simp))

end

/-! ## Properties of records -/

/-- A property of data that new records have, and that is watched over in the slots of some boxed
variables during a run that begins in the frame `φ₀`. -/
structure Watch (A : Access) (f : Func) (S : Surroundings) (φ₀ : Frame Past) where
  slots : Value → Prop
  good : Past → Datum → Prop
  mono : ∀ {past past' d}, past <:+ past' → good past d → good past' d
  /-- The slots are in places that only the function writes. -/
  home : ∀ {slot}, slots slot → ∃ a, f.Home slot a ∧ a.IsKept S
  boxed : ∀ {slot name storage}, slots slot → A.own name storage slot → storage.isTracked = true
  top : ∀ {symbol}, slots (.global symbol) → A.scope = .topLevel →
    A.Identified ∧ ∃ name storage, A.own name storage (.global symbol)
  /-- Where a variable that is watched shares a record, it shares it with one that is watched. -/
  lends : ∀ {name target storage slot}, slots target → A.own name .borrowed target →
    A.Cell storage slot → storage.isTracked = true → A.lends name slot → slots slot
  stack : ∀ {past r y}, A.scope = .function →
    .called none Catalog.boxInit [.address (.slot r), y] none ∈ past →
    good past (.address (.slot r))
  heap : ∀ {past r xs d}, A.scope = .topLevel →
    .called (some r) Catalog.boxCreate xs (some d) ∈ past → good past d
  /-- What is in a variable to which nothing was assigned may be shared. -/
  missing : ∀ {name target b past earlier r slot a d}, slots target → A.own name .borrowed target →
    f.Home target b → slots slot → f.Home slot a → LoadedLast past r a d earlier →
    Unset earlier a → good (.stored b d :: past) d
  begins : ∀ {past slot a d}, slots slot → f.Home slot a → φ₀.memory a = some d → d ≠ noRecord →
    good past d

namespace Watch

variable {A : Access} {f : Func} {S : Surroundings} {φ₀ φ φ' : Frame Past}
  {w : Watch A f S φ₀} {naming : Naming} {i : Instr}

/-- The property holds of everything that was read from the variables, and of what is in them, unless
nothing had been assigned. -/
structure Holds (w : Watch A f S φ₀) (past : Past) : Prop where
  loads : ∀ {slot a r d later earlier}, w.slots slot → f.Home slot a →
    past = later ++ .loaded r a d :: earlier → w.good earlier d ∨ Unset earlier a
  stores : ∀ {slot a d}, w.slots slot → f.Home slot a → lastStored past a = some d →
    w.good past d ∨ d = noRecord ∧ Unset past a

/-- Something was done besides reading from a variable or storing there. -/
theorem Holds.cons {past : Past} {e : Event} (h : w.Holds past)
    (hload : ∀ {slot a r d}, w.slots slot → f.Home slot a → e = .loaded r a d →
      w.good past d ∨ Unset past a)
    (hstore : ∀ {slot a d}, w.slots slot → f.Home slot a → lastStored (e :: past) a = some d →
      w.good (e :: past) d ∨ d = noRecord ∧ Unset (e :: past) a) : w.Holds (e :: past) where
  loads := fun {slot a r d later earlier} hslot ha heq => by
    rcases cons_eq_append_iff.mp heq with ⟨-, hcons⟩ | ⟨later', -, hpast⟩
    · obtain ⟨he, rfl⟩ := List.cons.inj hcons
      exact hload hslot ha he.symm
    · exact h.loads hslot ha hpast
  stores := hstore

theorem Holds.stores_cons {past : Past} {e : Event} {slot : Value} {a : Address} {d : Datum}
    (h : w.Holds past) (hslot : w.slots slot) (ha : f.Home slot a)
    (hlast : lastStored past a = some d) (he : ∀ d', e ≠ .stored a d') :
    w.good (e :: past) d ∨ d = noRecord ∧ Unset (e :: past) a := by
  refine (h.stores hslot ha hlast).imp (w.mono (suffix_cons _ _)) fun ⟨hnull, hunset⟩ =>
    ⟨hnull, fun d' hmem => ?_⟩
  exact hunset d' ((mem_cons.mp hmem).resolve_left fun heq => he d' heq.symm)

theorem Holds.called {past : Past} {dst : Option Reg} {callee : String} {xs : List Datum}
    {result : Option Datum} (h : w.Holds past) : w.Holds (.called dst callee xs result :: past) :=
  h.cons (by simp) fun hslot ha hlast => h.stores_cons hslot ha (by simpa using hlast) (by simp)

theorem Holds.load {past : Past} {r : Reg} {a : Address} {d : Datum} (h : w.Holds past)
    (hd : ∀ slot, w.slots slot → f.Home slot a → w.good past d ∨ Unset past a) :
    w.Holds (.loaded r a d :: past) := by
  refine h.cons (fun {slot a' r' d'} hslot ha heq => ?_) fun hslot ha hlast =>
    h.stores_cons hslot ha (by simpa using hlast) (by simp)
  obtain ⟨rfl, rfl, rfl⟩ := Event.loaded.inj heq
  exact hd slot hslot ha

/-- What is in a variable has the property, since it was stored there last or was there from the
beginning. -/
theorem Holds.content {slot : Value} {a : Address} {d : Datum} (h : w.Holds φ.world)
    (hmemory : φ₀.Remembers φ a) (hd : φ.memory a = some d) (hslot : w.slots slot)
    (ha : f.Home slot a) : w.good φ.world d ∨ Unset φ.world a := by
  rcases hmemory d hd with hlast | ⟨hnone, hbegin⟩
  · exact (h.stores hslot ha hlast).imp_right (·.2)
  · -- Nothing was stored there.
    by_cases hnull : d = noRecord
    · exact .inr fun d hmem => absurd hmem (notMem_of_lastStored hnone)
    · exact .inl (w.begins hslot ha hbegin hnull)

/-- A datum is stored that has the property, if it is stored in a variable, or nothing but null was
stored before. -/
theorem Holds.store {past : Past} {a : Address} {d : Datum} (h : w.Holds past)
    (hd : ∀ slot, w.slots slot → f.Home slot a →
      w.good (.stored a d :: past) d ∨ d = noRecord ∧ OnlyNull past) :
    w.Holds (.stored a d :: past) := by
  refine h.cons (by simp) fun {slot a' d'} hslot ha hlast => ?_
  rw [lastStored_stored] at hlast
  split at hlast
  case isTrue heq =>
    subst heq
    obtain rfl := Option.some.inj hlast
    refine (hd slot hslot ha).imp_right fun ⟨hnull, honly⟩ => ⟨hnull, fun d' hmem => ?_⟩
    rcases mem_cons.mp hmem with heq | hmem
    · exact (Event.stored.inj heq).2.trans hnull
    · exact honly a d' hmem
  case isFalse hne =>
    exact h.stores_cons hslot ha hlast fun d'' heq => hne (Event.stored.inj heq).1

/-! ## Steps -/

theorem Holds.reads {slot v : Value} {d : Datum} (h : w.Holds φ.world) (hcode : A.code = f.instrs)
    (hφ : φ.Derived f) (hslot : w.slots slot) (hv : A.Reads v slot) (hd : φ.eval v = some d) :
    ∃ r a earlier, v = .reg r .ptr ∧ f.Home slot a ∧ LoadedLast φ.world r a d earlier ∧
      (w.good φ.world d ∨ Unset earlier a) := by
  obtain ⟨r, rfl, hload⟩ := hv
  obtain ⟨a, ha, -⟩ := w.home hslot
  obtain ⟨earlier, hlast⟩ := hφ.loaded (hcode ▸ hload) ha hd
  obtain ⟨later, heq, -⟩ := id hlast
  exact ⟨r, a, earlier, rfl, ha, hlast, (h.loads hslot ha heq).imp_left (w.mono hlast.suffix)⟩

/-- A value that may be stored in the slot of a boxed variable has the property there. -/
theorem Holds.boxes {above : List Instr} {name : String} {storage : StorageClass}
    {target v : Value} {b : Address} {d : Datum} (h : w.Holds φ.world) (hA : A.Keeps naming f)
    (hφ : φ.Derived f) (hfilled : A.Filled above φ.world) (htarget : w.slots target)
    (hown : A.own name storage target) (hb : f.Home target b) (hv : A.Boxes above name storage v)
    (hd : φ.eval v = some d) : w.good (.stored b d :: φ.world) d := by
  have hsuffix : φ.world <:+ .stored b d :: φ.world := suffix_cons _ _
  cases hv with
  | stack reserved filled =>
    obtain ⟨y, hy⟩ := hfilled _ _ _ reserved filled
    rw [hA.code] at reserved
    obtain rfl := hφ.slot reserved hd
    cases hscope : A.scope with
    | topLevel => exact absurd reserved (hA.notMem_of_topLevel hscope _)
    | function => exact w.mono hsuffix (w.stack hscope hy)
  | heap top made =>
    obtain ⟨xs, hxs⟩ := hφ.result (hA.code ▸ made) hd
    exact w.mono hsuffix (w.heap top hxs)
  | shared cell tracked reads lends =>
    have hslot := w.lends htarget hown cell tracked lends
    obtain ⟨r, a, earlier, -, ha, hlast, hgood | hunset⟩ := h.reads hA.code hφ hslot reads hd
    · exact w.mono hsuffix hgood
    · exact w.missing htarget hown hb hslot ha hlast hunset

theorem Holds.allowedStore (hA : A.Keeps naming f) {above : List Instr} {v ptr : Value} {a : Address}
    {d : Datum} (h : w.Holds φ.world) (hφ : φ.Derived f) (hfilled : A.Filled above φ.world)
    (hi : A.Allows above (.store v ptr)) (hd : φ.eval v = some d) (ha : φ.place ptr = some a) :
    w.Holds (.stored a d :: φ.world) := by
  refine h.store fun slot hslot hhome => ?_
  -- Where the value stands for a place, that is the one that is watched.
  have hsame : ∀ {a'}, f.Home ptr a' → ptr = slot := fun hptr =>
    (hptr.place hφ ha ▸ hptr).inj hhome
  have hown : ∀ {name storage}, A.own name storage ptr → ptr = slot := by
    intro name storage hown
    rcases hA.slots name storage ptr hown with ⟨r, rfl, hr⟩ | ⟨-, rfl⟩
    · exact hsame (.slot hr)
    · exact hsame (.global _)
  cases hi with
  | compute h => simp [Instr.isComputation] at h
  | terminate h => simp [Instr.isTerminator] at h
  | storeField field =>
    obtain ⟨e, he, he'⟩ := Option.bind_eq_some_iff.mp ha
    obtain ⟨index, rfl⟩ := (hφ.field (hA.code ▸ field) he).place he'
    cases hhome
  | storePlain own plain =>
    have htracked := w.boxed (hown own ▸ hslot) own
    simp [plain] at htracked
  | storeBox own tracked boxes =>
    obtain rfl := hown own
    exact .inl (h.boxes hA hφ hfilled hslot own hhome boxes hd)
  | storeTop value top kind apart =>
    obtain rfl := hsame (.global _)
    obtain ⟨hnames, name, storage, hname⟩ := w.top hslot top
    exact absurd hname (apart hnames name storage)

/-- An instruction of code that keeps to an access leaves behind it what is watched over. -/
theorem Holds.does (hA : A.Keeps naming f) {rest : List Instr} (h : w.Holds φ.world)
    (hoffers : A.Offers φ.world i rest) (hφ : φ.Derived f)
    (hmemory : ∀ a : Address, a.IsKept S → φ₀.Remembers φ a)
    (hempty : ∀ a : Address, a.IsKept S → φ.memory a = none → Unset φ.world a)
    (hdoes : Does S φ i φ') : w.Holds φ'.world := by
  have hkept : ∀ {slot a}, w.slots slot → f.Home slot a → a.IsKept S := by
    intro slot a hslot ha
    obtain ⟨a', ha', hkept⟩ := w.home hslot
    exact ha'.unique ha ▸ hkept
  cases hdoes with
  | alloca | compute => exact h
  | load dst ty place content =>
    exact h.load fun slot hslot ha => h.content (hmemory _ (hkept hslot ha)) content hslot ha
  | loadAny dst ty place empty d =>
    exact h.load fun slot hslot ha => .inr (hempty _ (hkept hslot ha) empty)
  | callVoid | call => exact h.called
  | store datum place =>
    cases hoffers with
    | allows hi filled => exact h.allowedStore hA hφ filled hi datum place
    | prepares hi honly =>
      cases hi with
      | null own tracked => exact h.store fun _ _ _ => .inr ⟨(Option.some.inj datum).symm, honly⟩

theorem holds_of_arises (w : Watch A f S φ₀) (hf : f.Linear) (hA : A.Keeps naming f)
    (hbegin : φ₀.Begins f) {c : Point} (h : Arises S f φ₀ c) :
    w.Holds c.frame.world := by
  induction h with
  | refl =>
    rw [Func.frame_start, hbegin.past]
    exact ⟨fun _ _ hmem => by simp at hmem, fun _ _ hlast => by simp [lastStored] at hlast⟩
  | tail hpath hstep ih =>
    cases hstep with
    | br | condBr => exact ih
    | exec label rest hdoes =>
      exact ih.does hA (hA.stands hf hbegin hpath).offers (Arises.derived hf hbegin hpath)
        (fun a ha => Arises.remembers ha hbegin hpath)
        (fun a ha => hA.onlyNull_of_none hf hbegin ha hpath) hdoes

end Watch

end Access

/-! ## Generated functions -/

/-- In a generated function every register is defined once, and no jump leads to its beginning. -/
theorem generate_linear {target : Target} {naming : Naming} {observed : List String}
    {statements : List Node} {u : Generated}
    (hu : generate target naming observed statements = .ok u) :
    ∀ f ∈ u.assembly.functions, f.Linear := by
  intro f hf
  obtain ⟨start, g, t, h, rfl, -⟩ := (Stage.generate_functions hu).2 f hf
  have hregisters : ∀ i ∈ (g.complete t).instrs, ∀ r, i.dst? = some r →
      r ∈ registers (g.effect t).code := fun i hi r hr =>
    mem_filterMap.mpr ⟨i, h.instrs ▸ hi, hr⟩
  refine ⟨by rw [h.instrs]; exact h.written.distinct, fun i hi r hr => (h.written.bounds r (hregisters i hi r hr)).1, ?_⟩
  intro i hi l hl b hb
  have hfirst := h.wellFormed.first
  have hmem := mem_of_find?_eq_some hb
  have hlabel : b.label = l := by simpa using List.find?_some hb
  cases hblocks : (g.complete t).blocks with
  | nil => simp [Func.labels, hblocks] at hfirst
  | cons first rest =>
    rw [hblocks] at hmem
    refine (mem_cons.mp hmem).resolve_left fun heq => h.wellFormed.noReentry ?_
    have hentry : first.label = "entry" := by simpa [Func.labels, hblocks] using hfirst
    rw [← hentry, ← heq, hlabel]
    exact mem_flatMap.mpr ⟨i, hi, hl⟩

end ScriptCompiler.Lowering
