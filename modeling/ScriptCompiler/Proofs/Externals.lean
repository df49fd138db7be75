import Mathlib.Data.Set.Card
import ScriptCompiler.Proofs.Linkage

/-!
# What the external symbols of a unit are

A unit uses external symbols in whatever order its text has them, as variables and as functions, and
two tables and the assembly are kept for them apart. Here a *session* is any sequence of such uses,
from an assembly in which some symbols are taken. Each use is answered by what is behind the symbol, or
is refused, and then nothing changes.

The tables and the assembly never disagree (`Session.Tracks`). So one table tells all
(`Session.grant?`): it says how the next use is answered (`serve_eq`), and it only grows, by one entry
for the first use of each symbol that is not taken (`grant?_serve`). What follows for every session is
collected in `Bookkeeping`.
-/

namespace ScriptCompiler.Lowering

open List

open Ir (Assembly Global Signature)

/-! ## Sessions -/

/-- A use of a symbol that the unit does not define. -/
inductive Use where
  | read (symbol : String)
  | call (symbol : String) (arity : Nat)

/-- What is behind an external symbol. -/
inductive Grant where
  | word (binding : Binding)
  | function (arity : Nat)

namespace Use

def symbol : Use → String
  | .read symbol | .call symbol _ => symbol

def isCall : Use → Bool
  | .read _ => false
  | .call .. => true

/-- The error of a use that is refused. -/
def conflict : Use → Error
  | .read symbol => symbolConflict symbol "read as a variable"
  | .call symbol _ => symbolConflict symbol "called as a function"

/-- What the first use of a symbol makes of it. -/
def grant : Use → Grant
  | .read symbol => .word (Externals.binding symbol)
  | .call _ arity => .function arity

end Use

/-- The symbol is a function. -/
def Grant.isFunction : Grant → Bool
  | .word _ => false
  | .function _ => true

/-- The external symbols that have been used, and the assembly. -/
structure Session where
  externals : Externals := {}
  assembly : Assembly

namespace Session

/-- The answer to a use, and what is kept then. -/
def serve (s : Session) : Use → Except Error Grant × Session
  | .read symbol =>
    match s.externals.useVariable s.assembly symbol with
    | .ok (externals, assembly) =>
      (.ok (.word (Externals.binding symbol)), { externals, assembly })
    | .error e => (.error e, s)
  | .call symbol arity =>
    match s.externals.useFunction s.assembly symbol arity with
    | .ok (declared, externals, assembly) => (.ok (.function declared), { externals, assembly })
    | .error e => (.error e, s)

/-- What is kept after some uses. -/
def after (s : Session) (uses : List Use) : Session := uses.foldl (fun s use => (s.serve use).2) s

/-- The answer to a use that comes after others. -/
def answer (s : Session) (before : List Use) (use : Use) : Except Error Grant :=
  ((s.after before).serve use).1

/-- One of the uses was answered by a grant. -/
def Grants (s : Session) (uses : List Use) (use : Use) (g : Grant) : Prop :=
  ∃ before rest, uses = before ++ use :: rest ∧ s.answer before use = .ok g

end Session

/-- The declaration of an external variable. -/
def externalWord (symbol : String) : Global :=
  { name := symbol, ty := .i64, visibility := .external, init := none }

/-- The declaration of an external function. -/
def externalFunction (entry : String × Nat) : Signature :=
  ⟨entry.1, .i64, List.replicate entry.2 .i64⟩

/-- The session in which no external symbol has been used yet. -/
def Session.begin (a : Assembly) : Session := { assembly := a }

/-- What holds of every session that begins with an assembly. -/
structure Bookkeeping (a : Assembly) : Prop where
  /-- A symbol of the assembly is never granted. -/
  taken : ∀ before use, a.hasSymbol use.symbol = true →
    (Session.begin a).answer before use = .error use.conflict
  /-- The first use of any other symbol is granted. -/
  first : ∀ before use, a.hasSymbol use.symbol = false →
    (∀ earlier ∈ before, earlier.symbol ≠ use.symbol) →
    (Session.begin a).answer before use = .ok use.grant
  /-- A use that was granted settles how all later ones of the symbol are answered. -/
  settled : ∀ before use g middle later, (Session.begin a).answer before use = .ok g →
    later.symbol = use.symbol → (Session.begin a).answer (before ++ use :: middle) later =
      if later.isCall = use.isCall then .ok g else .error later.conflict
  /-- A use that is refused changes nothing. -/
  refused : ∀ before use e, (Session.begin a).answer before use = .error e →
    (Session.begin a).after (before ++ [use]) = (Session.begin a).after before
  /-- The assembly gets one declaration for every symbol that was granted, and nothing else. -/
  declared : ∀ uses, ∃ (vars : List String) (functions : List (String × Nat)),
    (vars ++ functions.map Prod.fst).Nodup ∧
    (∀ symbol, symbol ∈ vars ↔ ∃ g, (Session.begin a).Grants uses (.read symbol) g) ∧
    (∀ symbol declared, (symbol, declared) ∈ functions ↔
      ∃ arity, (Session.begin a).Grants uses (.call symbol arity) (.function declared)) ∧
    ((Session.begin a).after uses).assembly = { a with
      globals := a.globals ++ vars.map externalWord
      declarations := a.declarations ++ functions.map externalFunction }
  /-- The symbols that were granted are counted. -/
  counted : ∀ uses, ((Session.begin a).after uses).externals.count =
    {symbol | ∃ use g, use.symbol = symbol ∧ (Session.begin a).Grants uses use g}.ncard

/-! ## One table -/

/-- The symbols that are entered in either table. -/
def Externals.symbols (e : Externals) : List String := e.vars ++ e.functions.map Prod.fst

namespace Session

variable {a : Assembly} {s : Session} {use : Use} {symbol : String}

/-- The tables and the assembly agree: besides what the assembly `a` has, it has one declaration for
each entry, and no symbol is entered twice or taken in `a`. -/
structure Tracks (a : Assembly) (s : Session) : Prop where
  assembly : s.assembly = { a with
    globals := a.globals ++ s.externals.vars.map externalWord
    declarations := a.declarations ++ s.externals.functions.map externalFunction }
  distinct : s.externals.symbols.Nodup
  apart : ∀ symbol ∈ s.externals.symbols, a.hasSymbol symbol = false

/-- What is behind a symbol. -/
def grant? (s : Session) (symbol : String) : Option Grant :=
  if symbol ∈ s.externals.vars then some (.word (Externals.binding symbol))
  else (s.externals.functions.lookup symbol).map .function

/-- The session with an entry for a symbol that was not used before. -/
def enter (s : Session) : Use → Session
  | .read symbol =>
    { externals := { s.externals with vars := s.externals.vars ++ [symbol] }
      assembly := s.assembly.addGlobal (externalWord symbol) }
  | .call symbol arity =>
    { externals := { s.externals with functions := s.externals.functions ++ [(symbol, arity)] }
      assembly := { s.assembly with
        declarations := s.assembly.declarations ++ [externalFunction (symbol, arity)] } }

theorem tracks_begin (a : Assembly) : Tracks a (begin a) where
  assembly := by simp [begin]
  distinct := by simp [begin, Externals.symbols]
  apart := by simp [begin, Externals.symbols]

theorem grant?_eq_none_iff : s.grant? symbol = none ↔ symbol ∉ s.externals.symbols := by
  have hlookup : s.externals.functions.lookup symbol = none ↔
      symbol ∉ s.externals.functions.map Prod.fst := by
    simp only [lookup_eq_none_iff, bne_iff_ne, mem_map, not_exists, not_and]
    exact ⟨fun h p hp heq => h p hp heq.symm, fun h p hp heq => h p hp heq.symm⟩
  rw [grant?, Externals.symbols, mem_append, not_or, ← hlookup]
  split <;> simp_all

theorem grant?_eq_word_iff {b : Binding} : s.grant? symbol = some (.word b) ↔
    symbol ∈ s.externals.vars ∧ b = Externals.binding symbol := by
  rw [grant?]
  split <;> simp_all [eq_comm]

theorem Tracks.grant?_eq_function_iff (h : Tracks a s) {arity : Nat} :
    s.grant? symbol = some (.function arity) ↔ (symbol, arity) ∈ s.externals.functions := by
  obtain ⟨-, hfunctions, hapart⟩ := nodup_append.mp h.distinct
  rw [grant?, ← Text.lookup_eq_some_iff_of_nodup hfunctions]
  split
  case isTrue hvar =>
    refine iff_of_false (by simp) fun hlookup => ?_
    have hmem := (Text.lookup_eq_some_iff_of_nodup hfunctions).mp hlookup
    exact hapart symbol hvar symbol (mem_map_of_mem hmem) rfl
  case isFalse => simp

theorem Tracks.hasSymbol_eq_false_iff (h : Tracks a s) : s.assembly.hasSymbol symbol = false ↔
    a.hasSymbol symbol = false ∧ s.grant? symbol = none := by
  have hwords : (s.externals.vars.map externalWord).map (·.name) = s.externals.vars := by
    simp [externalWord, Function.comp_def]
  have hfunctions : (s.externals.functions.map externalFunction).map (·.name) =
      s.externals.functions.map Prod.fst := by
    simp [externalFunction, Function.comp_def]
  rw [grant?_eq_none_iff, hasSymbol_eq_false, hasSymbol_eq_false, h.assembly]
  simp only [Externals.symbols, map_append, hwords, hfunctions, mem_append, not_or]
  tauto

/-! ## Steps -/

theorem serve_read : s.serve (.read symbol) =
    if symbol ∈ s.externals.vars then (.ok (.word (Externals.binding symbol)), s)
    else if (s.externals.functions.lookup symbol).isSome || s.assembly.hasSymbol symbol then
      (.error (Use.read symbol).conflict, s)
    else (.ok (.word (Externals.binding symbol)), s.enter (.read symbol)) := by
  simp only [serve, Externals.useVariable]
  by_cases hvar : symbol ∈ s.externals.vars
  · simp only [hvar, if_true]
  · simp only [hvar, if_false]
    cases (s.externals.functions.lookup symbol).isSome || s.assembly.hasSymbol symbol <;> rfl

theorem serve_call {arity : Nat} : s.serve (.call symbol arity) =
    match s.externals.functions.lookup symbol with
    | some declared => (.ok (.function declared), s)
    | none =>
      if symbol ∈ s.externals.vars || s.assembly.hasSymbol symbol then
        (.error (Use.call symbol arity).conflict, s)
      else (.ok (.function arity), s.enter (.call symbol arity)) := by
  simp only [serve, Externals.useFunction]
  cases s.externals.functions.lookup symbol with
  | some declared => rfl
  | none =>
    cases hfree : symbol ∈ s.externals.vars || s.assembly.hasSymbol symbol with
    | true => simp only [if_true, Use.conflict]
    | false =>
      have hdeclared : (s.assembly.declaration? symbol).isSome = false := by
        simp only [Assembly.hasSymbol, Bool.or_eq_false_iff] at hfree
        exact hfree.2.2
      have hdeclare : s.assembly.declare (externalFunction (symbol, arity)) = { s.assembly with
          declarations := s.assembly.declarations ++ [externalFunction (symbol, arity)] } :=
        if_neg (by simp [externalFunction, hdeclared])
      simp only [Bool.false_eq_true, if_false, enter]
      rw [← hdeclare]
      rfl

/-- A symbol that is behind something is used as that and as nothing else. -/
theorem Tracks.serve_of_some (h : Tracks a s) {g : Grant} (hg : s.grant? use.symbol = some g) :
    s.serve use = (if g.isFunction = use.isCall then .ok g else .error use.conflict, s) := by
  cases g with
  | word b =>
    obtain ⟨hvar, rfl⟩ := grant?_eq_word_iff.mp hg
    cases use with
    | read symbol =>
      rw [serve_read, if_pos (show symbol ∈ s.externals.vars from hvar)]
      rfl
    | call symbol arity =>
      have hlookup : s.externals.functions.lookup symbol = none := by
        cases hlookup : s.externals.functions.lookup symbol with
        | none => rfl
        | some declared =>
          obtain ⟨-, hfunctions, hapart⟩ := nodup_append.mp h.distinct
          have hmem := (Text.lookup_eq_some_iff_of_nodup hfunctions).mp hlookup
          exact absurd rfl (hapart symbol hvar symbol (mem_map.mpr ⟨_, hmem, rfl⟩))
      have hvar : symbol ∈ s.externals.vars := hvar
      simp only [serve_call, hlookup, hvar, decide_true, Bool.true_or, if_true]
      rfl
  | function declared =>
    have hlookup : s.externals.functions.lookup use.symbol = some declared :=
      (Text.lookup_eq_some_iff_of_nodup (nodup_append.mp h.distinct).2.1).mpr
        (h.grant?_eq_function_iff.mp hg)
    cases use with
    | read symbol =>
      have hvar : symbol ∉ s.externals.vars := fun hvar => by
        simp [grant?, Use.symbol, hvar] at hg
      have hlookup : s.externals.functions.lookup symbol = some declared := hlookup
      simp only [serve_read, hvar, if_false, hlookup, Option.isSome_some, Bool.true_or, if_true]
      rfl
    | call symbol arity =>
      have hlookup : s.externals.functions.lookup symbol = some declared := hlookup
      simp only [serve_call, hlookup]
      rfl

/-- A symbol that is behind nothing is entered, unless it is taken. -/
theorem Tracks.serve_of_none (h : Tracks a s) (hg : s.grant? use.symbol = none) :
    s.serve use =
      if a.hasSymbol use.symbol then (.error use.conflict, s) else (.ok use.grant, s.enter use) := by
  have hsymbol : s.assembly.hasSymbol use.symbol = a.hasSymbol use.symbol := by
    rw [Bool.eq_iff_iff, ← not_iff_not]
    simp [h.hasSymbol_eq_false_iff, hg]
  obtain ⟨hvar, hfunction⟩ := not_or.mp fun hmem => grant?_eq_none_iff.mp hg (mem_append.mpr hmem)
  have hlookup : s.externals.functions.lookup use.symbol = none :=
    lookup_eq_none_iff.mpr fun p hp => bne_iff_ne.mpr fun heq =>
      hfunction (heq ▸ mem_map_of_mem hp)
  cases use with
  | read symbol =>
    simp only [Use.symbol] at hvar hlookup hsymbol
    simp only [serve_read, hvar, hlookup, hsymbol, if_false, Option.isSome_none, Bool.false_or]
    rfl
  | call symbol arity =>
    simp only [Use.symbol] at hvar hlookup hsymbol
    simp only [serve_call, hvar, hlookup, hsymbol, decide_false, Bool.false_or]
    rfl

theorem grant?_enter (hg : s.grant? use.symbol = none) :
    (s.enter use).grant? symbol = if symbol = use.symbol then some use.grant else s.grant? symbol := by
  cases use with
  | read name =>
    by_cases hname : symbol = name <;> simp [enter, grant?, Use.symbol, Use.grant, hname]
  | call name arity =>
    by_cases hname : symbol = name
    · subst hname
      have hnone : symbol ∉ s.externals.vars ∧ s.externals.functions.lookup symbol = none := by
        unfold grant? at hg
        split at hg
        case isTrue => simp at hg
        case isFalse hvar => exact ⟨hvar, Option.map_eq_none_iff.mp hg⟩
      simp [enter, grant?, Use.symbol, Use.grant, lookup_append, hnone.1, hnone.2]
    · have hother : [(name, arity)].lookup symbol = none :=
        lookup_eq_none_iff.mpr (by simpa using hname)
      simp [enter, grant?, Use.symbol, hname, lookup_append, hother]

theorem symbols_enter :
    (s.enter use).externals.symbols.Perm (use.symbol :: s.externals.symbols) := by
  cases use with
  | read name => simp [enter, Externals.symbols, Use.symbol]
  | call name arity =>
    simpa [enter, Externals.symbols, Use.symbol] using
      perm_append_singleton name (s.externals.vars ++ s.externals.functions.map Prod.fst)

theorem Tracks.enter (h : Tracks a s) (hg : s.grant? use.symbol = none)
    (hfree : a.hasSymbol use.symbol = false) : Tracks a (s.enter use) where
  assembly := by
    cases use <;> simp [Session.enter, h.assembly, Assembly.addGlobal]
  distinct := symbols_enter.nodup_iff.mpr
    (nodup_cons.mpr ⟨grant?_eq_none_iff.mp hg, h.distinct⟩)
  apart := fun symbol hmem => by
    rcases mem_cons.mp (symbols_enter.mem_iff.mp hmem) with rfl | hmem
    · exact hfree
    · exact h.apart symbol hmem

theorem Tracks.serve (h : Tracks a s) (use : Use) : Tracks a (s.serve use).2 := by
  cases hg : s.grant? use.symbol with
  | some g => rwa [h.serve_of_some hg]
  | none =>
    rw [h.serve_of_none hg]
    split
    case isTrue => exact h
    case isFalse hfree => exact h.enter hg (by simpa using hfree)

theorem Tracks.grant?_serve (h : Tracks a s) (use : Use) : (s.serve use).2.grant? symbol =
    if symbol = use.symbol ∧ a.hasSymbol symbol = false then
      (s.grant? symbol).or (some use.grant) else s.grant? symbol := by
  cases hg : s.grant? use.symbol with
  | some g =>
    rw [h.serve_of_some hg]
    by_cases hsymbol : symbol = use.symbol
    · simp [hsymbol, hg]
    · simp [hsymbol]
  | none =>
    rw [h.serve_of_none hg]
    cases hfree : a.hasSymbol use.symbol with
    | true =>
      rw [if_pos rfl, if_neg]
      rintro ⟨rfl, hnot⟩
      simp [hfree] at hnot
    | false =>
      rw [if_neg (by simp), grant?_enter hg]
      by_cases hsymbol : symbol = use.symbol
      · subst hsymbol
        simp [hfree, hg]
      · simp [hsymbol]

theorem Tracks.grant?_of_granted (h : Tracks a s) {g : Grant} (hok : (s.serve use).1 = .ok g) :
    (s.serve use).2.grant? use.symbol = some g ∧ g.isFunction = use.isCall := by
  cases hg : s.grant? use.symbol with
  | some g' =>
    rw [h.serve_of_some hg] at hok ⊢
    dsimp only at hok ⊢
    split at hok
    case isTrue hsame =>
      obtain rfl := Except.ok.inj hok
      exact ⟨hg, hsame⟩
    case isFalse => simp at hok
  | none =>
    rw [h.serve_of_none hg] at hok ⊢
    split at hok
    case isTrue => simp at hok
    case isFalse hfree =>
      obtain rfl := Except.ok.inj hok
      rw [if_neg hfree, grant?_enter hg, if_pos rfl]
      exact ⟨rfl, by cases use <;> rfl⟩

/-! ## Runs -/

theorem after_append (before rest : List Use) :
    s.after (before ++ rest) = (s.after before).after rest :=
  foldl_append

theorem after_concat (before : List Use) (use : Use) :
    s.after (before ++ [use]) = ((s.after before).serve use).2 := by
  rw [after_append]
  rfl

theorem Tracks.after (h : Tracks a s) (uses : List Use) : Tracks a (s.after uses) := by
  induction uses generalizing s with
  | nil => exact h
  | cons use uses ih => exact ih (h.serve use)

theorem Tracks.grant?_after_of_some (h : Tracks a s) {g : Grant} (hg : s.grant? symbol = some g)
    (uses : List Use) : (s.after uses).grant? symbol = some g := by
  induction uses generalizing s with
  | nil => exact hg
  | cons use uses ih =>
    refine ih (h.serve use) ?_
    rw [h.grant?_serve use, hg]
    split <;> rfl

theorem Tracks.grant?_after_of_unused (h : Tracks a s) {uses : List Use}
    (hunused : ∀ use ∈ uses, use.symbol ≠ symbol) :
    (s.after uses).grant? symbol = s.grant? symbol := by
  induction uses generalizing s with
  | nil => rfl
  | cons use uses ih =>
    obtain ⟨hfirst, hrest⟩ := forall_mem_cons.mp hunused
    refine (ih (h.serve use) hrest).trans ?_
    rw [h.grant?_serve use, if_neg fun hsame => hfirst hsame.1.symm]

/-- What is behind a symbol was granted to one of its uses. -/
theorem grant?_after_iff {uses : List Use} {g : Grant} :
    ((begin a).after uses).grant? symbol = some g ↔
      ∃ use, use.symbol = symbol ∧ (begin a).Grants uses use g := by
  have htracks : ∀ uses, Tracks a ((begin a).after uses) := (tracks_begin a).after
  constructor
  · intro hg
    induction uses using List.reverseRecOn with
    | nil => simp [Session.after, begin, grant?] at hg
    | append_singleton before use ih =>
      cases hbefore : ((begin a).after before).grant? symbol with
      | some g' =>
        -- It was granted before the last use.
        rw [after_append, (htracks before).grant?_after_of_some hbefore] at hg
        obtain ⟨earlier, hsymbol, front, rest, rfl, hanswer⟩ := ih (hbefore.trans hg)
        exact ⟨earlier, hsymbol, front, rest ++ [use], by simp, hanswer⟩
      | none =>
        rw [after_concat, (htracks before).grant?_serve use, hbefore] at hg
        split at hg
        case isFalse => simp at hg
        case isTrue hsame =>
          obtain ⟨rfl, hfree⟩ := hsame
          refine ⟨use, rfl, before, [], by simp, ?_⟩
          rw [answer, (htracks before).serve_of_none hbefore, if_neg (by simp [hfree])]
          exact congrArg Except.ok (Option.some.inj hg)
  · rintro ⟨use, rfl, before, rest, rfl, hanswer⟩
    rw [after_append]
    refine ((htracks before).serve use).grant?_after_of_some ?_ rest
    exact ((htracks before).grant?_of_granted hanswer).1

theorem Grants.grant? {uses : List Use} {g : Grant} (h : (begin a).Grants uses use g) :
    ((begin a).after uses).grant? use.symbol = some g ∧ g.isFunction = use.isCall := by
  refine ⟨grant?_after_iff.mpr ⟨use, rfl, h⟩, ?_⟩
  obtain ⟨before, rest, rfl, hanswer⟩ := h
  exact (((tracks_begin a).after before).grant?_of_granted hanswer).2

theorem mem_vars_iff {uses : List Use} : symbol ∈ ((begin a).after uses).externals.vars ↔
    ∃ g, (begin a).Grants uses (.read symbol) g := by
  constructor
  · intro hmem
    obtain ⟨use, hsymbol, hgrants⟩ := grant?_after_iff.mp (grant?_eq_word_iff.mpr ⟨hmem, rfl⟩)
    cases use with
    | read name => exact ⟨_, (show name = symbol from hsymbol) ▸ hgrants⟩
    | call name arity => simpa [Grant.isFunction, Use.isCall] using hgrants.grant?.2
  · rintro ⟨g, hgrants⟩
    obtain ⟨hg, hsort⟩ := hgrants.grant?
    cases g with
    | word b => exact (grant?_eq_word_iff.mp hg).1
    | function declared => simp [Grant.isFunction, Use.isCall] at hsort

/-- The functions are the symbols that were granted to a calling use, with the arity that was
granted. -/
theorem mem_functions_iff {uses : List Use} {declared : Nat} :
    (symbol, declared) ∈ ((begin a).after uses).externals.functions ↔
      ∃ arity, (begin a).Grants uses (.call symbol arity) (.function declared) := by
  rw [← ((tracks_begin a).after uses).grant?_eq_function_iff, grant?_after_iff]
  constructor
  · rintro ⟨use, hsymbol, hgrants⟩
    cases use with
    | read name => simpa [Grant.isFunction, Use.isCall] using hgrants.grant?.2
    | call name arity => exact ⟨arity, (show name = symbol from hsymbol) ▸ hgrants⟩
  · rintro ⟨arity, hgrants⟩
    exact ⟨_, rfl, hgrants⟩

theorem mem_symbols_iff {uses : List Use} : symbol ∈ ((begin a).after uses).externals.symbols ↔
    ∃ use g, use.symbol = symbol ∧ (begin a).Grants uses use g := by
  rw [← not_iff_not, ← grant?_eq_none_iff, Option.eq_none_iff_forall_ne_some]
  simp only [ne_eq, grant?_after_iff, not_exists]
  exact forall_comm

end Session

/-- The external symbols of every session are kept as `Bookkeeping` says. -/
theorem externals_bookkeeping (a : Assembly) : Bookkeeping a := by
  have htracks : ∀ uses, ((Session.begin a).after uses).Tracks a := (Session.tracks_begin a).after
  refine ⟨fun before use htaken => ?_, fun before use hfree hunused => ?_,
    fun before use g middle later hanswer hsymbol => ?_, fun before use e hanswer => ?_,
    fun uses => ?_, fun uses => ?_⟩
  · have hnone : ((Session.begin a).after before).grant? use.symbol = none :=
      Session.grant?_eq_none_iff.mpr fun hmem => by
        simpa [htaken] using (htracks before).apart _ hmem
    rw [Session.answer, (htracks before).serve_of_none hnone, if_pos htaken]
  · have hnone : ((Session.begin a).after before).grant? use.symbol = none :=
      (Session.tracks_begin a).grant?_after_of_unused hunused
    rw [Session.answer, (htracks before).serve_of_none hnone, if_neg (by simp [hfree])]
  · obtain ⟨hg, hsort⟩ := (htracks before).grant?_of_granted hanswer
    have hlater : ((Session.begin a).after (before ++ use :: middle)).grant? later.symbol = some g := by
      rw [Session.after_append, hsymbol]
      exact ((htracks before).serve use).grant?_after_of_some hg middle
    rw [Session.answer, (htracks _).serve_of_some hlater, hsort]
    simp only [eq_comm]
  · rw [Session.after_concat]
    cases hg : ((Session.begin a).after before).grant? use.symbol with
    | some g => rw [(htracks before).serve_of_some hg]
    | none =>
      rw [Session.answer, (htracks before).serve_of_none hg] at hanswer
      rw [(htracks before).serve_of_none hg]
      split at hanswer
      case isTrue htaken => rw [if_pos htaken]
      case isFalse => simp at hanswer
  · exact ⟨_, _, (htracks uses).distinct, fun _ => Session.mem_vars_iff,
      fun _ _ => Session.mem_functions_iff, (htracks uses).assembly⟩
  · have hset : {symbol | ∃ use g, use.symbol = symbol ∧ (Session.begin a).Grants uses use g} =
        ↑((Session.begin a).after uses).externals.symbols.toFinset := by
      ext symbol
      simp [Session.mem_symbols_iff]
    rw [hset, Set.ncard_coe_finset, toFinset_card_of_nodup (htracks uses).distinct]
    simp [Externals.count, Externals.symbols]

end ScriptCompiler.Lowering
