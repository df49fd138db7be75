import ScriptCompiler.Proofs.Numeric.Expr

/-!
# Code that carries out statements

A program need not end, so its meaning is followed pass by pass: `pursueAll N passes statements`
carries out statements whose loops may make so many passes each, and says how they ended, if they
did. Where the evaluation within some fuel ends, this is the same (`execAll_eq`).

A judgement `Follows R f first loopEnd whole P Q E p q` about two points of a function: from the
instructions `p`, which are the rest of some block, in a frame that goes with a store by `P`, a run
does what the evaluation `E` does. Where the evaluation comes to its end the run comes to `q`, where
it breaks off a loop the run jumps to the end of the loop, where it returns the run jumps to the end
of the program, and where it has used up the passes that loops were given the run has made at least
so many steps and has printed the same. The last makes endless runs comparable. A conditional is two
ways from a test to one place, and a loop goes back to its test, so that the judgement about it is an
induction on its passes.
-/

namespace ScriptCompiler.Numeric

open Ir Lowering

/-! ## Meaning by passes -/

/-- A loop that tests before every pass, as far as its first passes. -/
def repeating (test : Eval Bool) (body : Eval (Option Outcome)) :
    (passes : Nat) → Eval (Option Outcome)
  | 0 => return none
  | passes + 1 => do
    if ← test then
      match ← body with
      | some .normal => repeating test body passes
      | some .broke => return some .normal
      | way => return way
    else return some .normal

mutual

/-- Carry out a statement, and say how it ends if the passes of its loops suffice. -/
def pursue (N : Numbers) (passes : Nat) : Node → Eval (Option Outcome)
  | .assignment name value => do
    let x ← eval N value
    modify (·.set name x)
    return some .normal
  | .ret none => return some .returned
  | .ret (some node) => do
    discard (eval N node)
    return some .returned
  | .breakLoop => return some .broke
  | .conditional condition thenBlock elseBlock => do
    if isTrue (← eval N condition) then pursueAll N passes thenBlock
    else pursueAll N passes elseBlock
  | .loop condition body =>
    repeating (isTrue <$> eval N condition) (pursueAll N passes body) passes
  | node => do
    discard (eval N node)
    return some .normal

/-- Carry out statements one after the other, as long as control goes on. -/
def pursueAll (N : Numbers) (passes : Nat) : List Node → Eval (Option Outcome)
  | [] => return some .normal
  | node :: rest => do
    match ← pursue N passes node with
    | some .normal => pursueAll N passes rest
    | way => return way

end

theorem iterate_eq {test : Eval Bool} {body : Eval Outcome} {body' : Eval (Option Outcome)}
    (h : body = body' >>= liftM) (fuel : Nat) :
    iterate test body fuel = repeating test body' fuel >>= liftM := by
  subst h
  induction fuel with
  | zero => rfl
  | succ fuel ih =>
    simp only [iterate, repeating, bind_assoc]
    refine bind_congr fun again => ?_
    cases again with
    | false => rfl
    | true =>
      simp only [if_true, bind_assoc]
      refine bind_congr fun way => ?_
      rcases way with _ | ⟨_ | _ | _⟩
      · rfl
      · exact ih
      · rfl
      · rfl

mutual

theorem exec_eq (N : Numbers) (fuel : Nat) :
    (node : Node) → exec N fuel node = pursue N fuel node >>= liftM
  | .assignment name value => by simp only [exec, pursue, bind_assoc, pure_bind]; rfl
  | .ret none => by simp only [exec, pursue]; rfl
  | .ret (some node) => by simp only [exec, pursue, bind_assoc, pure_bind]; rfl
  | .breakLoop => by simp only [exec, pursue]; rfl
  | .conditional condition thenBlock elseBlock => by
    rw [exec, pursue, bind_assoc, execAll_eq N fuel thenBlock, execAll_eq N fuel elseBlock]
    refine bind_congr fun x => ?_
    cases isTrue x <;> rfl
  | .loop condition body => by
    rw [exec, pursue]
    exact iterate_eq (execAll_eq N fuel body) fuel
  | .literal _ | .identifier _ | .binary .. | .unary .. | .relation .. | .listLiteral _ | .index ..
  | .memberAccess .. | .structLiteral .. | .interrogative .. | .indexedAssignment ..
  | .functionDef .. | .structDef .. | .importModule _ => by
    simp only [exec, pursue, bind_assoc, pure_bind]; rfl

/-- What ends within the fuel ends within as many passes. -/
theorem execAll_eq (N : Numbers) (fuel : Nat) :
    (nodes : List Node) → execAll N fuel nodes = pursueAll N fuel nodes >>= liftM
  | [] => by simp only [execAll, pursueAll]; rfl
  | node :: rest => by
    simp only [execAll, pursueAll, exec_eq N fuel node, execAll_eq N fuel rest, bind_assoc]
    refine bind_congr fun way => ?_
    rcases way with _ | ⟨_ | _ | _⟩ <;> rfl

end

/-! ## Runs -/

/-- A label of a function with the instructions of its block. -/
def HasBlock (f : Func) (label : String) (code : List Instr) : Prop :=
  f.block? label = some ⟨label, code⟩

section

variable {ω : Type} {N : Numbers} {M : Machine ω}

/-- Where a run comes from a point `c` when the evaluation ends in a way and leaves the store `ρ`. -/
def Arrives (R : Library N M) (f : Func) (first : List Double) (loopEnd : Option String)
    (Q : Frame ω → Store → Prop) (passes : Nat) (c : Config ω) (q : List Instr) :
    Option Outcome → Store → Prop
  | some .normal, ρ => ∃ φ, M.Reaches f c ⟨q, φ⟩ ∧ Q φ ρ
  | some .broke, ρ => ∃ label φ, loopEnd = some label ∧ M.Reaches f c ⟨[.br label], φ⟩ ∧ Q φ ρ
  | some .returned, ρ =>
    ∃ φ, M.Reaches f c ⟨[.br exitLabel], φ⟩ ∧ R.printed φ.world = first ++ ρ.output
  | none, ρ => ∃ c', M.Lasts f passes c c' ∧ R.printed c'.frame.world = first ++ ρ.output

/-- Code between two points of a function does what an evaluation does. -/
def Follows (R : Library N M) (f : Func) (first : List Double) (loopEnd : Option String)
    (whole : Prop) (P Q : Frame ω → Store → Prop) (E : Nat → Eval (Option Outcome))
    (p q : List Instr) : Prop :=
  ∀ passes φ ρ, P φ ρ →
    Ends whole (E passes ρ) (Arrives R f first loopEnd Q passes ⟨p, φ⟩ q)

/-- Code computes an expression and leaves a datum that depends on its value by `D`. -/
def Gives (N : Numbers) (M : Machine ω) (whole : Prop) (P : Frame ω → Store → Prop) (node : Node)
    (D : Double → Datum) (code : List Instr) (v : Value) : Prop :=
  ∀ φ ρ, P φ ρ → Ends whole (eval N node ρ) fun x ρ' =>
    ∃ φ', M.execAll φ code = some φ' ∧ P φ' ρ' ∧ φ'.eval v = some (D x)

end

section

variable {ω : Type} {N : Numbers} {M : Machine ω} {R : Library N M} {f : Func}
  {first : List Double} {loopEnd : Option String} {whole : Prop} {P P' Q : Frame ω → Store → Prop}
  {p m q : List Instr} {passes k : Nat} {c c' : Config ω} {φ : Frame ω} {ρ : Store}
  {way : Option Outcome} {condition : Node} {code pYes pNo : List Instr} {flag : Value}
  {E E' : Nat → Eval (Option Outcome)}

/-- A run that gets to a point in at least `k` steps arrives where it arrives from there. -/
theorem Arrives.after (h : Arrives R f first loopEnd Q passes c' q way ρ)
    (hsteps : M.Lasts f k c c') : Arrives R f first loopEnd Q (k + passes) c q way ρ := by
  rcases way with _ | ⟨_ | _ | _⟩
  · obtain ⟨c'', hrest, hprinted⟩ := h
    exact ⟨c'', hsteps.trans hrest, hprinted⟩
  · obtain ⟨φ, hreach, hQ⟩ := h
    exact ⟨φ, hsteps.reaches.trans hreach, hQ⟩
  · obtain ⟨label, φ, hlabel, hreach, hQ⟩ := h
    exact ⟨label, φ, hlabel, hsteps.reaches.trans hreach, hQ⟩
  · obtain ⟨φ, hreach, hprinted⟩ := h
    exact ⟨φ, hsteps.reaches.trans hreach, hprinted⟩

theorem Arrives.afterReaches (h : Arrives R f first loopEnd Q passes c' q way ρ)
    (hreach : M.Reaches f c c') : Arrives R f first loopEnd Q passes c q way ρ := by
  have := h.after (Machine.lasts_of_reaches hreach)
  rwa [Nat.zero_add] at this

theorem Arrives.mono (h : Arrives R f first loopEnd P passes c q way ρ)
    (k : ∀ φ ρ, P φ ρ → Q φ ρ) : Arrives R f first loopEnd Q passes c q way ρ := by
  rcases way with _ | ⟨_ | _ | _⟩
  · exact h
  · obtain ⟨φ, hreach, hP⟩ := h
    exact ⟨φ, hreach, k φ ρ hP⟩
  · obtain ⟨label, φ, hlabel, hreach, hP⟩ := h
    exact ⟨label, φ, hlabel, hreach, k φ ρ hP⟩
  · exact h

/-- One stretch after another. A break goes past the second one. -/
theorem Follows.seq (h : Follows R f first loopEnd whole P P' E p m)
    (h' : Follows R f first loopEnd whole P' Q E' m q) (hbreak : loopEnd = none ∨ P' = Q) :
    Follows R f first loopEnd whole P Q (fun passes => do
      match ← E passes with
      | some .normal => E' passes
      | way => return way) p q := by
  intro passes φ ρ hP
  refine (h passes φ ρ hP).bind ?_
  rintro (_ | ⟨_ | _ | _⟩) ρ₁ harrives
  · exact harrives
  · obtain ⟨φ₁, hreach, hP₁⟩ := harrives
    exact (h' passes φ₁ ρ₁ hP₁).mono id fun _ _ h => h.afterReaches hreach
  · rcases hbreak with rfl | rfl
    · obtain ⟨label, φ₁, hlabel, -⟩ := harrives
      simp at hlabel
    · exact harrives
  · exact harrives

theorem ends_test {yes no : String}
    (hgives : Gives N M whole P condition (fun x => .truth (isTrue x)) code flag)
    (hyes : HasBlock f yes pYes) (hno : HasBlock f no pNo) (hP : P φ ρ) :
    Ends whole (eval N condition ρ) fun x ρ' => ∃ φ', P φ' ρ' ∧
      M.Lasts f 1 ⟨code ++ [.condBr flag yes no], φ⟩ ⟨if isTrue x then pYes else pNo, φ'⟩ := by
  refine (hgives φ ρ hP).mono id ?_
  rintro x ρ' ⟨φ', hrun, hP', hflag⟩
  refine ⟨φ', hP', ?_⟩
  have hstep : M.step f ⟨[.condBr flag yes no], φ'⟩ =
      some ⟨if isTrue x then pYes else pNo, φ'⟩ := by
    cases htrue : isTrue x <;>
      simp_all [Machine.step, Frame.word, Datum.truth, Datum.word?, HasBlock]
  have hcode : M.Reaches f ⟨code ++ [.condBr flag yes no], φ⟩ ⟨[.condBr flag yes no], φ'⟩ :=
    Machine.reaches_execAll hrun
  exact (Machine.lasts_of_reaches hcode).trans (Machine.lasts_of_step hstep)

theorem follows_conditional {yes no join : String}
    (hgives : Gives N M whole P condition (fun x => .truth (isTrue x)) code flag)
    (hyes : HasBlock f yes pYes) (hno : HasBlock f no pNo) (hjoin : HasBlock f join q)
    (hfirst : Follows R f first loopEnd whole P P E pYes [.br join])
    (hsecond : Follows R f first loopEnd whole P P E' pNo [.br join]) :
    Follows R f first loopEnd whole P P (fun passes => do
      if isTrue (← eval N condition) then E passes else E' passes)
      (code ++ [.condBr flag yes no]) q := by
  intro passes φ ρ hP
  refine (ends_test hgives hyes hno hP).bind ?_
  rintro x ρ₁ ⟨φ₁, hP₁, htest⟩
  have hbranch : Ends whole ((if isTrue x then E passes else E' passes) ρ₁)
      (Arrives R f first loopEnd P passes ⟨if isTrue x then pYes else pNo, φ₁⟩ [.br join]) := by
    cases isTrue x with
    | true => exact hfirst passes φ₁ ρ₁ hP₁
    | false => exact hsecond passes φ₁ ρ₁ hP₁
  -- Either way control comes to the join, unless the branch leaves elsewhere.
  refine hbranch.mono id ?_
  rintro (_ | ⟨_ | _ | _⟩) ρ' harrives <;> refine Arrives.afterReaches ?_ htest.reaches
  · exact harrives
  · obtain ⟨φ', hreach, hP'⟩ := harrives
    exact ⟨φ', hreach.trans (Machine.reaches_br hjoin), hP'⟩
  · exact harrives
  · exact harrives

/-- The first `k` passes of a loop, from its test on. Every pass takes a step at least, so that `k`
passes take `k`. -/
theorem ends_repeating (loopEnd : Option String) {test again done : String} {pBody : List Instr}
    {body : Eval (Option Outcome)}
    (hgives : Gives N M whole P condition (fun x => .truth (isTrue x)) code flag)
    (htest : HasBlock f test (code ++ [.condBr flag again done]))
    (hagain : HasBlock f again pBody) (hdone : HasBlock f done q)
    (hprinted : ∀ φ ρ, P φ ρ → R.printed φ.world = first ++ ρ.output)
    (hbody : ∀ φ ρ, P φ ρ → Ends whole (body ρ)
      (Arrives R f first (some done) P passes ⟨pBody, φ⟩ [.br test])) :
    ∀ k ≤ passes, ∀ φ ρ, P φ ρ →
      Ends whole (repeating (isTrue <$> eval N condition) body k ρ)
        (Arrives R f first loopEnd P k ⟨code ++ [.condBr flag again done], φ⟩ q) := by
  intro k
  induction k with
  | zero =>
    intro _ φ ρ hP
    exact ⟨_, Machine.lasts_of_reaches .refl, hprinted φ ρ hP⟩
  | succ k ih =>
    intro hk φ ρ hP
    rw [repeating, map_eq_pure_bind, bind_assoc]
    refine (ends_test hgives hagain hdone hP).bind ?_
    rintro x ρ₁ ⟨φ₁, hP₁, hsteps⟩
    rw [pure_bind]
    cases htrue : isTrue x with
    | false =>
      rw [htrue] at hsteps
      exact ⟨φ₁, hsteps.reaches, hP₁⟩
    | true =>
      rw [htrue] at hsteps
      rw [if_pos rfl]
      refine (hbody φ₁ ρ₁ hP₁).bind ?_
      rintro (_ | ⟨_ | _ | _⟩) ρ₂ harrives
      · -- A loop inside has made all its passes, which are enough for this one.
        obtain ⟨c, hlasts, hout⟩ := harrives
        exact ⟨c, (hsteps.trans hlasts).mono (by omega), hout⟩
      · -- The pass comes back to the test, and the rest of the passes follow.
        obtain ⟨φ₂, hreach, hP₂⟩ := harrives
        refine (ih (Nat.le_of_succ_le hk) φ₂ ρ₂ hP₂).mono id fun way ρ' harrives' => ?_
        have hall := (harrives'.afterReaches (hreach.trans (Machine.reaches_br htest))).after hsteps
        rwa [Nat.add_comm] at hall
      · obtain ⟨label, φ₂, hlabel, hreach, hP₂⟩ := harrives
        obtain rfl := Option.some.inj hlabel
        exact ⟨φ₂, hsteps.reaches.trans (hreach.trans (Machine.reaches_br hdone)), hP₂⟩
      · obtain ⟨φ₂, hreach, hout⟩ := harrives
        exact ⟨φ₂, hsteps.reaches.trans hreach, hout⟩

end

end ScriptCompiler.Numeric
