import ScriptCompiler.Proofs.Numeric.Source

/-!
# Programs that assign their variables at the top

Programs of numbers, variables, operators, assignments, conditionals, loops, `break` and `print`, in
which every variable is assigned before the first branch. A program need not end, so its meaning is
followed pass by pass: `followAll N passes statements` carries out statements whose loops may make
so many passes each, and says whether they came to their end. What a program shows is what it prints
for some number of passes.

A variable whose first value is the bare name of another may share the record of that other. Where
two variables are so related and neither is assigned again, this makes no difference (`isApart`).
-/

namespace ScriptCompiler.Observed

open Numeric

/-- The node is an expression. The names `bound` are assigned further up in the text; a word such as
`converged` that is not among them is a predicate and no variable. -/
def isExpr (bound : List String) : Node → Bool
  | .literal (.number _) | .literal .null => true
  | .identifier name => name ∈ bound || (Catalog.predicate? name).isNone
  | .binary op left right => op ∈ binaryOperators && isExpr bound left && isExpr bound right
  | .unary op operand => op ∈ unaryOperators && isExpr bound operand
  | .relation (.identifier name) argument => name = "print" && isExpr bound argument
  | _ => false

mutual

/-- The node is a statement. -/
def isStmt (bound : List String) : Node → Bool
  | .assignment _ value => isExpr bound value
  | .breakLoop => true
  | .conditional condition thenBlock elseBlock =>
    isExpr bound condition && isBlock bound thenBlock
      && isBlock (bound ++ assignedAll thenBlock) elseBlock
  | .loop condition body => isExpr bound condition && isBlock bound body
  | node => isExpr bound node

/-- The nodes are statements. -/
def isBlock (bound : List String) : List Node → Bool
  | [] => true
  | node :: rest => isStmt bound node && isBlock (bound ++ assigned node) rest

end

theorem isExpr_numeric {bound : List String} :
    (node : Node) → isExpr bound node → Numeric.isExpr bound node
  | .literal value, h => by cases value <;> simp_all [isExpr, Numeric.isExpr]
  | .identifier name, h => by simpa [isExpr, Numeric.isExpr] using h
  | .binary op left right, h => by
    simp only [isExpr, Numeric.isExpr, Bool.and_eq_true] at h ⊢
    exact ⟨⟨h.1.1, isExpr_numeric left h.1.2⟩, isExpr_numeric right h.2⟩
  | .unary op operand, h => by
    simp only [isExpr, Numeric.isExpr, Bool.and_eq_true] at h ⊢
    exact ⟨h.1, isExpr_numeric operand h.2⟩
  | .relation callee argument, h => by
    cases callee with
    | identifier name =>
      simp only [isExpr, Bool.and_eq_true, decide_eq_true_eq] at h
      obtain ⟨rfl, h⟩ := h
      rw [Numeric.isExpr]
      exact isExpr_numeric argument h
    | _ => simp [isExpr] at h
  | .listLiteral _, h | .index .., h | .memberAccess .., h | .structLiteral .., h
  | .interrogative .., h | .assignment .., h | .indexedAssignment .., h | .functionDef .., h
  | .ret _, h | .breakLoop, h | .conditional .., h | .loop .., h | .structDef .., h
  | .importModule _, h => by simp [isExpr] at h

mutual

theorem isStmt_numeric : (node : Node) → ∀ bound, isStmt bound node → Numeric.isStmt bound node
  | .assignment name value, bound, h => isExpr_numeric value h
  | .breakLoop, _, _ => rfl
  | .conditional condition thenBlock elseBlock, bound, h => by
    simp only [isStmt, Numeric.isStmt, Bool.and_eq_true] at h ⊢
    exact ⟨⟨isExpr_numeric condition h.1.1, isBlock_numeric thenBlock _ h.1.2⟩,
      isBlock_numeric elseBlock _ h.2⟩
  | .loop condition body, bound, h => by
    simp only [isStmt, Numeric.isStmt, Bool.and_eq_true] at h ⊢
    exact ⟨isExpr_numeric condition h.1, isBlock_numeric body _ h.2⟩
  | .literal _, _, h | .identifier _, _, h | .binary .., _, h | .unary .., _, h
  | .relation .., _, h => isExpr_numeric _ h
  | .listLiteral _, _, h | .index .., _, h | .memberAccess .., _, h | .structLiteral .., _, h
  | .interrogative .., _, h | .indexedAssignment .., _, h | .functionDef .., _, h | .ret _, _, h
  | .structDef .., _, h | .importModule _, _, h => by simp [isStmt, isExpr] at h

/-- The statements are among those of the numeric fragment. -/
theorem isBlock_numeric : (nodes : List Node) → ∀ bound, isBlock bound nodes →
    Numeric.isBlock bound nodes
  | [], _, _ => rfl
  | node :: rest, bound, h => by
    simp only [isBlock, Numeric.isBlock, Bool.and_eq_true] at h ⊢
    exact ⟨isStmt_numeric node bound h.1, isBlock_numeric rest _ h.2⟩

end

/-- Control may go one way or another in the statement. -/
def branches : Node → Bool
  | .conditional .. | .loop .. => true
  | _ => false

/-- From the first branch on, only variables are assigned that were before. -/
def assignsAtTop (bound : List String) : List Node → Bool
  | [] => true
  | node :: rest =>
    if branches node then (assignedAll (node :: rest)).all (· ∈ bound)
    else assignsAtTop (bound ++ assigned node) rest

/-- Where the first value of a variable is the bare name of another, neither is assigned again. -/
def isApart (bound : List String) : List Node → Bool
  | [] => true
  | node :: rest =>
    (match node with
      | .assignment name (.identifier other) =>
        name ∈ bound || other ∉ bound || (name ∉ assignedAll rest && other ∉ assignedAll rest)
      | _ => true) && isApart (bound ++ assigned node) rest

/-! ## Meaning -/

/-- How far statements have come. -/
inductive Course where
  /-- Control goes on behind them. -/
  | normal
  /-- The innermost loop is left. -/
  | broke
  /-- A loop has made all the passes that it was given. -/
  | unfinished
deriving DecidableEq

/-- A loop that tests before every pass, as far as its first passes. -/
def repeated (test : Eval Bool) (body : Eval Course) : (passes : Nat) → Eval Course
  | 0 => return .unfinished
  | passes + 1 => do
    if ← test then
      match ← body with
      | .normal => repeated test body passes
      | .broke => return .normal
      | .unfinished => return .unfinished
    else return .normal

mutual

/-- Carry out a statement. -/
def follow (N : Numbers) (passes : Nat) : Node → Eval Course
  | .assignment name value => do
    let x ← eval N value
    modify (·.set name x)
    return .normal
  | .breakLoop => return .broke
  | .conditional condition thenBlock elseBlock => do
    if isTrue (← eval N condition) then followAll N passes thenBlock
    else followAll N passes elseBlock
  | .loop condition body => repeated (isTrue <$> eval N condition) (followAll N passes body) passes
  | node => do
    discard (eval N node)
    return .normal

/-- Carry out statements one after the other, as long as control goes on. -/
def followAll (N : Numbers) (passes : Nat) : List Node → Eval Course
  | [] => return .normal
  | node :: rest => do
    match ← follow N passes node with
    | .normal => followAll N passes rest
    | course => return course

end

/-- A program prints the numbers `out` and maybe more. -/
def Shows (N : Numbers) (statements : List Node) (out : List Double) : Prop :=
  ∃ passes course σ, followAll N passes statements {} = some (course, σ) ∧ out <+: σ.output

end ScriptCompiler.Observed
