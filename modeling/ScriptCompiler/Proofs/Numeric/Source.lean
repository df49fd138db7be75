import ScriptCompiler.Catalog
import ScriptCompiler.Proofs.Machine
import ScriptCompiler.Source.Node

/-!
# The numeric fragment and its meaning

A program of the numeric fragment computes with numbers alone: literals, variables, operators, the
mathematical functions, assignments, conditionals, loops, `break`, `return` and `print`. This module
gives its meaning in terms of the source, without reference to how it is compiled.

Every value is a number. A truth value is one or zero, and a number counts as true when it is
ordered and not zero. Both operands of `and` and `or` are evaluated. Reading a variable that has no
value is an error, and an evaluation that fails or does not come to its end within the fuel given to
its loops is `none`.
-/

namespace ScriptCompiler.Numeric

/-- The mathematical functions of one argument. -/
inductive Math where
  | sqrt | abs | floor | ceil | sin | cos | exp | log
deriving DecidableEq

/-- The function that a word of the language stands for. -/
def Math.ofWord? : String → Option Math
  | "sqrt" => some .sqrt
  | "abs" => some .abs
  | "floor" => some .floor
  | "ceil" => some .ceil
  | "sin" => some .sin
  | "cos" => some .cos
  | "exp" => some .exp
  | "log" => some .log
  | _ => none

/-- Arithmetic on numbers with the functions of a mathematical library. Nothing is assumed of
them. -/
structure Numbers extends Ir.Arithmetic where
  math : Math → Double → Double
  pow : Double → Double → Double

/-- The functions of the fragment. -/
inductive Builtin where
  | print
  | pow
  | math (f : Math)
deriving DecidableEq

/-- The function with a name. -/
def Builtin.ofName? : String → Option Builtin
  | "print" => some .print
  | "pow" => some .pow
  | other => (Math.ofWord? other).map .math

/-! ## Values -/

/-- A truth value as a number. -/
def ofTruth (b : Bool) : Double := if b then .one else .zero

/-- The number counts as true. -/
def isTrue (x : Double) : Bool := x.differs .zero

/-- The operation behind a binary operator. -/
def binary? (N : Numbers) : String → Option (Double → Double → Double)
  | "+" => some N.add
  | "-" => some N.sub
  | "*" => some N.mul
  | "/" => some N.div
  | "%" => some N.rem
  | "=" => some fun x y => ofTruth (x.equals y)
  | "!=" => some fun x y => ofTruth (x.differs y)
  | "<" => some fun x y => ofTruth (x.less y)
  | ">" => some fun x y => ofTruth (y.less x)
  | "<=" => some fun x y => ofTruth (x.atMost y)
  | ">=" => some fun x y => ofTruth (y.atMost x)
  | "and" => some fun x y => ofTruth (isTrue x && isTrue y)
  | "or" => some fun x y => ofTruth (isTrue x || isTrue y)
  | _ => none

/-- The operation behind a unary operator. -/
def unary? (N : Numbers) : String → Option (Double → Double)
  | "not" => some fun x => ofTruth (!isTrue x)
  | "-" => some N.neg
  | _ => none

/-- What a program has done so far. -/
structure Store where
  /-- The variables that have a value. -/
  vars : String → Option Double := fun _ => none
  /-- The numbers that were printed, in order. -/
  output : List Double := []

/-- The store with a variable given a value. -/
def Store.set (σ : Store) (name : String) (x : Double) : Store :=
  { σ with vars := fun name' => if name' = name then some x else σ.vars name' }

/-- The store with a number printed. -/
def Store.print (σ : Store) (x : Double) : Store := { σ with output := σ.output ++ [x] }

/-- An evaluation, which may change the store and may fail. -/
abbrev Eval := StateT Store Option

/-- The value of a name. -/
def nameValue (name : String) : Eval Double :=
  if name = "True" then return ofTruth true
  else if name = "False" then return ofTruth false
  else do
    let σ ← get
    σ.vars name

/-! ## Expressions -/

mutual

/-- The value of an expression. Operands are evaluated from left to right. -/
def eval (N : Numbers) : Node → Eval Double
  | .literal (.number x) => return x
  | .literal .null => return .zero
  | .identifier name => nameValue name
  | .binary op left right => do
    let x ← eval N left
    let y ← eval N right
    let f ← binary? N op
    return f x y
  | .unary op operand => do
    let x ← eval N operand
    let f ← unary? N op
    return f x
  | .relation (.identifier name) argument => do
    match Builtin.ofName? name with
    | some .print =>
      let x ← eval N argument
      modify (·.print x)
      return .zero
    | some (.math f) =>
      let x ← eval N argument
      return N.math f x
    | some .pow =>
      match ← evalElements N argument with
      | [x, y] => return N.pow x y
      | _ => failure
    | none => failure
  | _ => failure

/-- The values of the elements of an expression that is written as a list. -/
def evalElements (N : Numbers) : Node → Eval (List Double)
  | .listLiteral elements => evalAll N elements
  | _ => failure

/-- The values of several expressions. -/
def evalAll (N : Numbers) : List Node → Eval (List Double)
  | [] => return []
  | node :: rest => do
    let x ← eval N node
    let xs ← evalAll N rest
    return x :: xs

end

/-! ## Statements -/

/-- How a statement ends. -/
inductive Outcome where
  /-- Control goes on behind it. -/
  | normal
  /-- The innermost loop is left. -/
  | broke
  /-- The program is left. -/
  | returned
deriving DecidableEq

/-- A loop that tests before every pass and makes less than `fuel` passes. -/
def iterate (test : Eval Bool) (body : Eval Outcome) : (fuel : Nat) → Eval Outcome
  | 0 => failure
  | fuel + 1 => do
    if ← test then
      match ← body with
      | .normal => iterate test body fuel
      | .broke => return .normal
      | .returned => return .returned
    else return .normal

mutual

/-- Carry out a statement. -/
def exec (N : Numbers) (fuel : Nat) : Node → Eval Outcome
  | .assignment name value => do
    let x ← eval N value
    modify (·.set name x)
    return .normal
  | .ret none => return .returned
  | .ret (some node) => do
    discard (eval N node)
    return .returned
  | .breakLoop => return .broke
  | .conditional condition thenBlock elseBlock => do
    if isTrue (← eval N condition) then execAll N fuel thenBlock else execAll N fuel elseBlock
  | .loop condition body => iterate (isTrue <$> eval N condition) (execAll N fuel body) fuel
  | node => do
    discard (eval N node)
    return .normal

/-- Carry out statements one after the other, as long as control goes on. -/
def execAll (N : Numbers) (fuel : Nat) : List Node → Eval Outcome
  | [] => return .normal
  | node :: rest => do
    match ← exec N fuel node with
    | .normal => execAll N fuel rest
    | outcome => return outcome

end

/-! ## The fragment -/

/-- The binary operators. -/
def binaryOperators : List String :=
  ["+", "-", "*", "/", "%", "=", "!=", "<", ">", "<=", ">=", "and", "or"]

/-- The unary operators. -/
def unaryOperators : List String := ["not", "-"]

mutual

/-- The node is an expression of the fragment. The names `bound` are assigned further up in the
text; a word such as `converged` that is not among them is a predicate and no variable. -/
def isExpr (bound : List String) : Node → Bool
  | .literal (.number _) | .literal .null => true
  | .identifier name => name ∈ bound || (Catalog.predicate? name).isNone
  | .binary op left right => op ∈ binaryOperators && isExpr bound left && isExpr bound right
  | .unary op operand => op ∈ unaryOperators && isExpr bound operand
  | .relation (.identifier name) argument =>
    match Builtin.ofName? name with
    | some .pow => isPair bound argument
    | some _ => isExpr bound argument
    | none => false
  | _ => false

/-- The node is written as a list of two expressions of the fragment. -/
def isPair (bound : List String) : Node → Bool
  | .listLiteral elements => elements.length = 2 && areExprs bound elements
  | _ => false

/-- The nodes are expressions of the fragment. -/
def areExprs (bound : List String) : List Node → Bool
  | [] => true
  | node :: rest => isExpr bound node && areExprs bound rest

end

mutual

/-- The variables that a statement assigns, in whatever branch. -/
def assigned : Node → List String
  | .assignment name _ => [name]
  | .conditional _ thenBlock elseBlock => assignedAll thenBlock ++ assignedAll elseBlock
  | .loop _ body => assignedAll body
  | _ => []

/-- The variables that statements assign. -/
def assignedAll : List Node → List String
  | [] => []
  | node :: rest => assigned node ++ assignedAll rest

end

mutual

/-- The node is a statement of the fragment. -/
def isStmt (bound : List String) : Node → Bool
  | .assignment _ value => isExpr bound value
  | .ret value => value.all (isExpr bound)
  | .breakLoop => true
  | .conditional condition thenBlock elseBlock =>
    isExpr bound condition && isBlock bound thenBlock
      && isBlock (bound ++ assignedAll thenBlock) elseBlock
  | .loop condition body => isExpr bound condition && isBlock bound body
  | node => isExpr bound node

/-- The nodes are statements of the fragment. -/
def isBlock (bound : List String) : List Node → Bool
  | [] => true
  | node :: rest => isStmt bound node && isBlock (bound ++ assigned node) rest

end

/-! ## The machine -/

/-- The function of the mathematical library with a symbol. -/
def Math.ofSymbol? : String → Option Math
  | "sqrt" => some .sqrt
  | "fabs" => some .abs
  | "floor" => some .floor
  | "ceil" => some .ceil
  | "sin" => some .sin
  | "cos" => some .cos
  | "exp" => some .exp
  | "log" => some .log
  | _ => none

/-- What the functions do that programs of the fragment link against: one prints a number, the
others compute. The state is the output so far. -/
def call (N : Numbers) (symbol : String) (args : List Ir.Datum) (output : List Double) :
    Option (Option Ir.Datum × List Double) :=
  match symbol, args with
  | "eigen_print_double", [.number x] => some (none, output ++ [x])
  | "pow", [.number x, .number y] => some (some (.number (N.pow x y)), output)
  | symbol, [.number x] => do
    let f ← Math.ofSymbol? symbol
    return (some (.number (N.math f x)), output)
  | _, _ => none

/-- The machine that programs of the fragment run on. -/
def machine (N : Numbers) : Ir.Machine (List Double) := ⟨N.toArithmetic, call N⟩

end ScriptCompiler.Numeric
