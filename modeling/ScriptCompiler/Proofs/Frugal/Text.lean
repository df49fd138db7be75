import ScriptCompiler.Lowering.Generate

/-!
# Text that makes numbers and words only

A value that is a number or a word needs no memory but the slot of its variable. Text that makes no
other value is described by `Thrift.allows`: it has no strings and no structs, it assigns no variable
whose history is asked about, and it writes a list only as the argument of something that takes the
list apart.
-/

namespace ScriptCompiler

mutual

/-- The names of the functions that a statement defines, also inside of others. -/
def Node.definedNames : Node → List String
  | .functionDef name _ body => name :: definedNamesAll body
  | .conditional _ thenBlock elseBlock => definedNamesAll thenBlock ++ definedNamesAll elseBlock
  | .loop _ body => definedNamesAll body
  | _ => []

/-- The names of the functions that statements define. -/
def Node.definedNamesAll : List Node → List String
  | [] => []
  | node :: rest => node.definedNames ++ definedNamesAll rest

end

/-- The node is the name of the function that makes a string of a value. -/
def Node.isStr : Node → Bool
  | .identifier name => name = "str"
  | _ => false

namespace Lowering

/-- What is known of a unit before its text is looked at. -/
structure Thrift where
  /-- Variables whose history the program asks about. -/
  observed : List String
  /-- The functions that are noted at the start. -/
  functions : List Routine
  /-- The names of all functions of the unit. -/
  defined : List String

/-- What is called takes a list apart that is written as its argument: a function at top level with
two parameters or more, or the power function if the unit has none of its name. -/
def Thrift.takesApart (T : Thrift) : Node → Bool
  | .identifier name =>
    match T.functions.find? (·.name = name) with
    | some r => 1 < r.params.length
    | none => name = "pow" && name ∉ T.defined
  | .memberAccess (.identifier module) member =>
    (T.functions.find? (·.symbol = memberSymbol module member)).any (1 < ·.params.length)
  | _ => false

mutual

/-- The text makes no value but numbers and words. -/
def Thrift.allows (T : Thrift) : Node → Bool
  | .literal (.text _) | .listLiteral _ | .structLiteral .. => false
  | .literal _ | .identifier _ | .breakLoop | .structDef .. | .importModule _ => true
  | .binary _ left right => T.allows left && T.allows right
  | .unary _ operand => T.allows operand
  | .assignment name value => name ∉ T.observed && T.allows value
  | .indexedAssignment target index value => T.allows target && T.allows index && T.allows value
  | .functionDef _ params body => params.all (· ∉ T.observed) && T.allowsAll body
  | .ret value => T.allowsOption value
  | .conditional condition thenBlock elseBlock =>
    T.allows condition && T.allowsAll thenBlock && T.allowsAll elseBlock
  | .loop condition body => T.allows condition && T.allowsAll body
  | .index list index => T.allows list && T.allows index
  | .memberAccess object _ => T.allows object
  | .interrogative _ target => T.allows target
  | .relation callee (.listLiteral elements) =>
    !callee.isStr && T.takesApart callee && T.allowsAll elements
  | .relation callee argument => !callee.isStr && T.allows argument

/-- The text of several nodes makes no value but numbers and words. -/
def Thrift.allowsAll (T : Thrift) : List Node → Bool
  | [] => true
  | node :: rest => T.allows node && T.allowsAll rest

/-- The text of a node that may be missing makes no value but numbers and words. -/
def Thrift.allowsOption (T : Thrift) : Option Node → Bool
  | none => true
  | some node => T.allows node

end

/-- A function of a unit whose text makes no value but numbers and words. -/
structure Thrift.Fits (T : Thrift) (r : Routine) : Prop where
  name : r.name ∈ T.defined
  params : ∀ name ∈ r.params, name ∉ T.observed
  body : T.allowsAll r.body = true
  inner : Node.definedNamesAll r.body ⊆ T.defined

variable {T : Thrift}

theorem fits_of_allows {name symbol : String} {params : List String} {body : List Node}
    (h : T.allows (.functionDef name params body) = true)
    (hdefined : (Node.functionDef name params body).definedNames ⊆ T.defined) :
    T.Fits ⟨name, symbol, params, body⟩ := by
  simp only [Thrift.allows, Bool.and_eq_true, List.all_eq_true, decide_eq_true_eq] at h
  obtain ⟨hname, hinner⟩ := List.cons_subset.mp hdefined
  exact ⟨hname, h.1, h.2, hinner⟩

theorem allows_relation {callee argument : Node} (h : T.allows (.relation callee argument) = true) :
    callee.isStr = false ∧
      (writtenElements argument = none → T.allows argument = true) ∧
      ∀ nodes, argument = .listLiteral nodes → T.takesApart callee = true ∧ T.allowsAll nodes = true := by
  by_cases hlist : ∃ nodes, argument = .listLiteral nodes
  · obtain ⟨nodes, rfl⟩ := hlist
    simp only [Thrift.allows, Bool.and_eq_true, Bool.not_eq_true'] at h
    refine ⟨h.1.1, by simp [writtenElements], ?_⟩
    rintro _ ⟨⟩
    exact ⟨h.1.2, h.2⟩
  · have hnot : ∀ nodes, argument ≠ .listLiteral nodes := fun nodes heq => hlist ⟨nodes, heq⟩
    rw [Thrift.allows, Bool.and_eq_true, Bool.not_eq_true'] at h
    · exact ⟨h.1, fun _ => h.2, fun nodes heq => absurd heq (hnot nodes)⟩
    · exact hnot

end Lowering

end ScriptCompiler
