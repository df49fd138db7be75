import ScriptCompiler.Lowering.Stmt

/-!
# Names, labels and symbols by their text

The names of a unit, and what the text of a made-up name tells: a label ends in the number it was
handed out with, so that no two labels of a unit agree, and the symbols that the compiler makes up
for its own use have a dot in them, which no identifier has.
-/

namespace ScriptCompiler

namespace Node

mutual

/-- The names that stand in a node: of variables, functions, parameters, struct types, fields,
members and modules. -/
def names : Node → List String
  | .literal _ | .breakLoop => []
  | .identifier name => [name]
  | .binary _ left right => left.names ++ right.names
  | .unary _ operand => operand.names
  | .assignment name value => name :: value.names
  | .indexedAssignment target position value => target.names ++ position.names ++ value.names
  | .functionDef name params body => name :: params ++ namesAll body
  | .ret value => namesOption value
  | .conditional condition thenBlock elseBlock =>
    condition.names ++ namesAll thenBlock ++ namesAll elseBlock
  | .loop condition body => condition.names ++ namesAll body
  | .listLiteral elements => namesAll elements
  | .index list position => list.names ++ position.names
  | .memberAccess object member => member :: object.names
  | .structDef name fields => name :: fields
  | .structLiteral name args => name :: namesAll args
  | .interrogative _ target => target.names
  | .relation callee argument => callee.names ++ argument.names
  | .importModule module => [module]

/-- The names that stand in several nodes. -/
def namesAll : List Node → List String
  | [] => []
  | n :: rest => n.names ++ namesAll rest

/-- The names that stand in an optional node. -/
def namesOption : Option Node → List String
  | none => []
  | some n => n.names

end

end Node

theorem append_cons_inj_of_notMem {c : Char} {a b x y : List Char} (hx : c ∉ x) (hy : c ∉ y)
    (h : a ++ c :: x = b ++ c :: y) : x = y := by
  induction a generalizing b with
  | nil =>
    cases b with
    | nil => simpa using h
    | cons d b =>
      simp only [List.nil_append, List.cons_append, List.cons.injEq] at h
      exact absurd (by rw [h.2]; simp) hx
  | cons e a ih =>
    cases b with
    | nil =>
      simp only [List.nil_append, List.cons_append, List.cons.injEq] at h
      exact absurd (by rw [← h.2]; simp) hy
    | cons d b =>
      simp only [List.cons_append, List.cons.injEq] at h
      exact ih h.2

theorem toString_nat_inj {n k : Nat} (h : toString n = toString k) : n = k := by
  have hl : Nat.toDigits 10 n = Nat.toDigits 10 k := by
    rw [← Nat.toList_repr, ← Nat.toList_repr]
    exact congrArg String.toList h
  rw [← Nat.ofDigitChars_ten_toDigits (n := n), hl, Nat.ofDigitChars_ten_toDigits]

namespace Lowering

theorem toList_label (stem : String) (n : Nat) :
    (stem ++ "_" ++ toString n).toList = stem.toList ++ '_' :: Nat.toDigits 10 n := by
  simp [String.toList_append]

theorem label_inj {stem stem' : String} {n k : Nat}
    (h : stem ++ "_" ++ toString n = stem' ++ "_" ++ toString k) : n = k := by
  have hl := congrArg String.toList h
  rw [toList_label, toList_label] at hl
  have hd := append_cons_inj_of_notMem Nat.underscore_not_in_toDigits
    Nat.underscore_not_in_toDigits hl
  rw [← Nat.ofDigitChars_ten_toDigits (n := n), hd, Nat.ofDigitChars_ten_toDigits]

theorem label_ne {stem fixed : String} {n : Nat} (h : '_' ∉ fixed.toList) :
    stem ++ "_" ++ toString n ≠ fixed := by
  rintro rfl
  rw [toList_label] at h
  simp at h

/-- A label that was handed out with a number below `n`, or one of the two fixed labels. -/
def LabelBelow (n : Nat) (label : String) : Prop :=
  label = "entry" ∨ label = exitLabel ∨ ∃ stem k, k < n ∧ label = stem ++ "_" ++ toString k

theorem LabelBelow.mono {n k : Nat} {label : String} (h : LabelBelow n label) (hnk : n ≤ k) :
    LabelBelow k label := by
  rcases h with h | h | ⟨stem, j, hj, h⟩
  · exact .inl h
  · exact .inr (.inl h)
  · exact .inr (.inr ⟨stem, j, by omega, h⟩)

theorem LabelBelow.next (stem : String) (n : Nat) :
    LabelBelow (n + 1) (stem ++ "_" ++ toString n) :=
  .inr (.inr ⟨stem, n, by omega, rfl⟩)

theorem LabelBelow.ne {n : Nat} {label : String} (h : LabelBelow n label) (stem : String) :
    label ≠ stem ++ "_" ++ toString n := by
  rcases h with rfl | rfl | ⟨stem', k, hk, rfl⟩
  · exact (label_ne (by decide)).symm
  · exact (label_ne (by decide)).symm
  · intro heq
    have := label_inj heq
    omega

end Lowering

end ScriptCompiler
