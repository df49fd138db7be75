import Mathlib.Algebra.Group.Nat.Defs
import Mathlib.Data.List.Basic
import ScriptCompiler.Proofs.Names
import ScriptCompiler.Proofs.Verdict

/-!
# The text of an instruction tells the instruction

An instruction is written as its register, its opcode and its arguments, and the types of many
operands are left out. Still no two instructions that are well typed have one text: what is left out
follows from the typing rules, and what is written can be read from left to right. A word ends at the
first delimiter, since no name has one, and a type ends where its brackets close.

The text is taken to `Piece`s. Two lists of pieces are `Aligned` if reading them side by side meets
pieces of one sort until the texts differ, and then equal texts are those of equal pieces
(`Aligned.eq_of_textOf`). The arguments of two instructions with one opcode are aligned
(`Instr.aligned_arguments`), and so the instructions are equal (`Instr.eq_of_text`).
-/

namespace ScriptCompiler

namespace Text

/-- The characters that end a word in the text of an instruction. -/
def delimiters : List Char := [' ', ',', '(', ')', ']']

/-- A text without delimiters, such as one of letters, digits, underscores and dots. -/
def Unbroken (w : String) : Prop := ∀ c ∈ w.toList, c ∉ delimiters

instance (w : String) : Decidable (Unbroken w) :=
  List.decidableBAll (· ∉ delimiters) w.toList

/-- A text that does not continue the word in front of it. -/
def Ends (u : String) : Prop := ∀ c ∈ u.toList.head?, c ∈ delimiters

section

variable {w w' u v : String}

theorem Unbroken.append (h : Unbroken w) (h' : Unbroken w') : Unbroken (w ++ w') := by
  intro c hc
  rw [String.toList_append, List.mem_append] at hc
  exact hc.elim (h c) (h' c)

theorem isDigit_of_mem_toString {n : Nat} {c : Char} (h : c ∈ (toString n).toList) :
    c.isDigit = true :=
  Nat.isDigit_of_mem_toDigits (by decide) (by decide) (Nat.toList_repr ▸ h)

theorem unbroken_toString (n : Nat) : Unbroken (toString n) := by
  intro c hc hmem
  have hnone : ∀ d ∈ delimiters, d.isDigit = false := by simp [delimiters, Char.isDigit]
  simpa [hnone c hmem] using isDigit_of_mem_toString hc

theorem toString_int_inj {n k : Int} (h : toString n = toString k) : n = k := by
  have hsign : ∀ a b : Nat, toString a ≠ "-" ++ toString b := by
    intro a b heq
    have hdash : '-' ∈ (toString a).toList := by simp [heq]
    simpa using isDigit_of_mem_toString hdash
  simp only [Int.toString_eq_repr, Int.repr_eq_if] at h
  split at h <;> split at h
  · have := toString_nat_inj h
    omega
  · exact absurd h (hsign _ _)
  · exact absurd h.symm (hsign _ _)
  · have := toString_nat_inj ((String.append_right_inj _).mp h)
    omega

theorem takeWhile_append (hw : Unbroken w) (hu : Ends u) :
    (w ++ u).toList.takeWhile (· ∉ delimiters) = w.toList := by
  have hrest : u.toList.takeWhile (· ∉ delimiters) = [] := by
    unfold Ends at hu
    cases hl : u.toList with
    | nil => rfl
    | cons c l => simp [hu c (by simp [hl])]
  rw [String.toList_append, List.takeWhile_append_of_pos (by simpa [Unbroken] using hw), hrest,
    List.append_nil]

theorem Unbroken.append_inj (hw : Unbroken w) (hw' : Unbroken w') (hu : Ends u) (hv : Ends v)
    (h : w ++ u = w' ++ v) : w = w' ∧ u = v := by
  have hword := takeWhile_append hw hu
  rw [h, takeWhile_append hw' hv] at hword
  obtain rfl := String.toList_inj.mp hword
  exact ⟨rfl, (String.append_right_inj _).mp h⟩

end

/-! ## Hexadecimal numerals -/

theorem hexDigit_mod (n : Nat) : hexDigit (n % 16) = hexDigit n := by
  simp only [hexDigit, Nat.mod_mod]

theorem hexValue?_hexDigit (n : Nat) : hexValue? (hexDigit n) = some (n % 16) := by
  have hsmall : ∀ k < 16, hexValue? (hexDigit k) = some k := by decide
  rw [← hexDigit_mod, hsmall _ (Nat.mod_lt _ (by decide))]

theorem ofHex?_append (digits : List Char) (c : Char) :
    ofHex? (digits ++ [c]) = do return 16 * (← ofHex? digits) + (← hexValue? c) := by
  simp [ofHex?]

theorem ofHex?_hexDigits (width n : Nat) : ofHex? (hexDigits width n) = some (n % 16 ^ width) := by
  induction width generalizing n with
  | zero => simp [hexDigits, ofHex?, Nat.mod_one]
  | succ width ih =>
    rw [hexDigits, ofHex?_append, ih, hexValue?_hexDigit, Nat.pow_succ', Nat.mod_mul]
    exact congrArg some (Nat.add_comm _ _)

theorem unbroken_hex (width n : Nat) : Unbroken (hex width n) := by
  rw [Unbroken, hex, String.toList_ofList]
  induction width generalizing n with
  | zero => simp [hexDigits]
  | succ width ih =>
    have hdigit : ∀ k < 16, hexDigit k ∉ delimiters := by decide
    intro c hc
    rcases List.mem_append.mp hc with hc | hc
    · exact ih _ c hc
    · rw [List.mem_singleton.mp hc, ← hexDigit_mod]
      exact hdigit _ (Nat.mod_lt _ (by decide))

end Text

theorem Double.hexText_inj {d d' : Double} (h : d.hexText = d'.hexText) : d = d' := by
  have hdigits := congrArg (fun w => Text.ofHex? w.toList) ((String.append_right_inj _).mp h)
  have hbits (d : Double) : d.bits.toNat % 16 ^ 16 = d.bits.toNat := Nat.mod_eq_of_lt d.bits.toNat_lt
  simp only [Text.hex, String.toList_ofList, Text.ofHex?_hexDigits, hbits, Option.some.injEq,
    UInt64.toNat_inj] at hdigits
  exact congrArg Double.mk hdigits

namespace Ir

open Text

/-! ## Types and values -/

/-- The names in the type are without delimiters. -/
def Ty.Spelled : Ty → Prop
  | .named name => Unbroken name
  | .array _ element => element.Spelled
  | _ => True

theorem Ty.text_append_inj {t t' : Ty} {u v : String} (ht : t.Spelled) (ht' : t'.Spelled)
    (hu : Ends u) (hv : Ends v) (h : t.text ++ u = t'.text ++ v) : t = t' ∧ u = v := by
  induction t generalizing t' u v <;> cases t'
  case void.void | double.double | ptr.ptr => exact ⟨rfl, (String.append_right_inj _).mp h⟩
  case int.int bits bits' =>
    simp only [Ty.text, String.append_assoc, String.append_right_inj] at h
    obtain ⟨hbits, hrest⟩ := (unbroken_toString _).append_inj (unbroken_toString _) hu hv h
    exact ⟨by rw [toString_nat_inj hbits], hrest⟩
  case named.named name name' =>
    simp only [Ty.text, String.append_assoc, String.append_right_inj] at h
    obtain ⟨rfl, hrest⟩ := Unbroken.append_inj ht ht' hu hv h
    exact ⟨rfl, hrest⟩
  case array.array length element ih length' element' =>
    simp only [Ty.text, String.append_assoc, String.append_right_inj] at h
    obtain ⟨hlength, helement⟩ := (unbroken_toString _).append_inj (unbroken_toString _)
      (by simp [Ends, delimiters]) (by simp [Ends, delimiters]) h
    obtain ⟨rfl, hrest⟩ := ih ht (show element'.Spelled from ht') (by simp [Ends, delimiters])
      (by simp [Ends, delimiters]) ((String.append_right_inj _).mp helement)
    exact ⟨by rw [toString_nat_inj hlength], (String.append_right_inj _).mp hrest⟩
  all_goals simp [Ty.text, ← String.toList_inj] at h

/-- The name in the value is without delimiters, as are those in its type, and a truth value is zero
or one. -/
structure Value.Spelled (v : Value) : Prop where
  ty : v.ty.Spelled
  global : ∀ name, v.op = .global name → Unbroken name
  bool : ∀ value, v.op = .int value → v.ty = .bool → value = 0 ∨ value = 1

/-- The text of an integer: a truth value, or digits behind a sign. -/
def IsNumeral (w : String) : Prop :=
  w = "true" ∨ w = "false" ∨ ∀ c ∈ w.toList, c = '-' ∨ c.isDigit = true

section

variable {v v' : Value} {u u' : String}

theorem isNumeral_toString (n : Int) : IsNumeral (toString n) := by
  refine .inr (.inr fun c hc => ?_)
  rw [Int.toString_eq_repr, Int.repr_eq_if] at hc
  split at hc
  · exact .inr (isDigit_of_mem_toString hc)
  · rw [String.toList_append, List.mem_append] at hc
    exact hc.imp (by simp) isDigit_of_mem_toString

theorem IsNumeral.unbroken {w : String} (h : IsNumeral w) : Unbroken w := by
  rcases h with rfl | rfl | h
  · decide
  · decide
  · have hnone : ∀ d ∈ delimiters, ¬ (d = '-' ∨ d.isDigit = true) := by
      simp [delimiters, Char.isDigit]
    exact fun c hc hmem => hnone c hmem (h c hc)

theorem Value.isNumeral_text_iff : IsNumeral v.text ↔ ∃ n, v.op = .int n := by
  obtain ⟨ty, op⟩ := v
  cases op with
  | int n =>
    simp only [Value.text]
    refine iff_of_true ?_ ⟨n, rfl⟩
    split
    · split
      · exact .inl rfl
      · exact .inr (.inl rfl)
    · exact isNumeral_toString _
  | _ => simp [Value.text, regText, Double.hexText, IsNumeral, ← String.toList_inj, Char.isDigit]

theorem Value.Spelled.unbroken_text (h : v.Spelled) : Unbroken v.text := by
  obtain ⟨ty, op⟩ := v
  cases op with
  | reg r => exact Unbroken.append (by decide) (unbroken_toString r)
  | int n => exact (Value.isNumeral_text_iff.mpr ⟨n, rfl⟩).unbroken
  | float d => exact Unbroken.append (by decide) (unbroken_hex 16 _)
  | null => exact (by decide : Unbroken "null")
  | global name => exact Unbroken.append (by decide) (h.global name rfl)

theorem Value.text_inj (h : v.Spelled) (h' : v'.Spelled) (hty : v.ty = v'.ty)
    (htext : v.text = v'.text) : v = v' := by
  have hint : (∃ n, v.op = .int n) ↔ ∃ n, v'.op = .int n := by
    rw [← isNumeral_text_iff, htext, isNumeral_text_iff]
  obtain ⟨ty, op⟩ := v
  obtain ⟨ty', op'⟩ := v'
  obtain rfl : ty = ty' := hty
  cases op <;> cases op'
  case int.int n n' =>
    simp only [Value.text] at htext
    split at htext
    case isTrue hbool =>
      rcases h.bool n rfl hbool with rfl | rfl <;> rcases h'.bool n' rfl hbool with rfl | rfl
      case inl.inl | inr.inr => rfl
      all_goals simp at htext
    case isFalse => rw [Int64.toInt_inj.mp (toString_int_inj htext)]
  case reg.reg => rw [toString_nat_inj ((String.append_right_inj _).mp htext)]
  case float.float => rw [Double.hexText_inj htext]
  case null.null => rfl
  case global.global => rw [(String.append_right_inj _).mp htext]
  all_goals simp [Value.text, regText, Double.hexText, ← String.toList_inj] at hint htext

end

/-! ## Names of operations -/

@[simp] theorem BinOp.mnemonic_inj {op op' : BinOp} : op.mnemonic = op'.mnemonic ↔ op = op' := by
  cases op <;> cases op' <;> decide

@[simp] theorem CastOp.mnemonic_inj {op op' : CastOp} : op.mnemonic = op'.mnemonic ↔ op = op' := by
  cases op <;> cases op' <;> decide

@[simp] theorem FloatPred.keyword_inj {p p' : FloatPred} : p.keyword = p'.keyword ↔ p = p' := by
  cases p <;> cases p' <;> decide

@[simp] theorem IntPred.keyword_inj {p p' : IntPred} : p.keyword = p'.keyword ↔ p = p' := by
  cases p <;> cases p' <;> decide

/-! ## Texts in pieces -/

/-- A piece of the text of an instruction. -/
inductive Piece where
  /-- A fixed text. -/
  | fixed (s : String)
  | word (w : String)
  | ty (t : Ty)
  /-- A value whose type is known from elsewhere. -/
  | value (v : Value)

/-- The text of a piece. -/
def Piece.text : Piece → String
  | .fixed s | .word s => s
  | .ty t => t.text
  | .value v => v.text

/-- The text of several pieces. -/
def textOf : List Piece → String
  | [] => ""
  | p :: ps => p.text ++ textOf ps

/-- The value that a piece is. -/
def Piece.value? : Piece → Option Value
  | .value v => some v
  | _ => none

/-- Whether a piece is told from what follows it. -/
def Piece.IsReadable : Piece → Prop
  | .fixed _ => True
  | .word w => Unbroken w
  | .ty t => t.Spelled
  | .value v => v.Spelled

/-- Each piece is told from the pieces behind it: fixed texts, or a piece that ends where they
start. -/
def Readable : List Piece → Prop
  | [] => True
  | .fixed _ :: ps => Readable ps
  | p :: ps => p.IsReadable ∧ Ends (textOf ps) ∧ Readable ps

/-- Two lists of pieces have the same sort of piece at each place, up to the first place where their
texts differ. -/
inductive Aligned : List Piece → List Piece → Prop where
  | nil : Aligned [] []
  | clash {ps qs : List Piece} (apart : textOf ps ≠ textOf qs) : Aligned ps qs
  | fixed {s : String} {ps qs : List Piece} (rest : Aligned ps qs) :
    Aligned (.fixed s :: ps) (.fixed s :: qs)
  | word {w w' : String} {ps qs : List Piece} (rest : w = w' → Aligned ps qs) :
    Aligned (.word w :: ps) (.word w' :: qs)
  | ty {t t' : Ty} {ps qs : List Piece} (rest : t = t' → Aligned ps qs) :
    Aligned (.ty t :: ps) (.ty t' :: qs)
  | value {v v' : Value} {ps qs : List Piece} (same : v.ty = v'.ty) (rest : v = v' → Aligned ps qs) :
    Aligned (.value v :: ps) (.value v' :: qs)

theorem Aligned.eq_of_textOf {ps qs : List Piece} (h : Aligned ps qs) (hps : Readable ps)
    (hqs : Readable qs) (htext : textOf ps = textOf qs) : ps = qs := by
  induction h with
  | nil => rfl
  | clash apart => exact absurd htext apart
  | fixed _ ih => rw [ih hps hqs ((String.append_right_inj _).mp htext)]
  | word _ ih =>
    obtain ⟨rfl, hrest⟩ := Unbroken.append_inj hps.1 hqs.1 hps.2.1 hqs.2.1 htext
    rw [ih rfl hps.2.2 hqs.2.2 hrest]
  | ty _ ih =>
    obtain ⟨rfl, hrest⟩ := Ty.text_append_inj hps.1 hqs.1 hps.2.1 hqs.2.1 htext
    rw [ih rfl hps.2.2 hqs.2.2 hrest]
  | value same _ ih =>
    obtain ⟨hword, hrest⟩ := Unbroken.append_inj (Value.Spelled.unbroken_text hps.1)
      (Value.Spelled.unbroken_text hqs.1) hps.2.1 hqs.2.1 htext
    obtain rfl := Value.text_inj hps.1 hqs.1 same hword
    rw [ih rfl hps.2.2 hqs.2.2 hrest]

/-! ## Instructions -/

/-- The pieces of a value with its type in front. -/
def Value.typed (v : Value) : List Piece := [.ty v.ty, .fixed " ", .value v]

/-- The pieces of the values of a call behind the first one. -/
def moreArgs : List Value → List Piece
  | [] => [.fixed ")"]
  | v :: args => .fixed ", " :: v.typed ++ moreArgs args

/-- The pieces of the values of a call. -/
def argPieces : List Value → List Piece
  | [] => [.fixed ")"]
  | v :: args => v.typed ++ moreArgs args

namespace Instr

/-- The word that says what an instruction does. -/
def opcode : Instr → String
  | .alloca .. => "alloca"
  | .load .. => "load"
  | .store .. => "store"
  | .gep .. => "getelementptr"
  | .binary _ op .. => op.mnemonic
  | .fneg .. => "fneg"
  | .fcmp .. => "fcmp"
  | .icmp .. => "icmp"
  | .cast _ op .. => op.mnemonic
  | .call .. => "call"
  | .br .. | .condBr .. => "br"
  | .ret .. => "ret"
  | .unreachable => "unreachable"

/-- The pieces in front of the opcode. -/
def target (i : Instr) : List Piece :=
  match i.dst? with
  | some dst => [.word (regText dst), .fixed " = "]
  | none => []

/-- The pieces behind the opcode. -/
def arguments : Instr → List Piece
  | .alloca _ ty => [.fixed " ", .ty ty]
  | .load _ ty ptr => [.fixed " ", .ty ty, .fixed ", ptr ", .value ptr]
  | .store value ptr => .fixed " " :: value.typed ++ [.fixed ", ptr ", .value ptr]
  | .gep _ element base index =>
    [.fixed " ", .ty element, .fixed ", ptr ", .value base, .fixed ", "] ++ index.typed
  | .binary _ _ lhs rhs => .fixed " " :: lhs.typed ++ [.fixed ", ", .value rhs]
  | .fneg _ operand => [.fixed " double ", .value operand]
  | .fcmp _ pred lhs rhs =>
    [.fixed " ", .word pred.keyword, .fixed " double ", .value lhs, .fixed ", ", .value rhs]
  | .icmp _ pred lhs rhs =>
    [.fixed " ", .word pred.keyword, .fixed " "] ++ lhs.typed ++ [.fixed ", ", .value rhs]
  | .cast _ _ value target => .fixed " " :: value.typed ++ [.fixed " to ", .ty target]
  | .call _ result callee args =>
    [.fixed " ", .ty result, .fixed " @", .word callee, .fixed "("] ++ argPieces args
  | .br target => [.fixed " label %", .word target]
  | .condBr cond thenLabel elseLabel =>
    [.fixed " i1 ", .value cond, .fixed ", label %", .word thenLabel, .fixed ", label %",
      .word elseLabel]
  | .ret value => .fixed " " :: value.elim [.ty .void] Value.typed
  | .unreachable => []

/-- The types that an instruction names beside those of its operands. -/
def types : Instr → List Ty
  | .alloca _ ty | .load _ ty _ | .gep _ ty .. | .cast _ _ _ ty | .call _ ty .. => [ty]
  | _ => []

/-- The names of types, symbols and labels are without delimiters, and truth values are zero or
one. -/
structure Spelled (i : Instr) : Prop where
  types : ∀ t ∈ i.types, t.Spelled
  operands : ∀ v ∈ i.operands, v.Spelled
  labels : ∀ label ∈ i.successors, Unbroken label
  callee : ∀ name, i.callee? = some name → Unbroken name

theorem textOf_typed (v : Value) (ps : List Piece) :
    textOf (v.typed ++ ps) = v.typedText ++ textOf ps := by
  simp [Value.typed, textOf, Piece.text, Value.typedText, String.append_assoc]

theorem textOf_argPieces (args : List Value) :
    textOf (argPieces args) = joined ", " (args.map Value.typedText) ++ ")" := by
  cases args with
  | nil => simp [argPieces, textOf, Piece.text, joined]
  | cons v args =>
    induction args generalizing v with
    | nil => simp [argPieces, moreArgs, textOf_typed, textOf, Piece.text, joined]
    | cons w args ih =>
      have hmore : textOf (argPieces (v :: w :: args)) =
          v.typedText ++ (", " ++ textOf (argPieces (w :: args))) := textOf_typed v _
      rw [hmore, ih]
      simp only [joined, List.map_cons, String.intercalate_cons_cons, String.append_assoc]

theorem text_eq (i : Instr) : i.text = textOf (i.target ++ .word i.opcode :: i.arguments) := by
  cases i with
  | ret value =>
    cases value <;> simp [text, target, opcode, arguments, dst?, textOf, Piece.text, Value.typed,
      Value.typedText, Ty.text, ← String.toList_inj]
  | call dst =>
    simp only [text, String.append_assoc, ← textOf_argPieces]
    cases dst <;> simp [target, opcode, arguments, dst?, textOf, Piece.text, ← String.toList_inj]
  | _ =>
    simp [text, target, opcode, arguments, dst?, textOf, Piece.text, Value.typed, Value.typedText,
      ← String.toList_inj]

/-- The number of the constructor, where jumps with and without a condition are one. -/
def sort (i : Instr) : Nat := if i.ctorIdx = 11 then 10 else i.ctorIdx

/-- Every opcode, with the sort of its instructions. -/
def opcodes : List (String × Nat) :=
  [("alloca", 0), ("load", 1), ("store", 2), ("getelementptr", 3), ("fneg", 5), ("fcmp", 6),
    ("icmp", 7), ("call", 9), ("br", 10), ("ret", 12), ("unreachable", 13)]
    ++ BinOp.all.map (·.mnemonic, 4) ++ CastOp.all.map (·.mnemonic, 8)

theorem mem_opcodes (i : Instr) : (i.opcode, i.sort) ∈ opcodes := by
  cases i with
  | binary _ op =>
    have hall : ∀ op : BinOp, (op.mnemonic, 4) ∈ opcodes := by rintro (_ | _) <;> decide
    exact hall op
  | cast _ op =>
    have hall : ∀ op : CastOp, (op.mnemonic, 8) ∈ opcodes := by rintro (_ | _) <;> decide
    exact hall op
  | _ => simp [opcodes, opcode, sort, Instr.ctorIdx]

variable {i j : Instr}

theorem sort_eq_of_opcode (h : i.opcode = j.opcode) : i.sort = j.sort := by
  have htable : ∀ p ∈ opcodes, ∀ q ∈ opcodes, p.1 = q.1 → p.2 = q.2 := by decide
  exact htable _ i.mem_opcodes _ j.mem_opcodes h

theorem unbroken_opcode (i : Instr) : Unbroken i.opcode := by
  have htable : ∀ p ∈ opcodes, Unbroken p.1 := by decide
  exact htable _ i.mem_opcodes

/-! ## What a text tells -/

theorem readable_typed {v : Value} {ps : List Piece} (hv : v.Spelled) (hps : Readable ps)
    (hends : Ends (textOf ps)) : Readable (v.typed ++ ps) :=
  ⟨hv.ty, by simp [textOf, Piece.text, Ends, delimiters], hv, hends, hps⟩

theorem ends_moreArgs (args : List Value) : Ends (textOf (moreArgs args)) := by
  cases args <;> simp [moreArgs, textOf, Piece.text, Ends, delimiters]

theorem readable_moreArgs {args : List Value} (h : ∀ v ∈ args, v.Spelled) :
    Readable (moreArgs args) := by
  induction args with
  | nil => trivial
  | cons v args ih =>
    obtain ⟨hv, hargs⟩ := List.forall_mem_cons.mp h
    exact readable_typed hv (ih hargs) (ends_moreArgs args)

theorem readable_argPieces {args : List Value} (h : ∀ v ∈ args, v.Spelled) :
    Readable (argPieces args) := by
  cases args with
  | nil => trivial
  | cons v args =>
    obtain ⟨hv, hargs⟩ := List.forall_mem_cons.mp h
    exact readable_typed hv (readable_moreArgs hargs) (ends_moreArgs args)

theorem readable_arguments (h : i.Spelled) : Readable i.arguments := by
  obtain ⟨htypes, hoperands, hlabels, hcallee⟩ := h
  cases i with
  | call dst result callee args =>
    have hargs : Readable (argPieces args) := readable_argPieces hoperands
    have hname : Unbroken callee := hcallee callee rfl
    simp_all [types, arguments, Readable, Piece.IsReadable, textOf, Piece.text, Ends, delimiters]
  | ret value =>
    cases value with
    | none => simp [arguments, Readable, Piece.IsReadable, Ty.Spelled, textOf, Ends]
    | some v =>
      have hv := hoperands v (by simp [operands])
      simp [arguments, Value.typed, Readable, Piece.IsReadable, textOf, Piece.text, Ends, delimiters,
        hv, hv.ty]
  | fcmp dst pred =>
    have hpred : Unbroken pred.keyword := by cases pred <;> decide
    simp_all [operands, arguments, Readable, Piece.IsReadable, textOf, Piece.text, Ends, delimiters]
  | icmp dst pred =>
    have hpred : Unbroken pred.keyword := by cases pred <;> decide
    simp_all [operands, arguments, Value.typed, Value.Spelled.ty, Readable, Piece.IsReadable, textOf,
      Piece.text, Ends, delimiters]
  | _ =>
    simp_all [types, operands, successors, arguments, Value.typed, Value.Spelled.ty, Readable,
      Piece.IsReadable, textOf, Piece.text, Ends, delimiters]

theorem ends_arguments (i : Instr) : Ends (textOf i.arguments) := by
  cases i with
  | _ => simp [arguments, textOf, Piece.text, Ends, delimiters]

theorem aligned_typed {v v' : Value} {ps qs : List Piece} (rest : v = v' → Aligned ps qs) :
    Aligned (v.typed ++ ps) (v'.typed ++ qs) :=
  .ty fun hty => .fixed (.value hty rest)

theorem aligned_moreArgs (args args' : List Value) : Aligned (moreArgs args) (moreArgs args') := by
  induction args generalizing args' with
  | nil =>
    cases args' with
    | nil => exact .fixed .nil
    | cons => exact .clash (by simp [moreArgs, textOf, Piece.text, ← String.toList_inj])
  | cons v args ih =>
    cases args' with
    | nil => exact .clash (by simp [moreArgs, textOf, Piece.text, ← String.toList_inj])
    | cons v' args' => exact .fixed (aligned_typed fun _ => ih args')

theorem aligned_argPieces (args args' : List Value) :
    Aligned (argPieces args) (argPieces args') := by
  -- A value has a blank behind its type.
  have hblank : ∀ v args, textOf (argPieces (v :: args)) ≠ textOf (argPieces []) := by
    intro v args heq
    have hmem : ' ' ∈ ")".toList := by
      rw [← show textOf (argPieces []) = ")" from rfl, ← heq]
      simp [argPieces, Value.typed, textOf, Piece.text]
    simp at hmem
  cases args <;> cases args'
  case nil.nil => exact .fixed .nil
  case nil.cons v' args' => exact .clash (hblank v' args').symm
  case cons.nil v args => exact .clash (hblank v args)
  case cons.cons v args v' args' => exact aligned_typed fun _ => aligned_moreArgs args args'

theorem aligned_arguments {ret ret' : Ty} (hi : i.WellTyped ret) (hj : j.WellTyped ret')
    (hop : i.opcode = j.opcode) : Aligned i.arguments j.arguments := by
  have hsort := sort_eq_of_opcode hop
  cases i <;> cases j <;> try cases hsort
  case alloca.alloca => exact .fixed (.ty fun _ => .nil)
  case load.load =>
    exact .fixed (.ty fun _ => .fixed (.value (hi.trans hj.symm) fun _ => .nil))
  case store.store =>
    exact .fixed (aligned_typed fun _ => .fixed (.value (hi.trans hj.symm) fun _ => .nil))
  case gep.gep =>
    exact .fixed (.ty fun _ => .fixed (.value (hi.1.trans hj.1.symm) fun _ =>
      .fixed (aligned_typed fun _ => .nil)))
  case binary.binary =>
    exact .fixed (aligned_typed fun h => .fixed (.value (by rw [← hi.1, ← hj.1, h]) fun _ => .nil))
  case fneg.fneg => exact .fixed (.value (hi.trans hj.symm) fun _ => .nil)
  case fcmp.fcmp =>
    exact .fixed (.word fun _ => .fixed (.value (hi.1.trans hj.1.symm) fun _ =>
      .fixed (.value (hi.2.trans hj.2.symm) fun _ => .nil)))
  case icmp.icmp =>
    exact .fixed (.word fun _ => .fixed (aligned_typed fun h =>
      .fixed (.value (by rw [← hi.1, ← hj.1, h]) fun _ => .nil)))
  case cast.cast => exact .fixed (aligned_typed fun _ => .fixed (.ty fun _ => .nil))
  case call.call args _ _ _ args' =>
    exact .fixed (.ty fun _ => .fixed (.word fun _ => .fixed (aligned_argPieces args args')))
  case br.br => exact .fixed (.word fun _ => .nil)
  case br.condBr | condBr.br =>
    exact .clash (by simp [arguments, textOf, Piece.text, ← String.toList_inj])
  case condBr.condBr =>
    exact .fixed (.value (hi.trans hj.symm) fun _ =>
      .fixed (.word fun _ => .fixed (.word fun _ => .nil)))
  case ret.ret value value' =>
    cases value <;> cases value'
    case none.none => exact .fixed (.ty fun _ => .nil)
    case some.some => exact .fixed (aligned_typed fun _ => .nil)
    all_goals
      exact .fixed (.ty fun _ => .clash (by simp [textOf, Piece.text, ← String.toList_inj]))
  case unreachable.unreachable => exact .nil

theorem opcode_ne_regText (i : Instr) (r : Reg) : i.opcode ≠ regText r := by
  have htable : ∀ p ∈ opcodes, '%' ∉ p.1.toList := by decide
  intro heq
  exact htable _ i.mem_opcodes (by simp [heq, regText])

theorem parts_of_text {ret ret' : Ty} (hi : i.WellTyped ret) (hj : j.WellTyped ret')
    (hsi : i.Spelled) (hsj : j.Spelled) (h : i.text = j.text) :
    i.dst? = j.dst? ∧ i.opcode = j.opcode ∧ i.arguments = j.arguments := by
  rw [text_eq, text_eq] at h
  have hread : ∀ k : Instr, k.Spelled → Readable (k.target ++ .word k.opcode :: k.arguments) := by
    intro k hk
    have hrest : Readable (.word k.opcode :: k.arguments) :=
      ⟨k.unbroken_opcode, k.ends_arguments, readable_arguments hk⟩
    unfold target
    split
    · refine ⟨Unbroken.append (by decide) (unbroken_toString _), ?_, hrest⟩
      simp [textOf, Piece.text, Ends, delimiters]
    · exact hrest
  have hrest : Aligned (.word i.opcode :: i.arguments) (.word j.opcode :: j.arguments) :=
    .word (aligned_arguments hi hj)
  have haligned : Aligned (i.target ++ .word i.opcode :: i.arguments)
      (j.target ++ .word j.opcode :: j.arguments) := by
    unfold target
    cases i.dst? <;> cases j.dst?
    case none.none => exact hrest
    case some.some => exact .word fun _ => .fixed hrest
    case none.some r => exact .word fun heq => absurd heq (i.opcode_ne_regText r)
    case some.none r => exact .word fun heq => absurd heq.symm (j.opcode_ne_regText r)
  have heq := haligned.eq_of_textOf (hread i hsi) (hread j hsj) h
  unfold target at heq
  cases hdi : i.dst? <;> cases hdj : j.dst? <;> simp [hdi, hdj] at heq
  case none.none => simp [heq]
  case none.some r => exact absurd heq.1 (i.opcode_ne_regText r)
  case some.none r => exact absurd heq.1.symm (j.opcode_ne_regText r)
  case some.some r r' =>
    rw [toString_nat_inj ((String.append_right_inj _).mp heq.1)]
    simp [heq]

theorem values_arguments (i : Instr) : i.arguments.filterMap Piece.value? = i.operands := by
  have hmore : ∀ args, (moreArgs args).filterMap Piece.value? = args := by
    intro args
    induction args with
    | nil => rfl
    | cons v args ih => simp [moreArgs, Value.typed, Piece.value?, List.filterMap_cons, ih]
  cases i with
  | call _ _ _ args =>
    cases args <;> simp [arguments, argPieces, Value.typed, Piece.value?, operands,
      List.filterMap_cons, hmore]
  | ret value => cases value <;> rfl
  | _ => rfl

/-- Two instructions that are well typed, with names without delimiters and truth values that are zero
or one, are equal if their texts are. The functions that they stand in may return what they will. -/
theorem eq_of_text {ret ret' : Ty} (hi : i.WellTyped ret) (hj : j.WellTyped ret')
    (hsi : i.Spelled) (hsj : j.Spelled) (h : i.text = j.text) : i = j := by
  obtain ⟨hdst, hop, hargs⟩ := parts_of_text hi hj hsi hsj h
  have hoperands : i.operands = j.operands := by
    rw [← values_arguments, hargs, values_arguments]
  have hsort := sort_eq_of_opcode hop
  cases i <;> cases j <;> try cases hsort
  all_goals simp [arguments, dst?, opcode, operands, Value.typed] at hdst hop hargs hoperands
  case ret.ret value value' => cases value <;> cases value' <;> simp_all
  all_goals simp_all

/-- A comparison of truth values, where the type of the second one is left out. -/
def comparison : Instr := .icmp 2 .eq (.reg 1 .bool) (.bool true)

theorem eq_of_text_comparison :
    comparison.WellTyped .void ∧ comparison.Spelled ∧
    comparison.text = "%r2 = icmp eq i1 %r1, true" ∧
    comparison = .icmp 2 .eq ⟨.int 1, .reg 1⟩ ⟨.int 1, .int 1⟩ := by
  have hwell : comparison.WellTyped .void := ⟨rfl, .inl ⟨1, rfl⟩⟩
  have hspelled : comparison.Spelled := by
    refine ⟨by simp [comparison, types], fun v hv => ?_, by simp [comparison, successors],
      by simp [comparison, callee?]⟩
    rcases List.mem_cons.mp hv with rfl | hv
    · exact ⟨trivial, by simp [Value.reg], by simp [Value.reg]⟩
    · obtain rfl := List.mem_singleton.mp hv
      exact ⟨trivial, by simp [Value.bool, Value.int], by simp [Value.bool, Value.int]⟩
  exact ⟨hwell, hspelled, by decide +kernel, eq_of_text hwell hwell hspelled hspelled rfl⟩

end Instr

end Ir

end ScriptCompiler
