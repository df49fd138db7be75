import ScriptCompiler.Proofs.Access.Run

/-!
# The instructions that a run has executed

`Passes S f φ history c` says that a run of a function comes to a point and that it has executed the
instructions `history` on the way, the latest first. Where the code of a function is divided into an
early and a late part, such that every block begins with early code and goes on with late code, and
late code leads to late code only, a run that has left the early code does not come back to it
(`Passes.early_or_late`).
-/

namespace ScriptCompiler.Ir

/-- A run comes to a point and has executed the instructions of `history`, the latest first. -/
inductive Passes (S : Surroundings) (f : Func) (φ : Frame Past) : List Instr → Point → Prop where
  | start : Passes S f φ [] (f.start φ)
  | step {history rest : List Instr} {i : Instr} {c c' : Point} (before : Passes S f φ history c)
      (code : c.code = i :: rest) (next : Next S f c c') : Passes S f φ (i :: history) c'

/-- The code of a function is divided into an early and a late part. Once a run is in late code it
stays there. -/
structure Func.Splits (f : Func) (early late : List Instr) : Prop where
  blocks : ∀ b ∈ f.blocks, ∃ front back, b.instrs = front ++ back ∧ front ⊆ early ∧ back ⊆ late
  stays : ∀ i ∈ late, ∀ l ∈ i.successors, ∀ b, f.block? l = some b → b.instrs ⊆ late

section

variable {S : Surroundings} {f : Func} {φ : Frame Past} {history early late : List Instr}
  {c c' : Point}

theorem Next.code (h : Next S f c c') : ∃ i rest, c.code = i :: rest := by
  cases h with
  | exec label rest => exact ⟨_, rest, rfl⟩
  | br φ rest => exact ⟨_, rest, rfl⟩
  | condBr φ rest => exact ⟨_, rest, rfl⟩

theorem Next.code_after {i : Instr} {rest : List Instr} (h : Next S f c c')
    (hcode : c.code = i :: rest) :
    c'.code = rest ∨ ∃ l ∈ i.successors, ∃ b, f.block? l = some b ∧ c'.code = b.instrs := by
  cases h with
  | exec label =>
    obtain ⟨-, rfl⟩ := List.cons.inj hcode
    exact .inl rfl
  | @br label target b φ rest hblock =>
    obtain ⟨rfl, -⟩ := List.cons.inj hcode
    exact .inr ⟨target, by simp [Instr.successors], b, hblock, rfl⟩
  | @condBr label cond n yes no b φ rest word hblock =>
    obtain ⟨rfl, -⟩ := List.cons.inj hcode
    refine .inr ⟨_, ?_, b, hblock, rfl⟩
    split <;> simp [Instr.successors]

namespace Passes

theorem arises (h : Passes S f φ history c) : Arises S f φ c := by
  induction h with
  | start => exact .refl
  | step _ _ hnext ih => exact ih.tail hnext

theorem mem {i : Instr} {rest : List Instr} (h : Passes S f φ history c)
    (hcode : c.code = i :: rest) : i ∈ f.instrs := by
  obtain ⟨label, code, frame⟩ := c
  subst hcode
  exact h.arises.mem

/-- A run has executed early code only, or is in late code. -/
theorem early_or_late (hf : f.Splits early late) (h : Passes S f φ history c) :
    history ⊆ early ∨ c.code ⊆ late := by
  induction h with
  | start => exact .inl (List.nil_subset _)
  | @step history rest i c c' hbefore hcode hnext ih =>
    -- An instruction that is not early is late, with all that follows it in its block.
    have hlate : i ∈ early ∨ c.code ⊆ late := by
      obtain ⟨b, hb, -, before, hinstrs⟩ := hbefore.arises.inside.resolve_left (by simp [hcode])
      obtain ⟨front, back, hsplit, hfront, hback⟩ := hf.blocks b hb
      rcases List.append_eq_append_iff.mp (hinstrs.symm.trans hsplit) with
        ⟨more, hmore, hcut⟩ | ⟨more, -, hcut⟩
      · cases more with
        | nil => exact .inr (by rw [hcut]; exact hback)
        | cons j more =>
          refine .inl (hfront ?_)
          obtain ⟨rfl, -⟩ := List.cons.inj (hcode.symm.trans hcut)
          rw [hmore]
          simp
      · refine .inr (List.Subset.trans ?_ hback)
        rw [hcut]
        exact List.subset_append_right _ _
    rcases ih.imp_left fun hhistory => hlate.imp_left fun hi => List.cons_subset.mpr ⟨hi, hhistory⟩
      with (hhistory | hcode') | hcode'
    · exact .inl hhistory
    all_goals
      refine .inr ?_
      rw [hcode] at hcode'
      rcases hnext.code_after hcode with hrest | ⟨l, hl, b, hb, hblock⟩
      · exact hrest ▸ (List.cons_subset.mp hcode').2
      · exact hblock ▸ hf.stays i (List.cons_subset.mp hcode').1 l hl b hb

end Passes

theorem Arises.exists_passes (h : Arises S f φ c) : ∃ history, Passes S f φ history c := by
  induction h with
  | refl => exact ⟨[], .start⟩
  | tail _ hnext ih =>
    obtain ⟨history, hpasses⟩ := ih
    obtain ⟨i, rest, hcode⟩ := hnext.code
    exact ⟨i :: history, hpasses.step hcode hnext⟩

end

end ScriptCompiler.Ir
