import ScriptCompiler.Proofs.Paths.History
import ScriptCompiler.Proofs.Stage.Emits

/-!
# Code that leads forward

What a statement adds to a function jumps only to blocks that were not there before: to blocks of its
own, to the end of a loop around it, or out of the function (`Opens.leads`). A loop comes back to its
test, which is a block of its own. So a stage of the lowering divides the code of the finished
function: the code that is there already, and the code that is added by whole statements, which never
leads back to it (`Completes.splits`).
-/

namespace ScriptCompiler.Lowering

open Ir List

namespace Stage

/-- The instructions that are added to the blocks from one stage to another are such that `Q`. -/
def Adds (Q : Instr → Prop) (g g' : Stage) : Prop :=
  ∃ added, g'.bodyCode = g.bodyCode ++ added ∧ ∀ i ∈ added, Q i

/-- The current block goes on, and other blocks follow. -/
def Prolongs (g g' : Stage) : Prop :=
  ∃ more tail, g'.body = g.done ++ ⟨g.label, g.instrs ++ more⟩ :: tail

section

variable {ctx : Context} {P : Lexicon} {g g' g'' start : Stage} {Q Q' : Instr → Prop}

/-! ## What is added -/

theorem Adds.of_eq (h : g'.bodyCode = g.bodyCode) : Adds Q g g' :=
  ⟨[], by simp [h], by simp⟩

theorem Adds.trans (h : Adds Q g g') (h' : Adds Q g' g'') : Adds Q g g'' := by
  obtain ⟨added, hcode, hadded⟩ := h
  obtain ⟨more, hcode', hmore⟩ := h'
  exact ⟨added ++ more, by rw [hcode', hcode, append_assoc],
    forall_mem_append.mpr ⟨hadded, hmore⟩⟩

theorem Adds.mono (h : Adds Q g g') (hQ : ∀ i, Q i → Q' i) : Adds Q' g g' := by
  obtain ⟨added, hcode, hadded⟩ := h
  exact ⟨added, hcode, fun i hi => hQ i (hadded i hi)⟩

/-- What is added jumps to none of the blocks that were there. -/
theorem Opens.leads {extra ends : List String} (h : Opens extra ends g g') {added : List Instr}
    (hcode : g'.bodyCode = g.bodyCode ++ added) {i : Instr} (hi : i ∈ added) :
    ∀ l ∈ i.successors, l ∉ g.labels := by
  obtain ⟨more, htargets, hmore⟩ := h.forward
  have hadded : g.targets ++ added.flatMap Instr.successors = g.targets ++ more := by
    rw [← htargets, Stage.targets, Stage.targets, ← bodyCode, ← bodyCode, hcode, flatMap_append]
  obtain rfl := append_cancel_left hadded
  exact fun l hl => hmore l (mem_flatMap.mpr ⟨i, hi, hl⟩)

/-! ## Finished functions -/

/-- The last block of a list is changed. -/
theorem Prolongs.grow (h : Prolongs start g) {more : List Instr} {tail : List Block}
    (hbody : g'.body = g.done ++ ⟨g.label, g.instrs ++ more⟩ :: tail) : Prolongs start g' := by
  obtain ⟨more₀, tail₀, h₀⟩ := h
  rcases eq_nil_or_concat tail₀ with rfl | ⟨front, last, rfl⟩
  · obtain ⟨hdone, hlast⟩ := append_inj' h₀ rfl
    simp only [List.cons.injEq, Block.mk.injEq, and_true] at hlast
    refine ⟨more₀ ++ more, tail, ?_⟩
    rw [hbody, hdone, hlast.1, hlast.2, append_assoc]
  · have hcut : g.done ++ [⟨g.label, g.instrs⟩] =
        (start.done ++ ⟨start.label, start.instrs ++ more₀⟩ :: front) ++ [last] := by
      rw [← body, h₀]
      simp
    obtain ⟨hdone, -⟩ := append_inj' hcut rfl
    refine ⟨more₀, front ++ ⟨g.label, g.instrs ++ more⟩ :: tail, ?_⟩
    rw [hbody, hdone]
    simp

theorem prolongs_jump {t : Instr} {label : String} {live : String → Typing}
    {reserved : List String} : Prolongs g (g.jump t label live reserved) :=
  ⟨[t], [⟨label, []⟩], by simp [body, Stage.jump]⟩

theorem Step.prolongs (h : Step ctx P g g') : Prolongs g g' := by
  cases h with
  | move h =>
    obtain ⟨more, hmore⟩ := h.grows.instrs
    exact ⟨more, [], by rw [body, h.grows.done, h.grows.label, hmore]⟩
  | label | enterLoop | leaveLoop => exact ⟨[], [], by simp [body, withLabel, withLoop, withoutLoop]⟩
  | jump h => exact prolongs_jump

theorem Steps.prolongs (h : Steps ctx P g g') : Prolongs g g' := by
  induction h with
  | refl => exact ⟨[], [], by simp [body]⟩
  | tail _ hstep ih =>
    obtain ⟨more, tail, hbody⟩ := hstep.prolongs
    exact ih.grow hbody

theorem Prolongs.labels_subset (h : Prolongs g g') : g.labels ⊆ g'.labels := by
  obtain ⟨more, tail, hbody⟩ := h
  rw [Stage.labels, Stage.labels, hbody, body]
  simp only [map_append, map_cons, map_nil]
  exact append_subset.mpr ⟨subset_append_left _ _,
    subset_append_of_subset_right _ (by simp)⟩

theorem Prolongs.trans (h : Prolongs g g') (h' : Prolongs g' g'') : Prolongs g g'' := by
  obtain ⟨more, tail, hbody⟩ := h'
  exact h.grow hbody

theorem Step.adds_fresh (h : Step ctx P g g') (hg : g.Sound ctx P) :
    Adds (fun i => ∀ r, i.dst? = some r → g.next ≤ r) g g' := by
  cases h with
  | move h =>
    obtain ⟨slots, code, hwrites⟩ := h.writes hg
    refine ⟨code, ?_, fun i hi r hr => ?_⟩
    · simp [bodyCode_eq, h.grows.done, hwrites.instrs]
    · have hmem : r ∈ registers (slots ++ code) :=
        mem_filterMap.mpr ⟨i, mem_append_right _ hi, hr⟩
      rcases hwrites.fresh with hnone | ⟨hone, -⟩
      · simp [hnone] at hmem
      · rw [hone, mem_singleton] at hmem
        exact Nat.le_of_eq hmem.symm
  | label | enterLoop | leaveLoop => exact Adds.of_eq rfl
  | @jump t label live reserved h =>
    refine ⟨[t], by simp [bodyCode, body, Stage.jump], fun i hi r hr => ?_⟩
    obtain rfl := mem_singleton.mp hi
    have hterm := h.terminator
    cases i <;> simp [Instr.isTerminator, Instr.dst?] at hterm hr

theorem Steps.adds_fresh (h : Steps ctx P g g') (hg : g.Sound ctx P) :
    Adds (fun i => ∀ r, i.dst? = some r → g.next ≤ r) g g' := by
  induction h with
  | refl => exact Adds.of_eq rfl
  | tail hsteps hstep ih =>
    refine ih.trans ((hstep.adds_fresh (Steps.sound hsteps hg)).mono fun i hi r hr => ?_)
    exact Nat.le_trans (Steps.persists hsteps).next (hi r hr)

/-- A stage divides the code of the function that it becomes a part of, if what is added leads to new
blocks only. -/
theorem Completes.splits {t : Instr} (h : Completes ctx P start g' t) (hprolongs : Prolongs g g')
    (hadds : Adds Q g g') (hQ : ∀ i, Q i → ∀ l ∈ i.successors, l ∉ g.labels) :
    ∃ late, (∀ i ∈ late, Q i ∨ i = t) ∧
      (g'.complete t).Splits (g'.head ++ g.bodyCode) late := by
  obtain ⟨added, hcode, hadded⟩ := hadds
  have hlast : (g'.effect t).body = g'.done ++ [⟨g'.label, g'.instrs ++ [t]⟩] := rfl
  obtain ⟨more, tail, hbody⟩ : Prolongs g (g'.effect t) := hprolongs.grow hlast
  -- What follows in the blocks is what is added, and the end of the function.
  have hlate : more ++ tail.flatMap (·.instrs) = added ++ [t] := by
    have heffect : (g'.effect t).bodyCode = g'.bodyCode ++ [t] := by
      simp [bodyCode, body, effect, build]
    rw [hcode, append_assoc] at heffect
    have hboth : g.bodyCode ++ (more ++ tail.flatMap (·.instrs)) = g.bodyCode ++ (added ++ [t]) := by
      rw [← heffect, bodyCode, bodyCode, hbody]
      simp [body]
    exact append_cancel_left hboth
  have hQlate : ∀ i ∈ more ++ tail.flatMap (·.instrs), Q i ∨ i = t := by
    rw [hlate, forall_mem_append]
    exact ⟨fun i hi => .inl (hadded i hi), by simp⟩
  -- A block is one that was there, perhaps with code added, or a new one.
  have hblock : ∀ b ∈ (g'.effect t).body, (b.label ∈ g.labels ∧ ∃ front back,
      b.instrs = front ++ back ∧ front ⊆ g.bodyCode ∧ back ⊆ more) ∨ b ∈ tail := by
    intro b hb
    rw [hbody, mem_append, mem_cons] at hb
    rcases hb with hb | rfl | hb
    · refine .inl ⟨mem_map.mpr ⟨b, mem_append_left _ hb, rfl⟩, b.instrs, [], by simp,
        fun i hi => mem_flatMap.mpr ⟨b, mem_append_left _ hb, hi⟩, nil_subset _⟩
    · refine .inl ⟨g.label_mem, g.instrs, more, rfl, ?_, List.Subset.refl _⟩
      rw [bodyCode_eq]
      exact subset_append_right _ _
    · exact .inr hb
  have htail : ∀ b ∈ tail, b.instrs ⊆ more ++ tail.flatMap (·.instrs) := fun b hb i hi =>
    mem_append_right _ (mem_flatMap.mpr ⟨b, hb, hi⟩)
  refine ⟨more ++ tail.flatMap (·.instrs), hQlate, fun b hb => ?_, fun i hi l hl b hb => ?_⟩
  · rw [h.blocks] at hb
    have hparts : ∀ b ∈ (g'.effect t).body, ∃ front back, b.instrs = front ++ back ∧
        front ⊆ g.bodyCode ∧ back ⊆ more ++ tail.flatMap (·.instrs) := by
      intro b hb
      rcases hblock b hb with ⟨-, front, back, hinstrs, hfront, hback⟩ | hb
      · exact ⟨front, back, hinstrs, hfront, subset_append_of_subset_left _ hback⟩
      · exact ⟨[], b.instrs, rfl, nil_subset _, htail b hb⟩
    rcases mem_withHead hb with hb | ⟨b', hb', -, rfl⟩
    · obtain ⟨front, back, hinstrs, hfront, hback⟩ := hparts b hb
      exact ⟨front, back, hinstrs, subset_append_of_subset_right _ hfront, hback⟩
    · obtain ⟨front, back, hinstrs, hfront, hback⟩ := hparts b' hb'
      refine ⟨g'.head ++ front, back, by simp [hinstrs], ?_, hback⟩
      exact append_subset.mpr ⟨subset_append_left _ _,
        subset_append_of_subset_right _ hfront⟩
  · have hnew : l ∉ g.labels := by
      rcases hQlate i hi with hi | rfl
      · exact hQ i hi l hl
      · obtain ⟨v, rfl⟩ := h.returns
        simp [Instr.successors] at hl
    have hlabel : b.label = l := by simpa using List.find?_some hb
    have hmem : b ∈ withHead g'.head (g'.effect t).body := h.blocks ▸ mem_of_find?_eq_some hb
    rcases mem_withHead hmem with hmem | ⟨b', hb', hfirst, rfl⟩
    · exact htail b ((hblock b hmem).resolve_left fun hold => hnew (hlabel ▸ hold.1))
    · -- The first block was there.
      have hold : b'.label ∈ g.labels := by
        rw [hbody] at hfirst
        cases hdone : g.done with
        | nil =>
          obtain rfl : ⟨g.label, g.instrs ++ more⟩ = b' := by simpa [hdone] using hfirst
          exact g.label_mem
        | cons first rest =>
          obtain rfl : first = b' := by simpa [hdone] using hfirst
          simp [Stage.labels, body, hdone]
      exact absurd (hlabel ▸ hold) hnew

end

end Stage

end ScriptCompiler.Lowering
