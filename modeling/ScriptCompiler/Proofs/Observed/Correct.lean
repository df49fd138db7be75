import ScriptCompiler.Proofs.Numeric.Correct
import ScriptCompiler.Proofs.Observed.Assign
import ScriptCompiler.Proofs.Observed.Records

/-!
# Observing a variable does not change what a program prints

A program that assigns its variables before the first branch prints what its source shows, whatever
variables are observed (`prints_iff`). So any two sets of observed variables give programs that print
the same numbers.

Up to the first branch a program is straight-line code that makes variables one after the other
(`performs_top`); from there on no variable is made, and its code follows the evaluation of the source
as that of the numeric fragment does. The last block frees the records and prints nothing.
-/

namespace ScriptCompiler.Observed

open Ir Lowering Lowering.Stage Numeric List

/-! ## Meaning -/

/-- How statements have ended, if they have. -/
def Course.outcome? : Course → Option Outcome
  | .normal => some .normal
  | .broke => some .broke
  | .unfinished => none

theorem repeating_eq {test : Eval Bool} {body : Eval Course} {body' : Eval (Option Outcome)}
    (h : body' = Course.outcome? <$> body) (passes : Nat) :
    repeating test body' passes = Course.outcome? <$> repeated test body passes := by
  subst h
  induction passes with
  | zero => rfl
  | succ passes ih =>
    simp only [repeating, repeated, map_eq_pure_bind, bind_assoc, pure_bind]
    refine bind_congr fun again => ?_
    cases again with
    | false => rfl
    | true =>
      simp only [if_true, bind_assoc]
      refine bind_congr fun course => ?_
      cases course with
      | normal =>
        simp only [map_eq_pure_bind] at ih
        exact ih
      | broke | unfinished => rfl

mutual

theorem pursue_eq (N : Numbers) (passes : Nat) : (node : Node) → ∀ bound, isStmt bound node →
    pursue N passes node = Course.outcome? <$> follow N passes node
  | .assignment name value, _, _ => by
    simp only [pursue, follow, map_eq_pure_bind, bind_assoc, pure_bind]
    rfl
  | .breakLoop, _, _ => by
    simp only [pursue, follow]
    rfl
  | .conditional condition thenBlock elseBlock, bound, h => by
    simp only [isStmt, Bool.and_eq_true] at h
    rw [pursue, follow, pursueAll_eq N passes thenBlock _ h.1.2, pursueAll_eq N passes elseBlock _ h.2]
    simp only [map_eq_pure_bind, bind_assoc]
    refine bind_congr fun x => ?_
    cases isTrue x <;> rfl
  | .loop condition body, bound, h => by
    simp only [isStmt, Bool.and_eq_true] at h
    rw [pursue, follow]
    exact repeating_eq (pursueAll_eq N passes body _ h.2) passes
  | .literal _, _, _ | .identifier _, _, _ | .binary .., _, _ | .unary .., _, _
  | .relation .., _, _ => by
    simp only [pursue, follow, map_eq_pure_bind, bind_assoc, pure_bind]
    rfl
  | .listLiteral _, _, h | .index .., _, h | .memberAccess .., _, h | .structLiteral .., _, h
  | .interrogative .., _, h | .indexedAssignment .., _, h | .functionDef .., _, h | .ret _, _, h
  | .structDef .., _, h | .importModule _, _, h => by simp [isStmt, isExpr] at h

/-- Statements that do not return end as they do with a return among the ways. -/
theorem pursueAll_eq (N : Numbers) (passes : Nat) : (nodes : List Node) → ∀ bound,
    isBlock bound nodes → pursueAll N passes nodes = Course.outcome? <$> followAll N passes nodes
  | [], _, _ => by
    simp only [pursueAll, followAll]
    rfl
  | node :: rest, bound, h => by
    simp only [isBlock, Bool.and_eq_true] at h
    simp only [pursueAll, followAll, pursue_eq N passes node _ h.1, pursueAll_eq N passes rest _ h.2,
      map_eq_pure_bind, bind_assoc, pure_bind]
    refine bind_congr fun course => ?_
    cases course <;> rfl

end

/-! ## Before the first branch -/

section

variable {ω : Type} {N : Numbers} {M : Machine ω} (R : Runtime N M) {ctx : Context}

theorem performs_straight (hctx : PlainContext ctx) {bound later : List String} {node : Node}
    (h : isStmt bound node) (hstraight : branches node = false)
    (hapart : ∀ name other, node = .assignment name (.identifier other) → name ∉ bound →
      other ∈ bound → name ∉ later ∧ other ∉ later) :
    Performs ctx .any (Compiles (KeptOutside True bound) (KeptOutside True (bound ++ assigned node))
      (CarriesOutside R.library True bound (assigned node ++ later) (bound ++ assigned node) later
        fun passes => pursue N passes node)) (stmt node) := by
  have hvalue : ∀ value, isExpr bound value → Performs ctx .any
      (Compiles (KeptOutside True bound) (KeptOutside True (bound ++ []))
        (CarriesOutside R.library True bound later (bound ++ []) later
          fun _ => do discard (eval N value); return some .normal)) (discard (expr value)) := by
    intro value hvalue
    rw [append_nil]
    exact (performs_discard (evaluates_any value)).ran.mono fun g g' hran =>
      (compiles_expr hctx (isExpr_numeric value hvalue) (.inr hvalue) (fun _ => Subset.refl _) hran.1
        hran.2.1 hran.2.2.1).outside (Subset.refl _) (Subset.refl _)
  cases node with
  | assignment name value =>
    rw [stmt]
    refine (performs_assignment_any name value).ran.mono fun g g' hran hs => ?_
    have hcompiles : Compiles (Kept True bound) (Kept True (bound ++ [name]))
        (Carries R.library True bound (name :: later) (name :: bound) later
          fun passes => pursue N passes (.assignment name value)) g g' := by
      refine compiles_assignment hctx (isExpr_numeric value h) (.inr h) (fun _ => Subset.refl _)
        mem_cons_self (subset_cons_self _ _)
        (fun _ hnew other hother => hapart name other (by rw [hother]) hnew)
        (fun s v s' hs' hv _ hends hrun => ?_) hran.1 hran.2.1 hran.2.2.1
      cases hlookup : s.globals.lookup name with
      | some b =>
        obtain ⟨code, hassigned⟩ := run_change hctx hs' hv hlookup hrun
        exact ⟨b, [], code, hassigned⟩
      | none => exact run_create hctx hs' hlookup (hends.trans hs.2) hv hrun
    refine hcompiles.outside (fun other hother => ?_) (Subset.refl _) hs
    simpa [assigned, or_comm] using hother
  | breakLoop =>
    rw [stmt]
    refine performs_leaveLoop.mono fun g g' hbreaks hs => ?_
    obtain ⟨label, hlabel, -⟩ := hbreaks
    simp [hs.2] at hlabel
  | conditional | loop => simp [branches] at hstraight
  | literal value => exact hvalue _ h
  | identifier name => exact hvalue _ h
  | binary op left right => exact hvalue _ h
  | unary op operand => exact hvalue _ h
  | relation callee argument => exact hvalue _ h
  | _ => simp [isStmt, isExpr] at h

/-- Lowering a program that assigns its variables at the top lays out code that follows its
evaluation. -/
theorem performs_top (hctx : PlainContext ctx) : (statements : List Node) → ∀ bound,
    isBlock bound statements → assignsAtTop bound statements → isApart bound statements →
      Performs ctx .any (Compiles (KeptOutside True bound)
        (KeptOutside True (bound ++ assignedAll statements))
        (CarriesOutside R.library True bound (assignedAll statements)
          (bound ++ assignedAll statements) [] fun passes => pursueAll N passes statements))
        (block statements)
  | [], bound, h, _, _ =>
    (performs_numericBlock R.library True bound [] hctx (fun h => absurd trivial h) [] bound rfl
      (.inr h) (fun _ => ⟨Subset.refl _, nil_subset _⟩) (nil_subset _)).mono fun _ _ h =>
        h.outside (by simp [assignedAll]) (Subset.refl _)
  | node :: rest, bound, h, htop, hapart => by
    cases hbranches : branches node with
    | true =>
      have hbound : assignedAll (node :: rest) ⊆ bound := by
        intro name hname
        rw [assignsAtTop, if_pos hbranches] at htop
        simpa using all_eq_true.mp htop name hname
      exact (performs_numericBlock R.library True bound _ hctx (fun h => absurd trivial h)
        (node :: rest) bound (isBlock_numeric _ _ h) (.inr h) (fun _ => ⟨Subset.refl _, hbound⟩)
        (Subset.refl _)).mono fun _ _ h =>
          h.outside (append_subset.mpr ⟨Subset.refl _, hbound⟩) (nil_subset _)
    | false =>
      rw [block]
      simp only [isBlock, Bool.and_eq_true] at h
      rw [assignsAtTop, if_neg (by simp [hbranches])] at htop
      simp only [isApart, Bool.and_eq_true] at hapart
      have hlater : ∀ name other, node = .assignment name (.identifier other) → name ∉ bound →
          other ∈ bound → name ∉ assignedAll rest ∧ other ∉ assignedAll rest := by
        rintro name other rfl hname hother
        simpa [hname, hother] using hapart.1
      refine ((performs_straight R hctx h.1 hbranches hlater).seq
        (performs_top hctx rest _ h.2 htop hapart.2)).mono ?_
      rintro g g' ⟨g₁, hfirst, hrest⟩
      simp only [pursueAll]
      rw [assignedAll, ← append_assoc]
      exact hfirst.seq hrest fun _ _ _ _ _ _ hI hJ hnone first =>
        (hI hnone first).seq (hJ hnone first) (.inl rfl)

end

/-! ## Whole programs -/

section

variable {ω : Type} {N : Numbers} {M : Machine ω} {R : Runtime N M} {statements : List Node}

theorem isSilent_exit {r : Reg} {cleanup : List Cleanup}
    (h : ∀ c ∈ cleanup, c.destroy = Catalog.boxDestroy ∧ True) :
    ∀ i ∈ freeing r cleanup ++ [.ret (some (.int .i32 0))], Runtime.IsSilent i := by
  intro i hi
  rcases mem_append.mp hi with hi | hi
  · refine forall_freeing (p := Runtime.IsSilent) (fun r e => ⟨rfl, by simp [Instr.callee?]⟩) ?_ r i hi
    intro e he r
    refine ⟨rfl, fun symbol hsymbol => ?_⟩
    obtain rfl : e.destroy = symbol := Option.some.inj hsymbol
    rw [(h e he).1]
    decide
  · rw [mem_singleton.mp hi]
    exact ⟨rfl, by simp [Instr.callee?]⟩

/-- A function that follows statements follows them as far as they are followed in the source. -/
theorem arrives_of_shown {f : Func} (h : Shown R.library True f statements)
    (hblock : isBlock [] statements) (memory : Address → Option Datum) (w : ω) (passes : Nat) :
    ∃ course ρ, followAll N passes statements {} = some (course, ρ) ∧
      Arrives R.library f (R.printed w) none
        (fun φ ρ => R.printed φ.world = R.printed w ++ ρ.output) passes (Machine.start f memory w)
        [.br exitLabel] course.outcome? ρ := by
  have harrives := h.follows memory w passes
  rw [pursueAll_eq N passes statements [] hblock] at harrives
  cases hfollow : followAll N passes statements {} with
  | none =>
    have hnone : (Course.outcome? <$> followAll N passes statements) {} = none := by
      show ((followAll N passes statements {}).bind _) = none
      rw [hfollow]
      rfl
    rw [hnone] at harrives
    exact absurd trivial harrives
  | some p =>
    have hsome : (Course.outcome? <$> followAll N passes statements) {} =
        some (p.1.outcome?, p.2) := by
      show ((followAll N passes statements {}).bind _) = _
      rw [hfollow]
      rfl
    rw [hsome] at harrives
    exact ⟨p.1, p.2, rfl, harrives⟩

theorem prints_iff {f : Func} (h : Shown R.library True f statements)
    (hblock : isBlock [] statements) (memory : Address → Option Datum)
    (w : ω) (out : List Double) :
    R.Prints f memory w out ↔ ∃ passes course ρ, followAll N passes statements {} =
      some (course, ρ) ∧ out <+: R.printed w ++ ρ.output := by
  constructor
  · rintro ⟨c, hreach, hout⟩
    obtain ⟨n, hn⟩ := Machine.reaches_iff_after.mp hreach
    obtain ⟨course, ρ, heval, harrives⟩ := arrives_of_shown h hblock memory w n
    refine ⟨n, course, ρ, heval, hout.trans ?_⟩
    cases course with
    | normal =>
      -- The run goes on to the last block, or has been there.
      obtain ⟨φ, hend, hprinted⟩ := harrives
      obtain ⟨r, cleanup, hexit, hcleanup⟩ := h.exit
      have hlast := hend.trans (Machine.reaches_br hexit)
      obtain ⟨k, hk⟩ := Machine.reaches_iff_after.mp hlast
      rw [← hprinted]
      rcases Nat.le_total n k with hle | hle
      · exact R.printed_reaches (Machine.reaches_of_after_le hn hk hle)
      · have hsame := R.printed_of_isSilent (isSilent_exit hcleanup)
          (Machine.reaches_of_after_le hk hn hle)
        exact hsame.1 ▸ prefix_refl _
    | broke =>
      obtain ⟨label, φ, hlabel, -⟩ := harrives
      simp at hlabel
    | unfinished =>
      obtain ⟨c', ⟨k, hle, hk⟩, hprinted⟩ := harrives
      rw [← hprinted]
      exact R.printed_reaches (Machine.reaches_of_after_le hn hk hle)
  · rintro ⟨passes, course, ρ, heval, hout⟩
    obtain ⟨course', ρ', heval', harrives⟩ := arrives_of_shown h hblock memory w passes
    obtain ⟨rfl, rfl⟩ := Prod.mk.inj (Option.some.inj (heval.symm.trans heval'))
    cases course with
    | normal =>
      obtain ⟨φ, hend, hprinted⟩ := harrives
      exact ⟨_, hend, hprinted ▸ hout⟩
    | broke =>
      obtain ⟨label, φ, hlabel, -⟩ := harrives
      simp at hlabel
    | unfinished =>
      obtain ⟨c', hlasts, hprinted⟩ := harrives
      exact ⟨c', hlasts.reaches, hout.trans (hprinted ▸ prefix_refl _)⟩

theorem exists_shown (R : Runtime N M) {target : Target} {naming : Naming} {observed : List String}
    {u : Generated} (hmode : naming.mode = .program) (hmodules : naming.importedModules = [])
    (hnames : naming.importedNames = []) (hblock : isBlock [] statements)
    (htop : assignsAtTop [] statements) (hapart : isApart [] statements)
    (hu : generate target naming observed statements = .ok u) :
    ∃ main, u.assembly.function? "main" = some main ∧ Shown R.library True main statements :=
  have hnumeric := isBlock_numeric statements [] hblock
  shown_main hmode hmodules hnumeric (performs_top R
    (plainContext_contextOf hmode hmodules hnames hnumeric) statements [] hblock htop hapart) hu

end

/-- Observing variables does not change what a program prints. Of two programs that are generated
from the same statements with different sets of observed variables, where every variable is assigned
before the first branch and where two variables of which one is at first a bare copy of the other are
not assigned again, each prints the numbers that the other does, in the same order, and these are
what the source shows. -/
theorem prints_main_iff {ω : Type} {N : Numbers} {M : Machine ω} (R : Runtime N M) {target : Target}
    {naming : Naming} {observed observed' : List String} {statements : List Node} {u u' : Generated}
    (hmode : naming.mode = .program) (hmodules : naming.importedModules = [])
    (hnames : naming.importedNames = []) (hblock : isBlock [] statements)
    (htop : assignsAtTop [] statements) (hapart : isApart [] statements)
    (hu : generate target naming observed statements = .ok u)
    (hu' : generate target naming observed' statements = .ok u')
    (memory memory' : Address → Option Datum) (w : ω) :
    ∃ main main', u.assembly.function? "main" = some main ∧
      u'.assembly.function? "main" = some main' ∧
      ∀ out, (R.Prints main memory w out ↔ R.Prints main' memory' w out) ∧
        (R.Prints main memory w (R.printed w ++ out) ↔ Shows N statements out) := by
  obtain ⟨main, hmain, hshown⟩ := exists_shown R hmode hmodules hnames hblock htop hapart hu
  obtain ⟨main', hmain', hshown'⟩ := exists_shown R hmode hmodules hnames hblock htop hapart hu'
  refine ⟨main, main', hmain, hmain', fun out => ⟨?_, ?_⟩⟩
  · rw [prints_iff hshown hblock, prints_iff hshown' hblock]
  · rw [prints_iff hshown hblock]
    simp only [prefix_append_right_inj]
    rfl

/-- A program with plain variables, observed ones and a copy that may share a record. -/
def countingTo : List Node :=
  [.assignment "n" (.literal .null),
    .assignment "last" (.binary "+" (.identifier "n") (.literal (.number ⟨2⟩))),
    .assignment "limit" (.identifier "last"),
    .loop (.binary "<" (.identifier "n") (.identifier "limit"))
      [.assignment "n" (.binary "+" (.identifier "n") (.literal (.number ⟨1⟩))),
        .relation (.identifier "print") (.identifier "n")],
    .relation (.identifier "print") (.identifier "last")]

theorem prints_main_countingTo :
    ∃ u u', generate (.resolve none) { mode := .program } ["n", "last"] countingTo = .ok u ∧
      generate (.resolve none) { mode := .program } [] countingTo = .ok u' ∧
      isBlock [] countingTo ∧ assignsAtTop [] countingTo ∧ isApart [] countingTo ∧
      ∃ main main', u.assembly.function? "main" = some main ∧
        u'.assembly.function? "main" = some main' ∧
        (∀ out, (Records.runtime leastNumbers).Prints main (fun _ => none) {} out ↔
          (Records.runtime leastNumbers).Prints main' (fun _ => none) {} out) ∧
        (Records.runtime leastNumbers).Prints main (fun _ => none) {} [⟨1⟩, ⟨2⟩, ⟨2⟩] := by
  have hgenerate : ∀ observed ∈ [["n", "last"], []],
      (generate (.resolve none) { mode := .program } observed countingTo).toOption.isSome = true := by
    decide +kernel
  have hshows : ((followAll leastNumbers 3 countingTo {}).map fun p => p.2.output) =
      some [⟨1⟩, ⟨2⟩, ⟨2⟩] := by
    decide +kernel
  cases hu : generate (.resolve none) { mode := .program } ["n", "last"] countingTo with
  | error e => simpa [hu, Except.toOption] using hgenerate ["n", "last"] (by simp)
  | ok u =>
    cases hu' : generate (.resolve none) { mode := .program } [] countingTo with
    | error e => simpa [hu', Except.toOption] using hgenerate [] (by simp)
    | ok u' =>
      have hblock : isBlock [] countingTo := by decide +kernel
      have htop : assignsAtTop [] countingTo := by decide +kernel
      have hapart : isApart [] countingTo := by decide +kernel
      obtain ⟨main, main', hmain, hmain', hprints⟩ := prints_main_iff
        (Records.runtime leastNumbers) rfl rfl rfl hblock htop hapart hu hu' (fun _ => none)
        (fun _ => none) {}
      refine ⟨u, u', rfl, rfl, hblock, htop, hapart, main, main', hmain, hmain',
        fun out => (hprints out).1, (hprints _).2.mpr ?_⟩
      obtain ⟨⟨course, ρ⟩, heval, hout⟩ := Option.map_eq_some_iff.mp hshows
      exact ⟨3, course, ρ, heval, hout ▸ prefix_refl _⟩

/-- A program that assigns to a bare copy of a variable. -/
def assignedCopy : List Node :=
  [.assignment "x" (.literal (.number ⟨1⟩)),
    .assignment "y" (.identifier "x"),
    .assignment "y" (.literal (.number ⟨2⟩)),
    .relation (.identifier "print") (.identifier "x")]

/-- What the generated program prints on the machine with records, if it returns in time. -/
def printedBy (observed : List String) (statements : List Node) (fuel : Nat) :
    Option (List Double) := do
  let u ← (generate (.resolve none) { mode := .program } observed statements).toOption
  let main ← u.assembly.function? "main"
  let r ← (Records.machine leastNumbers).run main fuel (Machine.start main (fun _ => none) {})
  return r.2.printed

theorem prints_of_printedBy {observed : List String} {statements : List Node} {fuel : Nat}
    {out : List Double} (h : printedBy observed statements fuel = some out) :
    ∃ u main, generate (.resolve none) { mode := .program } observed statements = .ok u ∧
      u.assembly.function? "main" = some main ∧
      ∀ out', (Records.runtime leastNumbers).Prints main (fun _ => none) {} out' ↔ out' <+: out := by
  simp only [printedBy, Option.bind_eq_bind, Option.bind_eq_some_iff] at h
  obtain ⟨u, hu, main, hmain, ⟨result, w⟩, hrun, hout⟩ := h
  obtain rfl := Option.some.inj hout
  refine ⟨u, main, ?_, hmain, (Records.runtime leastNumbers).prints_iff_of_run hrun⟩
  cases hgenerate : generate (.resolve none) { mode := .program } observed statements with
  | error e => simp [hgenerate, Except.toOption] at hu
  | ok u' =>
    obtain rfl : u' = u := by simpa [hgenerate, Except.toOption] using hu
    rfl

/-- Assigning to a bare copy is seen through the variable that was copied, if that is observed, and
not otherwise. -/
theorem prints_main_assignedCopy :
    isBlock [] assignedCopy ∧ assignsAtTop [] assignedCopy ∧
    ∃ u u' main main',
      generate (.resolve none) { mode := .program } ["x"] assignedCopy = .ok u ∧
      generate (.resolve none) { mode := .program } [] assignedCopy = .ok u' ∧
      u.assembly.function? "main" = some main ∧ u'.assembly.function? "main" = some main' ∧
      (Records.runtime leastNumbers).Prints main (fun _ => none) {} [⟨2⟩] ∧
      ¬ (Records.runtime leastNumbers).Prints main' (fun _ => none) {} [⟨2⟩] := by
  have hobserved : printedBy ["x"] assignedCopy 50 = some [⟨2⟩] := by decide +kernel
  have hplain : printedBy [] assignedCopy 50 = some [⟨1⟩] := by decide +kernel
  obtain ⟨u, main, hu, hmain, hprints⟩ := prints_of_printedBy hobserved
  obtain ⟨u', main', hu', hmain', hprints'⟩ := prints_of_printedBy hplain
  refine ⟨by decide +kernel, by decide +kernel, u, u', main, main', hu, hu', hmain, hmain', ?_, ?_⟩
  · exact (hprints _).mpr (prefix_refl _)
  · rw [hprints']
    decide

end ScriptCompiler.Observed
