import Mathlib.Data.List.Nodup
import ScriptCompiler.Build.Run
import ScriptCompiler.Proofs.Build.Files

/-!
# Building imports

Imports lead from unit to unit, through diamonds and cycles. A path that was met is not built again,
and so building follows a tree: `Builds` is the relation between a list of imports and the paths that
are met, the order of their objects, and how it ends. The depth that bounds the recursion is above
the number of keys on the disk that were not met (`unseen`), since a unit that is compiled writes no
other unit. So it is never reached (`builds_of_buildImports`).

From the rules follows what building does: each path that the imports lead to is met once, and its
object is listed behind those that it is the first to lead to (`buildAllImports_builds`).

The program that is built is not among the paths that were met. The assembly of an import that goes
to the same file takes its place, as it does when the program is imported itself
(`linkProgram_keeps`, `linkProgram_cyclic`).
-/

namespace ScriptCompiler.Build

open List

/-- What tells paths apart. -/
abbrev Key := List Char × List (List Char)

/-- The keys of the paths in a list of imports. -/
def importKeys (imports : List Import) : List Key :=
  imports.filterMap fun i => i.path.map fun text => (Path.mk text).key

/-- The path names a unit, which is compiled; what else is imported is linked as it is. -/
def Path.IsUnit (p : Path) : Prop := p.extension? = some "json".toList

instance (p : Path) : Decidable p.IsUnit :=
  inferInstanceAs (Decidable (p.extension? = some "json".toList))

/-- What is linked for an import. -/
def Path.object (p : Path) : Path := if p.IsUnit then p.withExtension "o" else p

/-- The keys of the paths that were met, in front of those that were met before. -/
def seenAfter (seen : List Key) (met : List (Path × List Import)) : List Key :=
  (met.map (·.1.key)).reverse ++ seen

/-- A unit that is met is compiled, and gives its imports. What is not a unit has none. -/
def Takes (plan : Plan) (module : String) (p : Path) (w : Workspace) (imports : List Import)
    (w' : Workspace) : Prop :=
  if p.IsUnit then compileImport plan module p w = (.ok imports, w') else imports = [] ∧ w' = w

/-- Building imports where some paths were met before: the paths that are met, each with the imports
of its unit, the order in which their objects are listed, and how it ends. -/
inductive Builds (plan : Plan) : List Key → List Import → Workspace → List (Path × List Import) →
    List Path → Except Failure Unit → Workspace → Prop where
  | done {seen : List Key} {w : Workspace} : Builds plan seen [] w [] [] (.ok ()) w
  /-- There is no path, or it was met. -/
  | skip {seen : List Key} {i : Import} {rest : List Import} {w w' : Workspace}
    {met : List (Path × List Import)} {order : List Path} {r : Except Failure Unit}
    (known : importKeys [i] ⊆ seen)
    (next : Builds plan seen rest w met order r w') :
    Builds plan seen (i :: rest) w met order r w'
  /-- The unit cannot be read, compiled or assembled. -/
  | fail {seen : List Key} {i : Import} {p : Path} {rest : List Import} {w w' : Workspace}
    {f : Failure} (path : i.path = some p.text) (new : p.key ∉ seen) (unit : p.IsUnit)
    (compiled : compileImport plan i.module p w = (.error f, w')) :
    Builds plan seen (i :: rest) w [] [] (.error f) w'
  /-- One of the imports of the unit fails. -/
  | stop {seen : List Key} {i : Import} {p : Path} {imports rest : List Import}
    {w w₁ w' : Workspace} {met : List (Path × List Import)} {order : List Path} {f : Failure}
    (path : i.path = some p.text) (new : p.key ∉ seen) (taken : Takes plan i.module p w imports w₁)
    (nested : Builds plan (p.key :: seen) imports w₁ met order (.error f) w') :
    Builds plan seen (i :: rest) w ((p, imports) :: met) order (.error f) w'
  /-- The object is listed behind those of the imports of the unit. -/
  | build {seen : List Key} {i : Import} {p : Path} {imports rest : List Import}
    {w w₁ w₂ w' : Workspace} {met met' : List (Path × List Import)} {order order' : List Path}
    {r : Except Failure Unit}
    (path : i.path = some p.text) (new : p.key ∉ seen) (taken : Takes plan i.module p w imports w₁)
    (nested : Builds plan (p.key :: seen) imports w₁ met order (.ok ()) w₂)
    (next : Builds plan (seenAfter (p.key :: seen) met) rest w₂ met' order' r w') :
    Builds plan seen (i :: rest) w ((p, imports) :: met ++ met') (order ++ p :: order') r w'

/-! ## Steps -/

section

variable {α β : Type} {job : Job α} {next : α → Job β} {m : Importing α} {g : α → Importing β}
  {s s' : Progress} {w w' : Workspace} {a : α} {b : β} {f : Failure}

theorem job_bind_ok (h : job w = (.ok a, w')) : (job >>= next) w = next a w' := by
  show (ExceptT.bind job next : Job β) w = _
  simp only [ExceptT.bind, ExceptT.mk, bind, StateT.bind, h]
  rfl

theorem job_bind_error (h : job w = (.error f, w')) : (job >>= next) w = (.error f, w') := by
  show (ExceptT.bind job next : Job β) w = _
  simp only [ExceptT.bind, ExceptT.mk, bind, StateT.bind, h]
  rfl

theorem job_bind_inv (h : (job >>= next) w = (.ok b, w')) :
    ∃ a w₁, job w = (.ok a, w₁) ∧ next a w₁ = (.ok b, w') := by
  rcases hjob : job w with ⟨f | a, w₁⟩
  · rw [job_bind_error hjob] at h
    cases h
  · exact ⟨a, w₁, rfl, (job_bind_ok hjob).symm.trans h⟩

theorem importing_bind_ok (h : m s w = (.ok (a, s'), w')) : (m >>= g) s w = g a s' w' :=
  job_bind_ok h

theorem importing_bind_error (h : m s w = (.error f, w')) : (m >>= g) s w = (.error f, w') :=
  job_bind_error h

theorem importing_lift_ok (h : job w = (.ok a, w')) :
    (liftM job : Importing α) s w = (.ok (a, s), w') :=
  job_bind_ok h

theorem importing_lift_error (h : job w = (.error f, w')) :
    (liftM job : Importing α) s w = (.error f, w') :=
  job_bind_error h

end

section

variable {plan : Plan} {nested : List Import → Importing Unit} {i : Import} {p : Path}
  {seen seen' : List Key} {objects objects' : List Path} {imports : List Import}
  {w w₁ w' : Workspace} {f : Failure}

theorem buildImport_skip (h : importKeys [i] ⊆ seen) :
    buildImport plan nested i ⟨seen, objects⟩ w = (.ok ((), ⟨seen, objects⟩), w) := by
  cases hpath : i.path with
  | none => simp only [buildImport, hpath]; rfl
  | some text =>
    simp only [buildImport, hpath]
    exact congrArg (fun m : Importing Unit => m ⟨seen, objects⟩ w)
      (if_pos (h (by simp [importKeys, hpath])))

theorem buildImport_new (hpath : i.path = some p.text) (hnew : p.key ∉ seen) :
    buildImport plan nested i ⟨seen, objects⟩ w =
      (if p.IsUnit then do
        nested (← compileImport plan i.module p)
        modify fun s => { s with objects := s.objects ++ [p.withExtension "o"] }
      else modify fun s => { s with objects := s.objects ++ [p] } : Importing Unit)
        ⟨p.key :: seen, objects⟩ w := by
  simp only [buildImport, hpath]
  exact congrArg (fun m : Importing Unit => m ⟨seen, objects⟩ w) (if_neg hnew)

theorem buildImport_link (hpath : i.path = some p.text) (hnew : p.key ∉ seen)
    (hplain : ¬ p.IsUnit) :
    buildImport plan nested i ⟨seen, objects⟩ w =
      (.ok ((), ⟨p.key :: seen, objects ++ [p]⟩), w) := by
  rw [buildImport_new hpath hnew, if_neg hplain]
  rfl

theorem buildImport_fail (hpath : i.path = some p.text) (hnew : p.key ∉ seen) (hunit : p.IsUnit)
    (h : compileImport plan i.module p w = (.error f, w')) :
    buildImport plan nested i ⟨seen, objects⟩ w = (.error f, w') := by
  rw [buildImport_new hpath hnew, if_pos hunit]
  exact importing_bind_error (importing_lift_error h)

theorem buildImport_stop (hpath : i.path = some p.text) (hnew : p.key ∉ seen) (hunit : p.IsUnit)
    (h : compileImport plan i.module p w = (.ok imports, w₁))
    (hnested : nested imports ⟨p.key :: seen, objects⟩ w₁ = (.error f, w')) :
    buildImport plan nested i ⟨seen, objects⟩ w = (.error f, w') := by
  rw [buildImport_new hpath hnew, if_pos hunit, importing_bind_ok (importing_lift_ok h)]
  exact importing_bind_error hnested

theorem buildImport_unit (hpath : i.path = some p.text) (hnew : p.key ∉ seen) (hunit : p.IsUnit)
    (h : compileImport plan i.module p w = (.ok imports, w₁))
    (hnested : nested imports ⟨p.key :: seen, objects⟩ w₁ = (.ok ((), ⟨seen', objects'⟩), w')) :
    buildImport plan nested i ⟨seen, objects⟩ w =
      (.ok ((), ⟨seen', objects' ++ [p.withExtension "o"]⟩), w') := by
  rw [buildImport_new hpath hnew, if_pos hunit, importing_bind_ok (importing_lift_ok h),
    importing_bind_ok hnested]
  rfl

end

/-! ## The imports on a disk -/

/-- The imports of all units of a disk are of the given keys. -/
def Disk.Within (keys : List Key) (d : Disk) : Prop :=
  ∀ l text unit, (l, text) ∈ d.files → SourceUnit.read? text = some unit →
    importKeys unit.imports ⊆ keys

theorem read?_assembly (a : Ir.Assembly) : SourceUnit.read? a.text = none := by
  have hfirst : ∃ rest, a.text.toList = ';' :: rest := by
    simp [Ir.Assembly.text, Text.lines]
  obtain ⟨rest, hrest⟩ := hfirst
  have hvalue : ∀ calls, Json.Reader.value? (calls + 1) (';' :: rest) = none := fun _ => rfl
  simp [SourceUnit.read?, Json.read?, hrest, hvalue]

section

variable {keys : List Key} {d : Disk} {l : Location} {text : String} {p : Path} {unit : SourceUnit}
  {plan : Plan} {module : String} {imports : List Import} {w w' : Workspace}

theorem Disk.Within.put (h : d.Within keys) (htext : SourceUnit.read? text = none) :
    (d.put l text).Within keys := by
  intro l' text' unit hmem hunit
  rcases mem_cons.mp hmem with heq | hmem
  · obtain ⟨-, rfl⟩ := Prod.mk.inj heq
    simp [htext] at hunit
  · exact h l' text' unit (mem_of_mem_filter hmem) hunit

theorem Disk.Within.read (h : d.Within keys) (hread : d.read p = .ok text)
    (hunit : SourceUnit.read? text = some unit) : importKeys unit.imports ⊆ keys := by
  unfold Disk.read at hread
  cases hl : d.locate p.text with
  | error => simp [hl, bind, Except.bind] at hread
  | ok l =>
    simp only [hl, bind, Except.bind] at hread
    split at hread
    case h_1 content hget =>
      obtain rfl := Except.ok.inj hread
      refine h l content unit ?_ hunit
      unfold Disk.get? at hget
      split at hget
      case h_1 hfile =>
        cases hget
        obtain ⟨before, after, hfiles, -⟩ := lookup_eq_some_iff.mp hfile
        simp [hfiles]
      case h_2 => cases hget
      case h_3 => split at hget <;> cases hget
    case h_2 =>
      obtain rfl := Except.ok.inj hread
      exact absurd (hunit.symm.trans (by decide : SourceUnit.read? "" = none)) (by simp)
    case h_3 | h_4 => cases hread

theorem readUnit_ok (h : readUnit p w = (.ok unit, w')) :
    w' = w ∧ ∃ text, w.disk.read p = .ok text ∧ SourceUnit.read? text = some unit := by
  obtain ⟨_, _, hget, h⟩ := job_bind_inv h
  cases hget
  cases hread : w.disk.read p with
  | error => simp only [hread] at h; cases h
  | ok text =>
    simp only [hread] at h
    cases hunit : SourceUnit.read? text with
    | none => simp only [hunit] at h; cases h
    | some unit' =>
      simp only [hunit] at h
      cases h
      exact ⟨rfl, text, rfl, hunit⟩

theorem writeText_ok (h : writeText p text w = (.ok (), w')) :
    w'.calls = w.calls ∧ ∃ sink, w.disk.sink p = .ok sink ∧
      (w'.disk = w.disk ∧ (∀ l, sink ≠ .file l) ∨
        ∃ l, sink = .file l ∧ w'.disk = w.disk.put l text) := by
  obtain ⟨_, _, hget, h⟩ := job_bind_inv h
  cases hget
  rcases hsink : w.disk.sink p with fault | (l | (_ | _ | _ | _)) <;> simp only [hsink] at h <;> cases h
  case refl.ok.file.refl => exact ⟨rfl, _, rfl, .inr ⟨l, rfl, rfl⟩⟩
  all_goals exact ⟨rfl, _, rfl, .inl ⟨rfl, nofun⟩⟩

theorem runCommand_ok {c : Command} (h : runCommand c w = (.ok (), w')) :
    w'.calls = w.calls ++ [c] ∧ w'.disk = w.disk := by
  unfold runCommand at h
  cases hclean : c.isClean with
  | false => simp only [hclean] at h; cases h
  | true =>
    simp only [hclean] at h
    obtain ⟨_, _, hget, h⟩ := job_bind_inv h
    cases hget
    rcases hprogram : w.program c.program with fault | program <;> simp only [hprogram] at h
    · cases fault <;> cases h
    · obtain ⟨_, _, hcall, h⟩ := job_bind_inv h
      cases hcall
      split at h <;> cases h
      exact ⟨rfl, rfl⟩

/-- The command that assembles a unit. -/
def Plan.assemble (plan : Plan) (p : Path) : Command :=
  plan.tools.objectCommand (p.withExtension "ll") (p.withExtension "o") plan.optLevel plan.target
    plan.triple.isSome

/-- The unit that a path names. -/
def Disk.unit? (d : Disk) (p : Path) : Option SourceUnit :=
  if p.IsUnit then (d.read p).toOption.bind SourceUnit.read? else none

/-- The imports of the unit that a path names. What is not a unit has none. -/
def Disk.importsOf (d : Disk) (p : Path) : List Import := (d.unit? p).elim [] (·.imports)

/-- What is no unit does not take the place of one. -/
theorem Disk.unit?_put (hp : ¬ p.IsUnit) (h : d.sink p = .ok (.file l)) :
    (d.put l text).unit? = d.unit? := by
  obtain ⟨hlocation, hfile, hpre, hnamed⟩ := Disk.sink_ok h
  rw [← hlocation l rfl] at hfile hpre hnamed
  funext q
  unfold Disk.unit?
  split
  case isTrue hunit =>
    obtain ⟨name, hname, -⟩ := Option.bind_eq_some_iff.mp hunit
    obtain ⟨y, hy⟩ := Path.location_of_fileName? hname
    have hne : q.location ≠ l := by
      intro heq
      have hsame := hnamed name (Path.parts_of_fileName? hname).1
        (Path.fileName?_eq_some_iff.mp hname).2 (by rw [← heq, hy, getLast?_concat])
      have hext : p.extension? = q.extension? := by
        rw [Path.extension?, Path.extension?, hsame, hname]
      exact hp (hext.trans hunit)
    rw [Disk.toOption_read_put hpre hfile hne]
  case isFalse => rfl

/-- A unit never writes its assembly to the location. -/
def Path.Spares (p : Path) (l : Location) : Prop :=
  ∀ d : Disk, d.sink (p.withExtension "ll") ≠ .ok (.file l)

/-- An assembly goes to one place, and no unit is there. -/
theorem emitObject_ok {a : Ir.Assembly} {obj : Path}
    (h : emitObject plan a (p.withExtension "ll") obj w = (.ok (), w')) :
    w'.calls = w.calls ++ [plan.tools.objectCommand (p.withExtension "ll") obj plan.optLevel
      plan.target plan.triple.isSome] ∧
    (∀ keys, w.disk.Within keys → w'.disk.Within keys) ∧
    w'.disk.unit? = w.disk.unit? ∧
    (∀ l, p.Spares l → w'.disk.file? l = w.disk.file? l) ∧
    ∃ sink, w.disk.sink (p.withExtension "ll") = .ok sink ∧
      ∀ l, sink = .file l → w'.disk.file? l = some a.text := by
  obtain ⟨⟨⟩, w₁, hwrite, hrun⟩ := job_bind_inv h
  obtain ⟨hcalls, sink, hsink, hwritten⟩ := writeText_ok hwrite
  obtain ⟨hcalls', hdisk⟩ := runCommand_ok hrun
  refine ⟨by rw [hcalls', hcalls], ?_⟩
  rw [hdisk]
  rcases hwritten with ⟨hsame, hnone⟩ | ⟨l, rfl, hput⟩
  · rw [hsame]
    exact ⟨fun _ => id, rfl, fun _ _ => rfl, sink, hsink, fun l hl => absurd hl (hnone l)⟩
  · rw [hput]
    refine ⟨fun keys hwithin => hwithin.put (read?_assembly _), ?_, fun l' hl' => ?_, _, hsink, ?_⟩
    · exact Disk.unit?_put p.extension?_withExtension_ll hsink
    · exact Disk.file?_put_of_ne fun heq => hl' _ (heq ▸ hsink)
    · rintro _ ⟨⟩
      exact Disk.file?_put_self _ _ _

theorem compileImport_ok (h : compileImport plan module p w = (.ok imports, w')) :
    (∃ text unit, w.disk.read p = .ok text ∧ SourceUnit.read? text = some unit ∧
      unit.imports = imports) ∧
    w'.calls = w.calls ++ [plan.assemble p] ∧
    (∀ keys, w.disk.Within keys → w'.disk.Within keys) ∧
    w'.disk.unit? = w.disk.unit? ∧
    (∀ l, p.Spares l → w'.disk.file? l = w.disk.file? l) ∧
    ∃ sink, w.disk.sink (p.withExtension "ll") = .ok sink := by
  obtain ⟨unit, w₁, hread, hrest⟩ := job_bind_inv h
  obtain ⟨rfl, text, htext, hunit⟩ := readUnit_ok hread
  obtain ⟨compiled, w₂, hcompiled, hobject⟩ := job_bind_inv hrest
  obtain rfl : w₁ = w₂ := by
    cases hc : compile (plan.importOptions module) unit <;> rw [hc] at hcompiled <;> cases hcompiled
    rfl
  obtain ⟨⟨⟩, w₃, hemit, hpure⟩ := job_bind_inv hobject
  obtain ⟨hcalls, hwithin, hunits, hfiles, sink, hsink, -⟩ := emitObject_ok hemit
  cases hpure
  exact ⟨⟨text, unit, htext, hunit, rfl⟩, hcalls, hwithin, hunits, hfiles, sink, hsink⟩

end

/-! ## Every run follows the rules -/

/-- How many of the keys were not met. -/
def unseen (keys seen : List Key) : Nat := (keys.filter (!seen.contains ·)).length

section

variable {plan : Plan} {keys seen : List Key}

theorem unseen_append_le (more : List Key) : unseen keys (more ++ seen) ≤ unseen keys seen := by
  refine (monotone_filter_right keys fun k hk => ?_).length_le
  simp only [contains_append, Bool.not_or, Bool.and_eq_true] at hk ⊢
  exact hk.2

theorem unseen_cons_lt {k : Key} (hk : k ∈ keys) (hnew : k ∉ seen) :
    unseen keys (k :: seen) < unseen keys seen := by
  have hfilter : keys.filter (!(k :: seen).contains ·) =
      (keys.filter (!seen.contains ·)).filter (· != k) := by
    simp only [filter_filter, contains_cons, Bool.not_or, bne]
  rw [unseen, hfilter]
  exact length_filter_lt_length_iff_exists.mpr ⟨k, by simp [hk, hnew], by simp⟩

theorem importKeys_cons (i : Import) (imports : List Import) :
    importKeys (i :: imports) = importKeys [i] ++ importKeys imports := by
  simp only [importKeys, ← filterMap_append, singleton_append]

/-- With a depth above the number of keys that were not met, building follows the rules to their
end. -/
theorem builds_of_buildImports (depth : Nat) (imports : List Import) (seen : List Key)
    (objects : List Path) (w : Workspace) (himports : importKeys imports ⊆ keys)
    (hdisk : w.disk.Within keys) (hdepth : unseen keys seen < depth) :
    ∃ met order r w', Builds plan seen imports w met order r w' ∧
      (r = .ok () → w'.disk.Within keys) ∧
      buildImports plan depth imports ⟨seen, objects⟩ w =
        (r.map fun _ => ((), ⟨seenAfter seen met, objects ++ order.map Path.object⟩), w') := by
  induction depth generalizing imports seen objects w with
  | zero => omega
  | succ depth ih =>
    induction imports generalizing seen objects w with
    | nil =>
      exact ⟨[], [], .ok (), w, .done, fun _ => hdisk, by simp [buildImports, seenAfter]; rfl⟩
    | cons i rest next =>
      rw [importKeys_cons, append_subset] at himports
      have hcons : buildImports plan (depth + 1) (i :: rest) =
          buildImport plan (buildImports plan depth) i >>= fun _ =>
            buildImports plan (depth + 1) rest := rfl
      rw [hcons]
      by_cases hknown : importKeys [i] ⊆ seen
      · obtain ⟨met, order, r, w', hbuilds, hwithin, hrun⟩ :=
          next seen objects w himports.2 hdisk hdepth
        exact ⟨met, order, r, w', .skip hknown hbuilds, hwithin,
          (importing_bind_ok (buildImport_skip hknown)).trans hrun⟩
      obtain ⟨p, hpath, hnew⟩ : ∃ p : Path, i.path = some p.text ∧ p.key ∉ seen := by
        cases hpath : i.path with
        | none => simp [importKeys, hpath] at hknown
        | some text => exact ⟨⟨text⟩, rfl, by simpa [importKeys, hpath] using hknown⟩
      have hkey : p.key ∈ keys := himports.1 (by simp [importKeys, hpath])
      have hless := unseen_cons_lt hkey hnew
      by_cases hunit : p.IsUnit
      · rcases hcompiled : compileImport plan i.module p w with ⟨f | imports, w₁⟩
        · exact ⟨[], [], .error f, w₁, .fail hpath hnew hunit hcompiled, nofun,
            importing_bind_error (buildImport_fail hpath hnew hunit hcompiled)⟩
        have htaken : Takes plan i.module p w imports w₁ := by rwa [Takes, if_pos hunit]
        obtain ⟨⟨text, unit, hread, htext, rfl⟩, -, hkeeps, -⟩ := compileImport_ok hcompiled
        obtain ⟨met, order, r, w₂, hbuilds, hwithin, hrun⟩ := ih unit.imports (p.key :: seen) objects w₁
          (hdisk.read hread htext) (hkeeps _ hdisk) (by omega)
        rcases r with f | ⟨⟨⟩⟩
        · exact ⟨_, _, _, w₂, .stop hpath hnew htaken hbuilds, nofun,
            importing_bind_error (buildImport_stop hpath hnew hunit hcompiled hrun)⟩
        obtain ⟨met', order', r', w', hbuilds', hwithin', hrun'⟩ :=
          next (seenAfter (p.key :: seen) met) (objects ++ order.map Path.object ++ [p.object]) w₂ himports.2
            (hwithin rfl) (Nat.lt_of_le_of_lt (unseen_append_le _) (Nat.lt_trans hless hdepth))
        refine ⟨_, _, r', w', .build hpath hnew htaken hbuilds hbuilds', hwithin', ?_⟩
        rw [importing_bind_ok (buildImport_unit hpath hnew hunit hcompiled hrun)]
        rw [Path.object, if_pos hunit] at hrun'
        rw [hrun']
        simp [seenAfter, Path.object, hunit]
      · obtain ⟨met, order, r, w', hbuilds, hwithin, hrun⟩ :=
          next (p.key :: seen) (objects ++ [p]) w himports.2 hdisk (Nat.lt_trans hless hdepth)
        have htaken : Takes plan i.module p w [] w := by
          rw [Takes, if_neg hunit]
          exact ⟨rfl, rfl⟩
        refine ⟨_, _, r, w', .build hpath hnew htaken .done hbuilds, hwithin, ?_⟩
        rw [importing_bind_ok (buildImport_link hpath hnew hunit), hrun]
        simp [seenAfter, Path.object, hunit]

end

/-! ## What building does -/

/-- The paths that imports lead to, by way of units that have imports of their own. -/
inductive Leads (importsOf : Path → List Import) (imports : List Import) : Path → Prop where
  | direct {i : Import} {p : Path} (mem : i ∈ imports) (path : i.path = some p.text) :
    Leads importsOf imports p
  | through {i : Import} {p q : Path} (first : Leads importsOf imports q) (mem : i ∈ importsOf q)
    (path : i.path = some p.text) : Leads importsOf imports p

section

variable {plan : Plan} {importsOf : Path → List Import} {seen : List Key} {i : Import} {p q : Path}
  {imports imports' rest : List Import} {met met' : List (Path × List Import)} {order : List Path}
  {r : Except Failure Unit} {w w' : Workspace} {f : Failure} {d : Disk} {module : String}

theorem importKeys_subset (h : imports ⊆ imports') : importKeys imports ⊆ importKeys imports' :=
  filterMap_subset _ h

theorem mem_importKeys (h : i ∈ imports) (hpath : i.path = some p.text) :
    p.key ∈ importKeys imports :=
  mem_filterMap.mpr ⟨i, h, by simp [hpath]⟩

theorem Leads.mono (h : Leads importsOf imports p) (himports : imports ⊆ imports') :
    Leads importsOf imports' p := by
  induction h with
  | direct mem path => exact .direct (himports mem) path
  | through _ mem path ih => exact .through ih mem path

theorem Leads.trans (h : Leads importsOf (importsOf q) p) (hq : Leads importsOf imports q) :
    Leads importsOf imports p := by
  induction h with
  | direct mem path => exact .through hq mem path
  | through _ mem path ih => exact .through ih mem path

/-- What is closed under the imports of its units has all that they lead to. -/
theorem Leads.mem {known : List Path} (h : Leads importsOf imports p)
    (hclosed : (imports ++ known.flatMap importsOf).all (·.path.all (⟨·⟩ ∈ known)) = true) :
    p ∈ known := by
  have hnext {i : Import} {p : Path} (hi : i ∈ imports ++ known.flatMap importsOf)
      (hpath : i.path = some p.text) : p ∈ known := by
    simpa [hpath] using List.all_eq_true.mp hclosed i hi
  induction h with
  | direct mem path => exact hnext (mem_append_left _ mem) path
  | through _ mem path ih => exact hnext (mem_append_right _ (mem_flatMap.mpr ⟨_, ih, mem⟩)) path

theorem Disk.importsOf_eq {d d' : Disk} (h : d'.unit? = d.unit?) : d'.importsOf = d.importsOf := by
  funext p
  rw [importsOf, importsOf, h]

/-- A unit that is met has the imports that its file says, and no other unit changes. -/
theorem Takes.unit? (h : Takes plan module p w imports w') :
    imports = w.disk.importsOf p ∧ w'.disk.unit? = w.disk.unit? ∧
      (p.IsUnit → (w.disk.unit? p).isSome) := by
  unfold Takes at h
  rw [Disk.importsOf, Disk.unit?]
  split at h
  case isTrue hunit =>
    obtain ⟨⟨text, unit, hread, htext, rfl⟩, -, -, hunits, -⟩ := compileImport_ok h
    have hsome : (w.disk.read p).toOption.bind SourceUnit.read? = some unit := by
      rw [hread]
      exact htext
    rw [if_pos hunit, hsome]
    exact ⟨rfl, hunits, fun _ => rfl⟩
  case isFalse hplain =>
    obtain ⟨rfl, rfl⟩ := h
    rw [if_neg hplain]
    exact ⟨rfl, rfl, fun hunit => absurd hunit hplain⟩

/-- Two paths of one key lead to one file, if they can be followed. -/
theorem importsOf_subset_of_key (hkey : p.key = q.key) (hread : p.IsUnit → (d.unit? p).isSome) :
    d.importsOf q ⊆ d.importsOf p := by
  intro i hi
  unfold Disk.importsOf Disk.unit? at *
  by_cases hq : q.IsUnit
  · have hp : p.IsUnit := by
      rw [Path.IsUnit, Path.extension?, Path.fileName?_eq_of_key hkey]
      exact hq
    rw [if_pos hp] at hread ⊢
    rw [if_pos hq] at hi
    cases htext : d.read p with
    | error => simp [htext, Except.toOption, hp] at hread
    | ok text =>
      cases hother : d.read q with
      | error => simp [hother, Except.toOption] at hi
      | ok text' =>
        rw [hother, ← Disk.read_eq_of_key hkey htext hother] at hi
        exact hi
  · simp [hq] at hi

theorem seenAfter_cons (seen : List Key) (m : Path × List Import)
    (met : List (Path × List Import)) :
    seenAfter seen (m :: met) = seenAfter (m.1.key :: seen) met := by
  simp [seenAfter]

theorem seenAfter_append (seen : List Key) (met met' : List (Path × List Import)) :
    seenAfter seen (met ++ met') = seenAfter (seenAfter seen met) met' := by
  simp [seenAfter]

/-- Each path is met once. -/
theorem Builds.nodup (h : Builds plan seen imports w met order r w') (hseen : seen.Nodup) :
    (seenAfter seen met).Nodup := by
  induction h with
  | done | fail => exact hseen
  | skip _ _ ih => exact ih hseen
  | stop _ new _ _ ih =>
    rw [seenAfter_cons]
    exact ih (hseen.cons new)
  | build _ new _ _ _ ihn ih =>
    rw [cons_append, seenAfter_cons, seenAfter_append]
    exact ih (ihn (hseen.cons new))

theorem Builds.perm (h : Builds plan seen imports w met order (.ok ()) w') :
    order.Perm (met.map Prod.fst) := by
  generalize hr : Except.ok () = r at h
  induction h with
  | done => rfl
  | skip _ _ ih => exact ih hr
  | fail | stop => cases hr
  | build _ _ _ _ _ ihn ih =>
    rw [cons_append, map_cons, map_append]
    exact perm_middle.trans (((ihn rfl).append (ih hr)).cons _)

/-- One command is run for each unit that is met, and none besides. -/
theorem Builds.calls (h : Builds plan seen imports w met order (.ok ()) w') :
    w'.calls = w.calls ++ ((met.map Prod.fst).filter Path.IsUnit).map plan.assemble := by
  generalize hr : Except.ok () = r at h
  induction h with
  | done => simp
  | skip _ _ ih => exact ih hr
  | fail | stop => cases hr
  | build _ _ taken _ _ ihn ih =>
    rw [ih hr, ihn rfl]
    unfold Takes at taken
    split at taken
    case isTrue hunit =>
      obtain ⟨-, hcall, -⟩ := compileImport_ok taken
      simp [hunit, hcall]
    case isFalse hplain => simp [hplain, taken]

/-- Units stay as they are. -/
theorem Builds.unit?_eq (h : Builds plan seen imports w met order (.ok ()) w') :
    w'.disk.unit? = w.disk.unit? := by
  generalize hr : Except.ok () = r at h
  induction h with
  | done => rfl
  | skip _ _ ih => exact ih hr
  | fail | stop => cases hr
  | build _ _ taken _ _ ihn ih => rw [ih hr, ihn rfl, taken.unit?.2.1]

/-- Each unit that is met has the imports that its file says. -/
theorem Builds.read (h : Builds plan seen imports w met order r w') :
    ∀ m ∈ met, m.2 = w.disk.importsOf m.1 ∧ (m.1.IsUnit → (w.disk.unit? m.1).isSome) := by
  induction h with
  | done | fail => simp
  | skip _ _ ih => exact ih
  | stop _ _ taken _ ih =>
    obtain ⟨hown, hsame, hread⟩ := taken.unit?
    rw [hsame, Disk.importsOf_eq hsame] at ih
    exact forall_mem_cons.mpr ⟨⟨hown, hread⟩, ih⟩
  | build _ _ taken nested _ ihn ih =>
    obtain ⟨hown, hsame, hread⟩ := taken.unit?
    have hsame' := nested.unit?_eq.trans hsame
    rw [hsame, Disk.importsOf_eq hsame] at ihn
    rw [hsame', Disk.importsOf_eq hsame'] at ih
    exact forall_mem_cons.mpr ⟨⟨hown, hread⟩, forall_mem_append.mpr ⟨ihn, ih⟩⟩

theorem Builds.file?_eq (h : Builds plan seen imports w met order (.ok ()) w') {l : Location}
    (hspares : ∀ m ∈ met, m.1.IsUnit → m.1.Spares l) : w'.disk.file? l = w.disk.file? l := by
  generalize hr : Except.ok () = r at h
  induction h with
  | done => rfl
  | skip _ _ ih => exact ih hspares hr
  | fail | stop => cases hr
  | @build _ _ p imports _ _ _ _ _ _ _ _ _ _ _ _ taken _ _ ihn ih =>
    rw [ih (fun m hm => hspares m (by simp [hm])) hr, ihn (fun m hm => hspares m (by simp [hm])) rfl]
    unfold Takes at taken
    split at taken
    case isTrue hunit =>
      obtain ⟨-, -, -, -, hfile, -⟩ := compileImport_ok taken
      exact hfile l (hspares (p, imports) (by simp) hunit)
    case isFalse => rw [taken.2]

/-- The assembly of each unit that is met is written. -/
theorem Builds.sink (h : Builds plan seen imports w met order r w') :
    ∀ m ∈ met, m.1.IsUnit → ∃ (d : Disk) (sink : _), d.sink (m.1.withExtension "ll") = .ok sink := by
  have hfirst {module : String} {p : Path} {w w' : Workspace} {imports : List Import}
      (taken : Takes plan module p w imports w') (hunit : p.IsUnit) :
      ∃ (d : Disk) (sink : _), d.sink (p.withExtension "ll") = .ok sink := by
    rw [Takes, if_pos hunit] at taken
    obtain ⟨-, -, -, -, -, hsink⟩ := compileImport_ok taken
    exact ⟨_, hsink⟩
  induction h with
  | done | fail => simp
  | skip _ _ ih => exact ih
  | stop _ _ taken _ ih => exact forall_mem_cons.mpr ⟨hfirst taken, ih⟩
  | build _ _ taken _ _ ihn ih =>
    exact forall_mem_cons.mpr ⟨hfirst taken, forall_mem_append.mpr ⟨ihn, ih⟩⟩

/-- All imports, and those of all units that are met, are met in the end. -/
theorem Builds.closed (h : Builds plan seen imports w met order (.ok ()) w') :
    importKeys imports ⊆ seenAfter seen met ∧ ∀ m ∈ met, importKeys m.2 ⊆ seenAfter seen met := by
  generalize hr : Except.ok () = r at h
  induction h with
  | done => simp [importKeys]
  | skip known _ ih =>
    obtain ⟨himports, hmet⟩ := ih hr
    rw [importKeys_cons, append_subset]
    exact ⟨⟨List.Subset.trans known (subset_append_right _ _), himports⟩, hmet⟩
  | fail | stop => cases hr
  | @build seen i p own rest _ _ _ _ met met' _ _ _ path _ _ _ _ ihn ih =>
    obtain ⟨hown, hinner⟩ := ihn rfl
    obtain ⟨hrest, hmet⟩ := ih hr
    have hkept : seenAfter (p.key :: seen) met ⊆ seenAfter (seenAfter (p.key :: seen) met) met' :=
      subset_append_right _ _
    rw [cons_append, seenAfter_cons, seenAfter_append, importKeys_cons, append_subset]
    refine ⟨⟨?_, hrest⟩, ?_⟩
    · simp [importKeys, path, seenAfter]
    · simp only [mem_cons, mem_append]
      rintro m (rfl | hm | hm)
      · exact List.Subset.trans hown hkept
      · exact List.Subset.trans (hinner m hm) hkept
      · exact hmet m hm

/-- The imports lead to what is met. -/
theorem Builds.leads (h : Builds plan seen imports w met order r w') :
    ∀ m ∈ met, Leads w.disk.importsOf imports m.1 := by
  induction h with
  | done | fail => simp
  | skip _ _ ih => exact fun m hm => (ih m hm).mono (subset_cons_self _ _)
  | stop path _ taken _ ih =>
    obtain ⟨rfl, hsame, -⟩ := taken.unit?
    rw [Disk.importsOf_eq hsame] at ih
    refine forall_mem_cons.mpr ⟨.direct mem_cons_self path, fun m hm => ?_⟩
    exact (ih m hm).trans (.direct mem_cons_self path)
  | build path _ taken nested _ ihn ih =>
    obtain ⟨rfl, hsame, -⟩ := taken.unit?
    rw [Disk.importsOf_eq hsame] at ihn
    rw [Disk.importsOf_eq (nested.unit?_eq.trans hsame)] at ih
    refine forall_mem_cons.mpr ⟨.direct mem_cons_self path, forall_mem_append.mpr ⟨fun m hm => ?_,
      fun m hm => (ih m hm).mono (subset_cons_self _ _)⟩⟩
    exact (ihn m hm).trans (.direct mem_cons_self path)

/-- All that the imports lead to is met, under one of its paths. -/
theorem Builds.mem_of_leads (h : Builds plan [] imports w met order (.ok ()) w')
    (hp : Leads w.disk.importsOf imports p) : p.key ∈ met.map (·.1.key) := by
  obtain ⟨himports, hmet⟩ := h.closed
  have hseen : ∀ k, k ∈ seenAfter [] met ↔ k ∈ met.map (·.1.key) := by simp [seenAfter]
  induction hp with
  | direct mem path => exact (hseen _).mp (himports (mem_importKeys mem path))
  | through _ mem path ih =>
    obtain ⟨m, hm, hkey⟩ := mem_map.mp ih
    obtain ⟨hown, hread⟩ := h.read m hm
    have hi := importsOf_subset_of_key hkey hread mem
    exact (hseen _).mp (hmet m hm (mem_importKeys (hown ▸ hi) path))

/-- Behind a path the paths are met that its imports are the first to lead to. Their objects are
listed in front of its own. -/
theorem Builds.behind (h : Builds plan seen imports w met order (.ok ()) w')
    {before after : List (Path × List Import)} (hmet : met = before ++ (p, imports') :: after) :
    ∃ inner rest front back, after = inner ++ rest ∧ order = front ++ p :: back ∧
      inner.map Prod.fst ⊆ front ∧ ∀ m ∈ (p, imports') :: inner,
        importKeys m.2 ⊆ seenAfter seen (before ++ (p, imports') :: inner) := by
  generalize hr : Except.ok () = r at h
  induction h generalizing before after with
  | done => simp at hmet
  | skip known _ ih => exact ih hmet hr
  | fail | stop => cases hr
  | @build seen i q imports rest _ _ _ _ met met' order order' _ path new _ nested _ ihn ih =>
    cases before with
    | nil =>
      obtain ⟨heq, rfl⟩ := List.cons.inj hmet
      obtain ⟨rfl, rfl⟩ := Prod.mk.inj heq
      obtain ⟨hown, hinner⟩ := nested.closed
      refine ⟨met, met', order, order', rfl, rfl, nested.perm.symm.subset, ?_⟩
      rw [nil_append, seenAfter_cons]
      exact forall_mem_cons.mpr ⟨hown, hinner⟩
    | cons m before =>
      obtain ⟨rfl, hrest⟩ := List.cons.inj hmet
      simp only [cons_append, seenAfter_cons]
      -- The path is met by way of the imports of `q`, or behind them.
      obtain ⟨more, rfl, hmore⟩ | ⟨m', more, rfl, hmore⟩ : (∃ more, before = met ++ more ∧
          met' = more ++ (p, imports') :: after) ∨ ∃ m more, met = before ++ m :: more ∧
            (p, imports') :: after = m :: more ++ met' := by
        rcases append_eq_append_iff.mp hrest with h | ⟨_ | ⟨m, more⟩, hmet, hafter⟩
        · exact .inl h
        · exact .inl ⟨[], by simp [hmet], hafter.symm⟩
        · exact .inr ⟨m, more, hmet, hafter⟩
      · obtain ⟨inner, rest, front, back, hafter, rfl, hfront, hinner⟩ := ih hmore hr
        refine ⟨inner, rest, order ++ q :: front, back, hafter, by simp, fun k hk => ?_, ?_⟩
        · simp [hfront hk]
        · rwa [append_assoc, seenAfter_append]
      · obtain ⟨rfl, rfl⟩ := List.cons.inj hmore
        obtain ⟨inner, rest, front, back, rfl, rfl, hfront, hinner⟩ := ihn rfl rfl
        exact ⟨inner, rest ++ met', front, back ++ q :: order', by simp, by simp, hfront, hinner⟩

/-- Building fails only where a unit that the imports lead to cannot be read, compiled or
assembled. -/
theorem Builds.failure (h : Builds plan seen imports w met order (.error f) w') :
    ∃ module p v, Leads w.disk.importsOf imports p ∧ p.IsUnit ∧ v.disk.unit? = w.disk.unit? ∧
      compileImport plan module p v = (.error f, w') := by
  generalize hr : Except.error f = r at h
  induction h with
  | done => cases hr
  | skip _ _ ih =>
    obtain ⟨module, p, v, hleads, hp⟩ := ih hr
    exact ⟨module, p, v, hleads.mono (subset_cons_self _ _), hp⟩
  | fail path _ unit compiled =>
    cases hr
    exact ⟨_, _, _, .direct mem_cons_self path, unit, rfl, compiled⟩
  | stop path _ taken _ ih =>
    obtain ⟨rfl, hsame, -⟩ := taken.unit?
    obtain ⟨module, p, v, hleads, hunit, hv, hp⟩ := ih hr
    rw [Disk.importsOf_eq hsame] at hleads
    exact ⟨module, p, v, hleads.trans (.direct mem_cons_self path), hunit, hv.trans hsame, hp⟩
  | build _ _ taken nested _ _ ih =>
    have hsame := nested.unit?_eq.trans taken.unit?.2.1
    obtain ⟨module, p, v, hleads, hunit, hv, hp⟩ := ih hr
    rw [Disk.importsOf_eq hsame] at hleads
    exact ⟨module, p, v, hleads.mono (subset_cons_self _ _), hunit, hv.trans hsame, hp⟩

end

theorem builds_of_buildAllImports (plan : Plan) (imports : List Import) (w : Workspace) :
    ∃ met order r w', Builds plan [] imports w met order r w' ∧
      buildAllImports plan imports w = (r.map fun _ => order.map Path.object, w') := by
  -- The keys of all imports that a run can come to.
  let onDisk := w.disk.files.flatMap fun file => ((SourceUnit.read? file.2).map (·.imports)).getD []
  have hwithin : w.disk.Within (importKeys (onDisk ++ imports)) := by
    intro l text unit hmem hunit
    refine importKeys_subset fun i hi => mem_append_left _ (mem_flatMap.mpr ⟨_, hmem, ?_⟩)
    simpa [hunit] using hi
  have hdepth : unseen (importKeys (onDisk ++ imports)) [] < w.disk.importCount + imports.length + 1 := by
    have hkeys : (importKeys (onDisk ++ imports)).length ≤ (onDisk ++ imports).length :=
      length_filterMap_le _ _
    rw [length_append] at hkeys
    exact Nat.lt_succ_of_le (Nat.le_trans (length_filter_le _ _) hkeys)
  obtain ⟨met, order, r, w', hbuilds, -, hrun⟩ := builds_of_buildImports _ imports [] [] w
    (importKeys_subset (subset_append_right _ _)) hwithin hdepth
  refine ⟨met, order, r, w', hbuilds, ?_⟩
  have hget : (get : Job Workspace) w = (.ok w, w) := rfl
  refine (job_bind_ok hget).trans ?_
  cases r with
  | error f => exact job_bind_error hrun
  | ok => exact job_bind_ok hrun

/-- Building the imports of a unit comes to an end. Either it fails, at a unit that the files on the
disk lead to, which cannot be read, compiled or assembled. Or it meets each path that they lead to
once, by way of units only; runs one command for each unit; and lists one object for each path, that
of a unit behind those of all paths that its imports lead to past what was met before. -/
theorem buildAllImports_builds (plan : Plan) (imports : List Import) (w : Workspace) :
    ∃ met order r w', buildAllImports plan imports w = (r.map fun _ => order.map Path.object, w') ∧
      Builds plan [] imports w met order r w' ∧ (met.map (·.1.key)).Nodup ∧
      (∀ m ∈ met, Leads w.disk.importsOf imports m.1 ∧ m.2 = w.disk.importsOf m.1) ∧
      (∀ f, r = .error f → ∃ module p v, Leads w.disk.importsOf imports p ∧ p.IsUnit ∧
        v.disk.unit? = w.disk.unit? ∧ compileImport plan module p v = (.error f, w')) ∧
      (r = .ok () →
        (∀ p, Leads w.disk.importsOf imports p → p.key ∈ met.map (·.1.key)) ∧
        w'.calls = w.calls ++ ((met.map Prod.fst).filter Path.IsUnit).map plan.assemble ∧
        order.Perm (met.map Prod.fst) ∧
        ∀ before p own after, met = before ++ (p, own) :: after →
          ∃ inner rest front back, after = inner ++ rest ∧ order = front ++ p :: back ∧
            inner.map Prod.fst ⊆ front ∧ ∀ m ∈ (p, own) :: inner,
              importKeys m.2 ⊆ (before ++ (p, own) :: inner).map (·.1.key)) := by
  obtain ⟨met, order, r, w', hbuilds, hrun⟩ := builds_of_buildAllImports plan imports w
  have hnodup : (met.map (·.1.key)).Nodup := by
    simpa [seenAfter] using hbuilds.nodup nodup_nil
  refine ⟨met, order, r, w', hrun, hbuilds, hnodup,
    fun m hm => ⟨hbuilds.leads m hm, (hbuilds.read m hm).1⟩, ?_, ?_⟩
  · rintro f rfl
    exact hbuilds.failure
  · rintro rfl
    refine ⟨fun _ => hbuilds.mem_of_leads, hbuilds.calls, hbuilds.perm, fun before p own after hmet => ?_⟩
    obtain ⟨inner, rest, front, back, hafter, horder, hfront, hinner⟩ := hbuilds.behind hmet
    refine ⟨inner, rest, front, back, hafter, horder, hfront, fun m hm k hk => ?_⟩
    simpa [seenAfter, or_comm, or_left_comm, or_assoc] using hinner m hm hk

/-- Two units that both import a third one, which imports the first. -/
def diamond : Workspace where
  disk := { files := [
    (["b.json"], "\x7b\"statements\":[],\"imports\":[\x7b\"module\":\"d\",\"path\":\"d.json\"\x7d]\x7d"),
    (["c.json"], "\x7b\"statements\":[],\"imports\":[\x7b\"module\":\"d\",\"path\":\"d.json\"\x7d]\x7d"),
    (["d.json"], "\x7b\"statements\":[],\"imports\":[\x7b\"module\":\"b\",\"path\":\"b.json\"\x7d]\x7d")] }
  programs := [("llc", {}), ("cc", {})]

/-- Each unit is built once, behind those that it is the first to lead to. -/
theorem buildAllImports_diamond :
    let plan : Plan := ⟨{}, .resolve none, none, 2, true⟩
    let imports : List Import := [⟨"b", some "b.json"⟩, ⟨"c", some "c.json"⟩]
    ∃ met order w', Builds plan [] imports diamond met order (.ok ()) w' ∧
      order.map Path.object = [⟨"d.o"⟩, ⟨"b.o"⟩, ⟨"c.o"⟩] ∧
      ∀ p, Leads diamond.disk.importsOf imports p → p.key ∈ met.map (·.1.key) := by
  intro plan imports
  have hobjects : (buildAllImports plan imports diamond).1.toOption =
      some [⟨"d.o"⟩, ⟨"b.o"⟩, ⟨"c.o"⟩] := by
    decide +kernel
  obtain ⟨met, order, r, w', hrun, hbuilds, -, -, -, hok⟩ := buildAllImports_builds plan imports diamond
  rw [hrun] at hobjects
  cases r with
  | error => cases hobjects
  | ok => exact ⟨met, order, w', hbuilds, Option.some.inj hobjects, (hok rfl).1⟩

/-! ## An executable -/

/-- Where an executable is made of a program and its imports, the commands that are run are those that
assemble the program, then the units that the imports lead to, and at last the one that links all
objects, that of the program first. The assembly of the program is still in its file then, unless one
of the units writes its own there. If no unit that the imports lead to stands where a unit of the
name of the program would, none does, and none has its object in the place of that of the program. -/
theorem linkProgram_keeps (plan : Plan) (runtime : Option Path) (u : SourceUnit) (a : Ir.Assembly)
    (output : Path) (w : Workspace) :
    ∃ r w', linkProgram plan runtime u a output w = (r, w') ∧ (r = .ok () →
      ∃ met order w₁ w₂, Builds plan [] u.imports w₁ met order (.ok ()) w₂ ∧
        (∀ m ∈ met, Leads w.disk.importsOf u.imports m.1) ∧
        w'.calls = w.calls ++ plan.assemble output ::
          ((met.map Prod.fst).filter Path.IsUnit).map plan.assemble ++
            [plan.tools.linkCommand (output.withExtension "o" :: order.map Path.object) runtime output
              plan.target] ∧
        (∀ l, w.disk.sink (output.withExtension "ll") = .ok (.file l) →
          (∀ m ∈ met, m.1.IsUnit → m.1.Spares l) → w'.disk.file? l = some a.text) ∧
        ((∀ p, Leads w.disk.importsOf u.imports p → p.IsUnit →
            (p.withExtension "json").location ≠ (output.withExtension "json").location) →
          (∀ l, w.disk.sink (output.withExtension "ll") = .ok (.file l) →
            w'.disk.file? l = some a.text) ∧
          ∀ m ∈ met, m.1.IsUnit →
            (m.1.withExtension "o").location ≠ (output.withExtension "o").location)) := by
  rcases hrun : linkProgram plan runtime u a output w with ⟨r, w'⟩
  refine ⟨r, w', rfl, ?_⟩
  rintro rfl
  obtain ⟨⟨⟩, w₁, hemit, hrest⟩ := job_bind_inv hrun
  obtain ⟨objects, w₂, hobjects, hlink⟩ := job_bind_inv hrest
  obtain ⟨hcalls₁, -, hunits, -, sink, hsink, hwritten⟩ := emitObject_ok hemit
  obtain ⟨hcalls', hdisk'⟩ := runCommand_ok hlink
  obtain ⟨met, order, r, w₂', hbuilds, hall⟩ := builds_of_buildAllImports plan u.imports w₁
  obtain ⟨hobjects', rfl⟩ := Prod.mk.inj (hall.symm.trans hobjects)
  cases r with
  | error => cases hobjects'
  | ok =>
    obtain rfl := Except.ok.inj hobjects'
    have hleads := Disk.importsOf_eq hunits ▸ hbuilds.leads
    have hkeeps (l : Location) (hl : w.disk.sink (output.withExtension "ll") = .ok (.file l))
        (hspares : ∀ m ∈ met, m.1.IsUnit → m.1.Spares l) : w'.disk.file? l = some a.text := by
      rw [hdisk', hbuilds.file?_eq hspares]
      exact hwritten l (Except.ok.inj (hsink.symm.trans hl))
    refine ⟨met, order, w₁, _, hbuilds, hleads, ?_, hkeeps, fun hne => ?_⟩
    · rw [hcalls', hbuilds.calls, hcalls₁]
      simp [Plan.assemble]
    · have hapart {e : String} (he : '/' ∉ e.toList ∧ e.toList ≠ [])
          (m : Path × List Import) (hm : m ∈ met) (hunit : m.1.IsUnit) :
          (m.1.withExtension e).location ≠ (output.withExtension e).location := by
        obtain ⟨d, sink', hsink'⟩ := hbuilds.sink m hm hunit
        exact Disk.location_withExtension_ne hsink' hsink (hne m.1 (hleads m hm) hunit) he.1 he.2
      refine ⟨fun l hl => hkeeps l hl fun m hm hunit d hd => ?_,
        hapart (e := "o") (by decide)⟩
      refine hapart (e := "ll") (by decide) m hm hunit ?_
      rw [← (Disk.sink_ok hd).1 l rfl, ← (Disk.sink_ok hl).1 l rfl]

/-- A program keeps its assembly next to units that import each other. -/
theorem linkProgram_keeps_diamond :
    let plan : Plan := ⟨{}, .resolve none, none, 2, true⟩
    let u : SourceUnit := ⟨[], [], [⟨"b", some "b.json"⟩, ⟨"c", some "c.json"⟩], none⟩
    let a : Ir.Assembly := { name := "main", triple := "" }
    ∃ w', linkProgram plan none u a ⟨"main"⟩ diamond = (.ok (), w') ∧
      w'.disk.file? ["main.ll"] = some a.text := by
  intro plan u a
  obtain ⟨r, w', hrun, hkeeps⟩ := linkProgram_keeps plan none u a ⟨"main"⟩ diamond
  have hok : (linkProgram plan none u a ⟨"main"⟩ diamond).1.toOption = some () := by
    decide +kernel
  obtain rfl : r = .ok () := by
    rw [hrun] at hok
    cases r with
    | error => cases hok
    | ok => rfl
  refine ⟨w', hrun, ?_⟩
  obtain ⟨_, _, _, _, -, -, -, -, hapart⟩ := hkeeps rfl
  refine (hapart fun p hp _ => ?_).1 ["main.ll"] (by decide +kernel)
  have hmem : p ∈ [⟨"b.json"⟩, ⟨"c.json"⟩, ⟨"d.json"⟩] := hp.mem (by decide +kernel)
  have hall : ∀ p ∈ ([⟨"b.json"⟩, ⟨"c.json"⟩, ⟨"d.json"⟩] : List Path),
      (p.withExtension "json").location ≠ (Path.withExtension ⟨"main"⟩ "json").location := by
    decide +kernel
  exact hall p hmem
/-- A program that its own import imports. -/
def cyclic : Workspace where
  disk := { files := [
    (["main.json"], "\x7b\"statements\":[],\"imports\":[\x7b\"module\":\"lib\",\"path\":\"lib.json\"\x7d]\x7d"),
    (["lib.json"], "\x7b\"statements\":[],\"imports\":[\x7b\"module\":\"m\",\"path\":\"main.json\"\x7d]\x7d")] }
  programs := [("llc", {}), ("cc", {})]

/-- The program is assembled once more, as a library, and takes its own place. -/
theorem linkProgram_cyclic :
    (linkProgram ⟨{}, .resolve none, none, 2, true⟩ none ⟨[], [], [⟨"lib", some "lib.json"⟩], none⟩
      { name := "main", triple := "" } (defaultOutput ⟨"main.json"⟩ .exe (.resolve none))
      cyclic).2.calls.map (·.args) =
      [["-O2", "-filetype=obj", "main.ll", "-o", "main.o"],
        ["-O2", "-filetype=obj", "lib.ll", "-o", "lib.o"],
        ["-O2", "-filetype=obj", "main.ll", "-o", "main.o"],
        ["main.o", "main.o", "lib.o", "-o", "main", "-lm"]] := by
  decide +kernel

end ScriptCompiler.Build
