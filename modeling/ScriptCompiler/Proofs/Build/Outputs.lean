import Mathlib.Data.List.TakeWhile
import ScriptCompiler.Build.Command

/-!
# Where results go

Without a place for its result, a build puts it beside the input: the extension of the input is
replaced, or taken away for an executable. Different inputs then have different results, and no
result takes the place of an input (`defaultOutput_apart`).

Paths are told apart by their keys. What a path is followed by a name is read off its text again
(`exists_push`), and so is the directory around a file (`key_parent`).

All that is so of inputs `stem.json` whose stem has no extension of its own. The extension is cut off
before another is put in, so that with `a.b.json` a second one goes along, and the result takes the
place of that of `a.json` (`defaultOutput_collides`).
-/

namespace ScriptCompiler.Build

open List

/-- What the name of a result ends in. -/
def Artifact.ending (target : Target) : Artifact → List Char
  | .ir => '.' :: "ll".toList
  | .obj => '.' :: "o".toList
  | .exe => if target.isWasm then '.' :: "wasm".toList else []

namespace Path

/-- The part of a path that names a file or a directory. -/
structure IsName (name : List Char) : Prop where
  unbroken : '/' ∉ name
  counts : isIdle name = false

/-- The name of a file, with no extension. -/
structure IsStem (name : List Char) : Prop where
  counts : isIdle name = false
  plain : splitAtLastDot name = none

variable {name stem stem' : List Char} {p p' : Path}

theorem isIdle_eq_false : isIdle name = false ↔ name ≠ [] ∧ name ≠ ['.'] := by
  simp [isIdle]

/-! ## Parts of a text -/

theorem splitAtSlashes_eq_splitOn (cs : List Char) : splitAtSlashes cs = cs.splitOn '/' := by
  induction cs with
  | nil => rfl
  | cons c rest ih =>
    rw [splitAtSlashes, ih, splitOn_cons_eq_if_modifyHead]
    by_cases hc : c = '/'
    · simp [hc]
    · rw [if_neg hc, if_neg (by simpa using hc)]
      cases hrest : rest.splitOn '/' with
      | nil => exact absurd hrest (splitOn_ne_nil _ _)
      | cons => rfl

/-- Joined again, the parts of a text are the text. -/
theorem intercalate_splitAtSlashes (cs : List Char) :
    intercalate ['/'] (splitAtSlashes cs) = cs := by
  rw [splitAtSlashes_eq_splitOn, intercalate_splitOn]

/-- No part has a slash. -/
theorem notMem_of_mem_splitAtSlashes {part cs : List Char} (h : part ∈ splitAtSlashes cs) :
    '/' ∉ part := by
  induction cs generalizing part with
  | nil =>
    rw [splitAtSlashes, mem_singleton] at h
    simp [h]
  | cons c rest ih =>
    rw [splitAtSlashes] at h
    split at h
    · exact (mem_cons.mp h).elim (by rintro rfl; exact not_mem_nil) ih
    case isFalse hc =>
      split at h
      · rw [mem_singleton] at h
        simpa [h] using Ne.symm hc
      case h_2 first others hsplit =>
        rw [hsplit] at ih
        rcases mem_cons.mp h with rfl | h
        · exact mt (mem_cons.mp · |>.resolve_left (Ne.symm hc)) (ih mem_cons_self)
        · exact ih (mem_cons_of_mem _ h)

theorem splitAtSlashes_append (cs rest : List Char) :
    splitAtSlashes (cs ++ '/' :: rest) = splitAtSlashes cs ++ splitAtSlashes rest := by
  simp only [splitAtSlashes_eq_splitOn, splitOn_append_cons_self]

theorem splitAtSlashes_of_notMem (h : '/' ∉ name) : splitAtSlashes name = [name] := by
  rw [splitAtSlashes_eq_splitOn, splitOn_eq_singleton h]

/-- Idle parts count for nothing, at the end or elsewhere. -/
theorem filter_trimParts (parts : List (List Char)) :
    (trimParts parts).filter (!isIdle ·) = parts.filter (!isIdle ·) := by
  have hidle : (parts.reverse.takeWhile isIdle).filter (!isIdle ·) = [] := by
    refine filter_eq_nil_iff.mpr fun part hpart => ?_
    simp [mem_takeWhile_imp hpart]
  have hsplit := congrArg (filter (!isIdle ·))
    (takeWhile_append_dropWhile : parts.reverse.takeWhile isIdle ++ parts.reverse.dropWhile isIdle = _)
  rw [filter_append, hidle, nil_append, filter_reverse] at hsplit
  rw [trimParts, filter_reverse, hsplit, reverse_reverse]

theorem trimParts_append (parts : List (List Char)) (h : isIdle name = false) :
    trimParts (parts ++ [name]) = parts ++ [name] := by
  simp [trimParts, h]

theorem trimParts_isPrefix (parts : List (List Char)) : trimParts parts <+: parts := by
  rw [trimParts, ← reverse_suffix, reverse_reverse]
  exact dropWhile_suffix _

/-! ## A path and a name -/

/-- The front and the rest are the text. -/
theorem text_eq (p : Path) : p.text.toList = p.front ++ p.split.2 := by
  unfold front split
  split <;> simp_all

/-- A slash and more behind a path change nothing about its front. -/
theorem split_append {cs : List Char} (hcs : cs ≠ []) (rest : List Char) :
    split ⟨String.ofList (cs ++ '/' :: rest)⟩ =
      (front ⟨String.ofList cs⟩, (split ⟨String.ofList cs⟩).2 ++ '/' :: rest) := by
  unfold front split
  simp only [String.toList_ofList]
  rcases cs with _ | ⟨c, _ | ⟨c', cs⟩⟩
  · exact absurd rfl hcs
  · by_cases hslash : c = '/'
    · simp [hslash]
    · by_cases hdot : c = '.'
      · simp [hdot]
      · simp [hslash, hdot]
  · by_cases hslash : c = '/'
    · simp [hslash]
    · by_cases hdot : c = '.' <;> by_cases hslash' : c' = '/' <;> simp [hslash, hdot, hslash']

/-- A name alone has nothing in front. -/
theorem split_ofName (h : IsName name) : split ⟨String.ofList name⟩ = ([], name) := by
  have hne := isIdle_eq_false.mp h.counts
  have hunbroken := h.unbroken
  rw [split, String.toList_ofList]
  split <;> simp_all

/-- A path whose last part counts, read off its text. -/
theorem eq_ofParts {before rest : List Char} {inner : List (List Char)}
    (hsplit : p.split = (before, rest)) (hrest : splitAtSlashes rest = inner ++ [name])
    (hname : isIdle name = false) :
    p = ofParts before (inner ++ [name]) ∧ p.front = before ∧ p.parts = inner ++ [name] := by
  have hfront : p.front = before := congrArg Prod.fst hsplit
  refine ⟨?_, hfront, ?_⟩
  · have htext := p.text_eq
    rw [hfront, hsplit, ← intercalate_splitAtSlashes rest, hrest] at htext
    rw [ofParts, ← htext, String.ofList_toList]
  · rw [parts, hsplit, hrest, trimParts_append _ hname]

/-- The same where a slash stands in front of the last part. -/
theorem eq_ofParts_behind {cs : List Char} (hcs : cs ≠ []) (hname : IsName name)
    (hp : p = ⟨String.ofList (cs ++ '/' :: name)⟩) :
    let inner := splitAtSlashes (split ⟨String.ofList cs⟩).2
    p = ofParts (front ⟨String.ofList cs⟩) (inner ++ [name]) ∧
      p.front = front ⟨String.ofList cs⟩ ∧ p.parts = inner ++ [name] := by
  have hsplit := split_append hcs name
  rw [← hp] at hsplit
  refine eq_ofParts hsplit ?_ hname.counts
  rw [splitAtSlashes_append, splitAtSlashes_of_notMem hname.unbroken]

/-- What stands in front of a name that is put behind a path: parts that count as those of the path
do. The name becomes the last part. -/
theorem exists_push (p : Path) : ∃ inner : List (List Char),
    inner.filter (!isIdle ·) = p.key.2 ∧ ∀ name, IsName name →
      p.push name = ofParts p.front (inner ++ [name]) ∧
        (p.push name).front = p.front ∧ (p.push name).parts = inner ++ [name] := by
  have hkey : p.key.2 = (splitAtSlashes p.split.2).filter (!isIdle ·) := filter_trimParts _
  have hhead {name : List Char} (hname : IsName name) : name.head? ≠ some '/' :=
    fun h => hname.unbroken (mem_of_head? h)
  by_cases hempty : p.text.toList = []
  · -- Nothing is in front of the name.
    have hp : p.split = ([], []) := by simp [split, hempty]
    refine ⟨[], by rw [hkey, hp]; rfl, fun name hname => ?_⟩
    have hpush : p.push name = ⟨String.ofList name⟩ := by simp [push, hempty, hhead hname]
    rw [front, hp]
    exact eq_ofParts (hpush ▸ split_ofName hname) (splitAtSlashes_of_notMem hname.unbroken) hname.counts
  by_cases hlast : p.text.toList.getLast? = some '/'
  · obtain ⟨cs, htext⟩ := getLast?_eq_some_iff.mp hlast
    have hpush {name : List Char} (hname : IsName name) :
        p.push name = ⟨String.ofList (cs ++ '/' :: name)⟩ := by
      simp [push, htext, hhead hname]
    have hp : p = ⟨String.ofList (cs ++ '/' :: [])⟩ := by
      rw [← htext, String.ofList_toList]
    rcases eq_or_ne cs [] with rfl | hcs
    · -- The path is a slash.
      have hslash : p.split = (['/'], []) := by rw [hp]; simp [split]
      refine ⟨[], by rw [hkey, hslash]; rfl, fun name hname => ?_⟩
      have hsplit : (p.push name).split = (['/'], name) := by rw [hpush hname]; simp [split]
      rw [front, hslash]
      exact eq_ofParts hsplit (splitAtSlashes_of_notMem hname.unbroken) hname.counts
    · have hsplit := split_append hcs []
      rw [← hp] at hsplit
      refine ⟨splitAtSlashes (split ⟨String.ofList cs⟩).2, ?_, fun name hname => ?_⟩
      · rw [hkey, hsplit, splitAtSlashes_append, filter_append]
        simp [splitAtSlashes, isIdle]
      · rw [front, hsplit]
        exact eq_ofParts_behind hcs hname (hpush hname)
  · refine ⟨splitAtSlashes p.split.2, hkey.symm, fun name hname => ?_⟩
    have hpush : p.push name = ⟨String.ofList (p.text.toList ++ '/' :: name)⟩ := by
      simp [push, hempty, hlast, hhead hname]
    simpa using eq_ofParts_behind hempty hname hpush

/-! ## The directory around a file -/

theorem unbroken_of_mem_parts {part : List Char} (h : part ∈ p.parts) : '/' ∉ part :=
  notMem_of_mem_splitAtSlashes ((trimParts_isPrefix _).subset h)

theorem isIdle_of_getLast?_trimParts {parts : List (List Char)}
    (h : (trimParts parts).getLast? = some name) : isIdle name = false := by
  rw [trimParts, getLast?_reverse] at h
  have hfirst := head?_dropWhile_not isIdle parts.reverse
  rwa [h] at hfirst

/-- A file name is the last part, and counts. -/
theorem parts_of_fileName? (h : p.fileName? = some name) :
    IsName name ∧ p.parts = p.parts.dropLast ++ [name] := by
  have hlast : p.parts.getLast? = some name := by
    unfold fileName? at h
    split at h
    · cases h
    · exact h
  obtain ⟨inner, hparts⟩ := getLast?_eq_some_iff.mp hlast
  exact ⟨⟨unbroken_of_mem_parts (mem_of_getLast? hlast), isIdle_of_getLast?_trimParts hlast⟩,
    by simp [hparts]⟩

theorem head?_splitAtSlashes (cs : List Char) :
    (splitAtSlashes cs).head? = some (cs.takeWhile (· ≠ '/')) := by
  induction cs with
  | nil => rfl
  | cons c rest ih =>
    rw [splitAtSlashes]
    by_cases hc : c = '/'
    · simp [hc]
    · rw [if_neg hc, takeWhile_cons_of_pos (by simpa using hc)]
      cases hrest : splitAtSlashes rest <;> simp_all

/-- What may stand in front of parts: a slash; or a dot, with a slash behind it or nothing; or nothing,
and then the first part counts. -/
def Fronts (before : List Char) (parts : List (List Char)) : Prop :=
  before = ['/'] ∨ before = ['.'] ∧ (∀ first, parts.head? = some first → first = []) ∨
    before = [] ∧ ∀ first, parts.head? = some first → isIdle first = false

theorem Fronts.mono {before : List Char} {pre parts : List (List Char)} (h : Fronts before parts)
    (hpre : pre <+: parts) : Fronts before pre := by
  have hhead {first : List Char} (hfirst : pre.head? = some first) : parts.head? = some first := by
    obtain ⟨rest, rfl⟩ := hpre
    rw [head?_append, hfirst, Option.some_or]
  exact h.imp id (Or.imp (And.imp_right fun h first hfirst => h first (hhead hfirst))
    (And.imp_right fun h first hfirst => h first (hhead hfirst)))

/-- Behind a front, a name may take the place of the last part. -/
theorem Fronts.concat {before last : List Char} {parts : List (List Char)}
    (h : Fronts before (parts ++ [last])) (hlast : isIdle last = false) (hname : isIdle name = false) :
    Fronts before (parts ++ [name]) := by
  cases parts with
  | cons => exact h
  | nil =>
    rcases h with h | ⟨-, h⟩ | ⟨h, -⟩
    · exact .inl h
    · exact absurd (h last rfl ▸ hlast) (by decide)
    · exact .inr (.inr ⟨h, fun first hfirst => Option.some.inj hfirst ▸ hname⟩)

theorem fronts_parts (p : Path) : Fronts p.front p.parts := by
  have hsplit : Fronts p.front (splitAtSlashes p.split.2) ∨ p.split = ([], []) := by
    unfold Fronts front split
    generalize p.text.toList = cs
    simp only [head?_splitAtSlashes, Option.some.injEq, forall_eq']
    split
    · exact .inl (.inl rfl)
    · exact .inl (.inr (.inl ⟨rfl, rfl⟩))
    · exact .inl (.inr (.inl ⟨rfl, rfl⟩))
    case h_4 hslash hdot hdots =>
      rw [isIdle_eq_false]
      rcases cs with _ | ⟨c, _ | ⟨c', cs⟩⟩
      · exact .inr rfl
      all_goals simp_all [takeWhile_cons]
  rcases hsplit with h | h
  · exact h.mono (trimParts_isPrefix _)
  · rw [front, parts, h]
    exact .inr (.inr ⟨rfl, nofun⟩)

/-- Parts behind a front are read off the text as they are. -/
theorem split_ofParts {before : List Char} {pre : List (List Char)} (h : Fronts before pre)
    (hunbroken : ∀ part ∈ pre, '/' ∉ part) (hlast : pre ≠ [[]]) :
    (ofParts before pre).split = (before, intercalate ['/'] pre) := by
  rcases h with rfl | ⟨rfl, hhead⟩ | ⟨rfl, hhead⟩
  · simp [ofParts, split]
  · rcases pre with _ | ⟨first, _ | ⟨second, more⟩⟩
    · rfl
    · exact absurd (by rw [hhead first rfl]) hlast
    · obtain rfl : first = [] := hhead first rfl
      simp [ofParts, split, intercalate, intersperse]
  · rcases pre with _ | ⟨first, more⟩
    · rfl
    · have hfirst : IsName first := ⟨hunbroken first mem_cons_self, hhead first rfl⟩
      have hname := split_ofName hfirst
      cases more with
      | nil => simpa [ofParts, intercalate] using hname
      | cons second more =>
        have hsplit := split_append (isIdle_eq_false.mp hfirst.counts).1
          (intercalate ['/'] (second :: more))
        rw [front, hname] at hsplit
        simpa [ofParts, intercalate, intersperse] using hsplit

theorem key_ofParts {before : List Char} {pre : List (List Char)} (h : Fronts before pre)
    (hunbroken : ∀ part ∈ pre, '/' ∉ part) (hlast : pre ≠ [[]]) :
    (ofParts before pre).key = (before, pre.filter (!isIdle ·)) := by
  have hsplit := split_ofParts h hunbroken hlast
  rw [key, parts, filter_trimParts, front, hsplit]
  rcases eq_or_ne pre [] with rfl | hne
  · rfl
  · rw [splitAtSlashes_eq_splitOn, splitOn_intercalate _ hunbroken hne]

/-- The directory around a file has the parts in front of it. -/
theorem key_parent (h : p.fileName? = some name) :
    p.parent.front = p.front ∧ p.key.2 = p.parent.key.2 ++ [name] := by
  obtain ⟨hname, hparts⟩ := parts_of_fileName? h
  have hpre := (trimParts_isPrefix p.parts.dropLast).trans ( dropLast_prefix _)
  have hlast : trimParts p.parts.dropLast ≠ [[]] := fun heq =>
    absurd (isIdle_of_getLast?_trimParts (congrArg getLast? heq)) (by decide)
  have hkey : p.parent.key = (p.front, p.parts.dropLast.filter (!isIdle ·)) := by
    rw [parent, key_ofParts (p.fronts_parts.mono hpre) (fun part hpart => unbroken_of_mem_parts
      (hpre.subset hpart)) hlast, filter_trimParts]
  refine ⟨(Prod.mk.inj hkey).1, ?_⟩
  rw [hkey, key, hparts, filter_append, dropLast_concat]
  simp [hname.counts]

/-! ## Results -/

theorem splitAtLastDot_json (h : stem ≠ []) :
    splitAtLastDot (stem ++ ".json".toList) = some (stem, "json".toList) := by
  simp [splitAtLastDot, h]

/-- A stem with more behind it is a name still. -/
theorem isName_append {ending : List Char} (hunbroken : '/' ∉ stem) (hstem : IsStem stem)
    (hending : '/' ∉ ending) : IsName (stem ++ ending) := by
  obtain ⟨hne, hdot⟩ := isIdle_eq_false.mp hstem.counts
  refine ⟨by simp [hunbroken, hending], isIdle_eq_false.mpr ⟨by simp [hne], fun h => hdot ?_⟩⟩
  obtain ⟨rfl, -⟩ | ⟨rfl, -⟩ := append_eq_singleton_iff.mp h
  · exact absurd rfl hne
  · rfl

/-- With a name that has no extension behind it, a path is given one. -/
theorem withExtension_push (hunbroken : '/' ∉ stem) (hstem : IsStem stem) (extension : String)
    (hextension : '/' ∉ extension.toList) :
    (p.push stem).withExtension extension = p.push (stem ++ '.' :: extension.toList) := by
  obtain ⟨inner, -, hpush⟩ := p.exists_push
  obtain ⟨-, hfront, hparts⟩ := hpush stem ⟨hunbroken, hstem.counts⟩
  have hname : IsName (stem ++ '.' :: extension.toList) :=
    isName_append hunbroken hstem (by simpa using hextension)
  have hfile : (p.push stem).fileName? = some stem := by
    unfold fileName?
    rw [hparts, getLast?_concat]
    split
    case h_1 heq => exact absurd (Option.some.inj heq ▸ hstem.plain) (by decide)
    case h_2 => rfl
  have hdrop : (p.push stem).dropExtension = p.push stem := by
    rw [dropExtension, extension?, hfile, Option.bind_some, hstem.plain]
    simp
  rw [withExtension, hdrop, setExtension, stem?, hfile, Option.map_some, hstem.plain, hfront, hparts]
  exact (by simp : ofParts p.front _ = _).trans (hpush _ hname).1.symm

/-- The result of an input `stem.json` is beside it, with the extension replaced or taken away. -/
theorem defaultOutput_eq (hp : p.fileName? = some (stem ++ ".json".toList)) (hstem : IsStem stem)
    (artifact : Artifact) (target : Target) :
    defaultOutput p artifact target = p.parent.push (stem ++ artifact.ending target) := by
  have hunbroken : '/' ∉ stem := fun h =>
    (parts_of_fileName? hp).1.unbroken (mem_append_left _ h)
  have hbase : p.stem? = some stem := by
    rw [stem?, hp, Option.map_some, splitAtLastDot_json (isIdle_eq_false.mp hstem.counts).1]
    rfl
  unfold defaultOutput
  rw [hbase, Option.getD_some, withFileName, hp]
  cases artifact with
  | ir => exact withExtension_push hunbroken hstem "ll" (by decide)
  | obj => exact withExtension_push hunbroken hstem "o" (by decide)
  | exe =>
    rw [Artifact.ending]
    dsimp only
    split
    · exact withExtension_push hunbroken hstem "wasm" (by decide)
    · rw [append_nil]
      rfl

/-- A file beside an input is told from it by its name. -/
theorem key_push_parent (hp : p.fileName? = some name) {other : List Char} (hother : IsName other) :
    (p.parent.push other).key = (p.key.1, p.key.2.dropLast ++ [other]) := by
  obtain ⟨hfront, hkey⟩ := key_parent hp
  obtain ⟨inner, hinner, hpush⟩ := p.parent.exists_push
  obtain ⟨-, hfront', hparts⟩ := hpush other hother
  have hfirst : (p.parent.push other).key.1 = p.key.1 := hfront'.trans hfront
  refine Prod.ext hfirst ?_
  rw [hkey, dropLast_concat, ← hinner, key, hparts]
  simp [hother.counts]

theorem unbroken_ending (artifact : Artifact) (target : Target) :
    '/' ∉ artifact.ending target := by
  cases artifact <;> rw [Artifact.ending]
  case exe => split <;> decide
  all_goals decide

/-- The ending of a result is not that of an input. -/
theorem append_ending_ne (hstem : IsStem stem) (hne : stem' ≠ []) (artifact : Artifact)
    (target : Target) : stem ++ artifact.ending target ≠ stem' ++ ".json".toList := by
  intro h
  have hlast := congrArg getLast? h
  cases artifact with
  | ir => simp [Artifact.ending] at hlast
  | obj => simp [Artifact.ending] at hlast
  | exe =>
    rw [Artifact.ending] at hlast h
    split at hlast
    · simp at hlast
    case isFalse hwasm =>
      -- An executable has no extension, but neither has the stem.
      rw [if_neg hwasm, append_nil] at h
      have hjson := splitAtLastDot_json hne
      rw [← h, hstem.plain] at hjson
      cases hjson

/-- The results of two inputs `stem.json`, in whatever directories, are beside them, with the
extension replaced or taken away. They are in different places, and in the place of neither input. -/
theorem defaultOutput_apart (hp : p.fileName? = some (stem ++ ".json".toList))
    (hp' : p'.fileName? = some (stem' ++ ".json".toList)) (hstem : IsStem stem)
    (hstem' : IsStem stem') (hne : p.key ≠ p'.key) (artifact : Artifact) (target : Target) :
    defaultOutput p artifact target = p.parent.push (stem ++ artifact.ending target) ∧
      (defaultOutput p artifact target).key =
        (p.key.1, p.key.2.dropLast ++ [stem ++ artifact.ending target]) ∧
      (defaultOutput p artifact target).key ≠ (defaultOutput p' artifact target).key ∧
      ∀ input ∈ [p, p'], (defaultOutput p artifact target).key ≠ input.key := by
  have hkey {p : Path} {stem : List Char} (hp : p.fileName? = some (stem ++ ".json".toList))
      (hstem : IsStem stem) : (defaultOutput p artifact target).key =
        (p.key.1, p.key.2.dropLast ++ [stem ++ artifact.ending target]) := by
    have hunbroken : '/' ∉ stem := fun h =>
      (parts_of_fileName? hp).1.unbroken (mem_append_left _ h)
    rw [defaultOutput_eq hp hstem]
    exact key_push_parent hp (isName_append hunbroken hstem (unbroken_ending artifact target))
  -- An input is told by its directory and its stem as well.
  have hinput {p : Path} {stem : List Char} (hp : p.fileName? = some (stem ++ ".json".toList)) :
      p.key = (p.key.1, p.key.2.dropLast ++ [stem ++ ".json".toList]) := by
    obtain ⟨-, hlast⟩ := key_parent hp
    rw [hlast, dropLast_concat, ← hlast]
  refine ⟨defaultOutput_eq hp hstem artifact target, hkey hp hstem, fun heq => hne ?_, ?_⟩
  · rw [hkey hp hstem, hkey hp' hstem', Prod.mk.injEq, append_singleton_inj] at heq
    obtain ⟨hfront, hdirectory, hname⟩ := heq
    rw [hinput hp, hinput hp', hfront, hdirectory, append_cancel_right hname]
  · rw [hkey hp hstem, forall_mem_cons, forall_mem_singleton, hinput hp, hinput hp']
    have hother {k k' : List Char} {d d' : List (List Char)} {stem' : List Char}
        (hstem' : IsStem stem') : (k, d ++ [stem ++ artifact.ending target]) ≠
          (k', d' ++ [stem' ++ ".json".toList]) := by
      rw [Ne, Prod.mk.injEq, append_singleton_inj]
      exact fun h => append_ending_ne hstem (isIdle_eq_false.mp hstem'.counts).1 artifact target h.2.2
    exact ⟨hother hstem, hother hstem'⟩

/-- Two inputs whose results are apart. -/
theorem defaultOutput_apart_main :
    defaultOutput ⟨"dir/main.json"⟩ .exe (.resolve none) = ⟨"dir/main"⟩ ∧
      (defaultOutput ⟨"dir/main.json"⟩ .exe (.resolve none)).key ≠
        (defaultOutput ⟨"dir/lib.json"⟩ .exe (.resolve none)).key := by
  have hmain : IsStem "main".toList := ⟨by decide, by decide⟩
  have hlib : IsStem "lib".toList := ⟨by decide, by decide⟩
  have hmain' : (⟨"dir/main.json"⟩ : Path).fileName? = some ("main".toList ++ ".json".toList) := by
    decide
  have hlib' : (⟨"dir/lib.json"⟩ : Path).fileName? = some ("lib".toList ++ ".json".toList) := by
    decide
  obtain ⟨heq, -, hne, -⟩ :=
    defaultOutput_apart hmain' hlib' hmain hlib (by decide) .exe (.resolve none)
  exact ⟨heq, hne⟩

/-- A second extension goes along, and the results of two inputs are in one place. -/
theorem defaultOutput_collides :
    defaultOutput ⟨"dir/a.b.json"⟩ .ir (.resolve none) = ⟨"dir/a.ll"⟩ ∧
      defaultOutput ⟨"dir/a.json"⟩ .ir (.resolve none) = ⟨"dir/a.ll"⟩ := by
  decide +kernel

end Path

end ScriptCompiler.Build
