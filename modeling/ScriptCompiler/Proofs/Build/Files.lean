import ScriptCompiler.Build.Disk
import ScriptCompiler.Proofs.Build.Outputs

/-!
# Files by their paths

Where a path can be followed, it leads to one location, which does not depend on the files
(`Path.location`): parts that count for nothing stay where they are, two dots lead to the directory
above, and any other part leads to what has its name. So paths of one key lead to one file.

A file that is written stands in directories that were there before, so all other paths lead where
they led (`toOption_read_put`).
-/

namespace ScriptCompiler.Build

open List

/-- The place that a part of a path leads to. -/
def enter (l : Location) (part : List Char) : Location :=
  if Path.isIdle part then l else if part = ['.', '.'] then Disk.above l else l ++ [String.ofList part]

namespace Path

/-- The location that a path leads to, if it can be followed. -/
def location (p : Path) : Location :=
  p.key.2.foldl enter (if p.front = ['/'] then ["/"] else [])

/-- All parts of the text of a path. -/
def steps (p : Path) : List (List Char) :=
  splitAtSlashes (if p.front = ['/'] then p.split.2 else p.text.toList)

variable {p : Path} {name : List Char}

theorem filter_steps (p : Path) : p.steps.filter (!isIdle ·) = p.key.2 := by
  rw [key, parts, filter_trimParts, steps, front, split]
  split
  · rfl
  case h_2 htext => rw [htext]; rfl
  case h_3 htext => rw [htext]; rfl
  · rfl

/-- Parts that count for nothing lead nowhere. -/
theorem foldl_enter_steps (p : Path) (l : Location) : p.steps.foldl enter l = p.key.2.foldl enter l := by
  rw [← filter_steps]
  generalize p.steps = parts
  induction parts generalizing l with
  | nil => rfl
  | cons part parts ih =>
    cases hidle : isIdle part with
    | true => simpa [hidle, enter] using ih l
    | false => simpa [hidle] using ih (enter l part)

/-- The last part that counts is the file name, unless it leads above. -/
theorem fileName?_eq_some_iff :
    p.fileName? = some name ↔ p.key.2.getLast? = some name ∧ name ≠ ['.', '.'] := by
  have hlast : p.key.2.getLast? = p.parts.getLast? := by
    rcases eq_nil_or_concat p.parts with hnil | ⟨inner, part, hparts⟩
    · rw [key, hnil]
      rfl
    · have hcounts : isIdle part = false :=
        isIdle_of_getLast?_trimParts (show p.parts.getLast? = some part by simp [hparts])
      rw [key, hparts]
      simp [hcounts]
  rw [hlast, fileName?]
  split
  case h_1 h =>
    rw [h, Option.some.injEq]
    exact iff_of_false (by simp) fun h => h.2 h.1.symm
  case h_2 h => exact ⟨fun hname => ⟨hname, fun hdots => h (hdots ▸ hname)⟩, And.left⟩

theorem fileName?_eq_of_key {q : Path} (h : p.key = q.key) : p.fileName? = q.fileName? := by
  ext name
  rw [fileName?_eq_some_iff, fileName?_eq_some_iff, h]

/-- The text of parts, the last of them apart. -/
theorem intercalate_concat (inner : List (List Char)) (last : List Char) :
    intercalate ['/'] (inner ++ [last]) = inner.flatMap (· ++ ['/']) ++ last := by
  induction inner with
  | nil => simp [intercalate]
  | cons part inner ih =>
    obtain ⟨next, rest, hrest⟩ := exists_cons_of_ne_nil (append_ne_nil_of_right_ne_nil inner
      (cons_ne_nil last []))
    rw [hrest] at ih
    rw [cons_append, hrest]
    simpa [intercalate, intersperse] using ih

/-- A text that does not end in a slash or a dot ends as its file name does. -/
theorem getLast?_of_fileName? (h : p.fileName? = some name) {c : Char}
    (hc : p.text.toList.getLast? = some c) (hslash : c ≠ '/') (hdot : c ≠ '.') :
    name.getLast? = some c := by
  obtain ⟨inner, last, hsteps⟩ := (eq_nil_or_concat p.steps).resolve_left
    (by rw [steps, splitAtSlashes_eq_splitOn]; exact splitOn_ne_nil _ _)
  rw [concat_eq_append] at hsteps
  have htext : ∃ before, p.text.toList = before ++ inner.flatMap (· ++ ['/']) ++ last ∧
      (before = [] ∨ before = ['/']) := by
    have hjoined := intercalate_concat inner last
    rw [← hsteps, steps, intercalate_splitAtSlashes] at hjoined
    split at hjoined
    case isTrue hfront => exact ⟨['/'], by rw [p.text_eq, hfront, hjoined, append_assoc], .inr rfl⟩
    case isFalse => exact ⟨[], by rw [hjoined, nil_append], .inl rfl⟩
  obtain ⟨before, htext, hbefore⟩ := htext
  rw [htext, getLast?_append] at hc
  have hlast : last.getLast? = some c := by
    cases hlast : last.getLast? with
    | some c' => simpa [hlast] using hc
    | none =>
      -- The text ends in a slash then.
      refine absurd ?_ hslash
      rw [hlast, Option.none_or] at hc
      rcases eq_nil_or_concat inner with rfl | ⟨inner', part, rfl⟩
      · rcases hbefore with rfl | rfl
        · simp at hc
        · simpa using hc.symm
      · simpa using hc.symm
  have hcounts : isIdle last = false := isIdle_eq_false.mpr
    ⟨fun heq => by simp [heq] at hlast, fun heq => hdot (by simpa [heq] using hlast.symm)⟩
  have hname := (fileName?_eq_some_iff.mp h).1
  rw [← filter_steps, hsteps, filter_append] at hname
  obtain rfl : last = name := by simpa [hcounts] using hname
  exact hlast

/-- A path that is given an extension does not get another one. -/
theorem extension?_withExtension_ll (p : Path) :
    (p.withExtension "ll").extension? ≠ some "json".toList := by
  intro h
  obtain ⟨name, hname, hext⟩ := Option.bind_eq_some_iff.mp h
  have hjson : name.getLast? = some 'n' := by
    obtain ⟨split, hsplit, hafter⟩ := Option.map_eq_some_iff.mp hext
    unfold splitAtLastDot at hsplit
    dsimp only at hsplit
    split at hsplit
    · cases hsplit
    · obtain rfl := Option.some.inj hsplit
      have htake := congrArg reverse hafter
      rw [reverse_reverse] at htake
      have hfirst : (name.reverse.takeWhile (· != '.')).head? = some 'n' := by rw [htake]; rfl
      cases hreverse : name.reverse with
      | nil => simp [hreverse] at hfirst
      | cons c rest =>
        rw [← head?_reverse, hreverse]
        simp only [hreverse, takeWhile_cons] at hfirst
        split at hfirst <;> simp_all
  unfold withExtension setExtension at hname
  split at hname
  case h_1 stem hstem =>
    have hlast : (ofParts p.dropExtension.front (p.dropExtension.parts.dropLast ++
        [stem ++ '.' :: "ll".toList])).text.toList.getLast? = some 'l' := by
      rw [ofParts, intercalate_concat]
      simp
    have hll := getLast?_of_fileName? hname hlast (by decide) (by decide)
    exact absurd (hjson.symm.trans hll) (by decide)
  case h_2 hstem => simp [stem?, hname] at hstem

/-- A file is in the directory around it, under its name. -/
theorem location_of_fileName? (h : p.fileName? = some name) :
    ∃ l, p.location = l ++ [String.ofList name] := by
  obtain ⟨hname, -⟩ := parts_of_fileName? h
  obtain ⟨hlast, hdots⟩ := fileName?_eq_some_iff.mp h
  obtain ⟨inner, hkey⟩ := getLast?_eq_some_iff.mp hlast
  refine ⟨inner.foldl enter (if p.front = ['/'] then ["/"] else []), ?_⟩
  rw [location, hkey, foldl_append, foldl_cons, foldl_nil, enter, hname.counts, if_neg (by simp),
    if_neg hdots]

/-- A stem with an extension behind it names a file. -/
theorem isName_of_stem? {stem ending : List Char} (h : p.stem? = some stem) (hending : '/' ∉ ending)
    (hne : ending ≠ []) :
    IsName (stem ++ '.' :: ending) ∧ stem ++ '.' :: ending ≠ ['.', '.'] := by
  obtain ⟨name, hname, rfl⟩ := Option.map_eq_some_iff.mp h
  obtain ⟨⟨hunbroken, hcounts⟩, -⟩ := parts_of_fileName? hname
  have hstem : '/' ∉ ((splitAtLastDot name).map (·.1)).getD name ∧
      ((splitAtLastDot name).map (·.1)).getD name ≠ [] := by
    unfold splitAtLastDot
    dsimp only
    split
    · exact ⟨hunbroken, (isIdle_eq_false.mp hcounts).1⟩
    case isFalse hbefore => exact ⟨fun h => hunbroken (mem_of_mem_take h), by simpa using hbefore⟩
  generalize ((splitAtLastDot name).map (·.1)).getD name = stem at *
  have hlength : 3 ≤ (stem ++ '.' :: ending).length := by
    have := length_pos_iff.mpr hstem.2
    have := length_pos_iff.mpr hne
    simp only [length_append, length_cons]
    omega
  refine ⟨⟨by simp [hstem.1, hending], isIdle_eq_false.mpr ⟨?_, ?_⟩⟩, ?_⟩
  all_goals
    intro heq
    simp [heq] at hlength

/-- A path with a stem is given an extension beside it. -/
theorem location_withExtension {stem : List Char} (hstem : p.dropExtension.stem? = some stem) :
    ∃ l, ∀ extension : String, '/' ∉ extension.toList → extension.toList ≠ [] →
      (p.withExtension extension).location =
        l ++ [String.ofList (stem ++ '.' :: extension.toList)] := by
  generalize hr : p.dropExtension = r at hstem
  obtain ⟨name, hname, -⟩ := Option.map_eq_some_iff.mp hstem
  obtain ⟨⟨-, hcounts⟩, hparts⟩ := parts_of_fileName? hname
  refine ⟨(r.parts.dropLast.filter (!isIdle ·)).foldl enter (if r.front = ['/'] then ["/"] else []),
    fun extension hextension hne => ?_⟩
  obtain ⟨hz, hdots⟩ := isName_of_stem? hstem hextension hne
  have hkey : (p.withExtension extension).key =
      (r.front, r.parts.dropLast.filter (!isIdle ·) ++ [stem ++ '.' :: extension.toList]) := by
    rw [withExtension, hr, setExtension, hstem]
    dsimp only
    rw [key_ofParts ((hparts ▸ r.fronts_parts).concat hcounts hz.counts) ?_ ?_, filter_append]
    · simp [hz.counts]
    · exact forall_mem_append.mpr ⟨fun part hpart => unbroken_of_mem_parts (List.dropLast_subset _ hpart),
        by simpa using hz.unbroken⟩
    · intro heq
      have hlast := congrArg getLast? heq
      simp at hlast
  have hfront : (p.withExtension extension).front = r.front := (Prod.mk.inj hkey).1
  rw [location, hkey, hfront, foldl_append, foldl_cons, foldl_nil, enter, hz.counts, if_neg (by simp),
    if_neg hdots]

end Path

namespace Disk

variable {d : Disk} {l l' directory : Location} {last text : String} {p : Path} {name : List Char}

theorem step_ok {part : List Char} (h : step l (String.ofList part) = .ok l') : l' = enter l part := by
  have hpart {text : String} (heq : String.ofList part = text) : part = text.toList :=
    heq ▸ (String.toList_ofList).symm
  unfold step at h
  split at h
  case h_1 heq =>
    rw [hpart heq]
    exact (Except.ok.inj h).symm
  case h_2 heq =>
    rw [hpart heq]
    exact (Except.ok.inj h).symm
  case h_3 heq =>
    rw [hpart heq]
    exact (Except.ok.inj h).symm
  case h_4 hempty hdot hdots =>
    split at h
    · cases h
    · have hidle : Path.isIdle part = false := Path.isIdle_eq_false.mpr
        ⟨fun heq => hempty (by rw [heq]), fun heq => hdot (by rw [heq])⟩
      rw [enter, hidle, if_neg (by simp), if_neg fun heq => hdots (by rw [heq])]
      exact (Except.ok.inj h).symm

theorem above_cases (l : Location) : above l = l ++ [".."] ∨ above l <+: l := by
  unfold above
  split
  · exact .inl rfl
  · exact .inl rfl
  · exact .inr (prefix_refl l)
  · exact .inr ( dropLast_prefix l)

/-- A place on the way to another: a directory, unless the way starts there. -/
def Passes (d : Disk) (l : Location) : Prop :=
  ∀ pre, pre <+: l → pre = [] ∨ pre = ["/"] ∨ d.get? pre = some .directory

theorem prefix_enter {part : List Char} {pre : Location} (h : pre <+: enter l part) :
    pre = enter l part ∨ pre <+: l := by
  unfold enter at h ⊢
  split at h
  · exact .inr h
  · split at h
    · rw [if_neg ‹_›, if_pos ‹_›]
      rcases above_cases l with heq | hpre
      · rw [heq] at h ⊢
        exact prefix_concat_iff.mp h
      · exact .inr (h.trans hpre)
    · rw [if_neg ‹_›, if_neg ‹_›]
      exact prefix_concat_iff.mp h

theorem Passes.walk {parts : List (List Char)} (hl : d.Passes l)
    (h : d.walk l (parts.map String.ofList) = .ok l') :
    d.Passes l' ∧ l' = parts.foldl enter l := by
  induction parts generalizing l with
  | nil =>
    obtain rfl := Except.ok.inj h
    exact ⟨hl, rfl⟩
  | cons part parts ih =>
    rw [map_cons, walk] at h
    cases hstep : step l (String.ofList part) with
    | error => simp [hstep, bind, Except.bind] at h
    | ok next =>
      simp only [hstep, bind, Except.bind] at h
      obtain rfl := step_ok hstep
      split at h
      case h_1 hget =>
        refine ih (fun pre hpre => ?_) h
        rcases prefix_enter hpre with rfl | hpre
        · exact .inr (.inr hget)
        · exact hl pre hpre
      all_goals cases h

/-- The parts that are followed are those of the text. -/
theorem approach_eq (d : Disk) (p : Path) : d.approach p.text.toList =
    (d.walk (if p.front = ['/'] then ["/"] else []) (p.steps.map String.ofList).dropLast).map
      ((·, (p.steps.map String.ofList).getLast?.getD "")) := by
  by_cases hslash : ∃ rest, p.text.toList = '/' :: rest
  · obtain ⟨rest, hrest⟩ := hslash
    have hsplit : p.split = (['/'], rest) := by
      rw [Path.split, hrest]
      rfl
    rw [Path.steps, Path.front, hsplit, hrest]
    rfl
  · have hfront : p.front ≠ ['/'] := by
      unfold Path.front Path.split
      split <;> simp_all
    rw [Path.steps, if_neg hfront, if_neg hfront, approach]
    · rfl
    · exact fun rest hrest => hslash ⟨rest, hrest⟩

/-- The directory of a path is on the way to it. -/
theorem approach_ok (h : d.approach p.text.toList = .ok (directory, last)) :
    d.Passes directory ∧ ∃ parts part, last = String.ofList part ∧ p.steps = parts ++ [part] ∧
      directory = parts.foldl enter (if p.front = ['/'] then ["/"] else []) := by
  have hstart : d.Passes (if p.front = ['/'] then ["/"] else []) := by
    intro pre hpre
    split at hpre
    · rcases prefix_concat_iff.mp (show pre <+: [] ++ ["/"] from hpre) with rfl | hnil
      · exact .inr (.inl rfl)
      · exact .inl (prefix_nil.mp hnil)
    · exact .inl (prefix_nil.mp hpre)
  obtain ⟨parts, part, hsteps⟩ := (eq_nil_or_concat p.steps).resolve_left
    (by rw [Path.steps, Path.splitAtSlashes_eq_splitOn]; exact splitOn_ne_nil _ _)
  rw [concat_eq_append] at hsteps
  rw [approach_eq, hsteps] at h
  simp only [map_append, map_cons, map_nil, dropLast_concat, getLast?_append, getLast?_singleton,
    Option.some_or, Option.getD_some] at h
  cases hwalk : d.walk (if p.front = ['/'] then ["/"] else []) (parts.map String.ofList) with
  | error => simp [hwalk, Except.map] at h
  | ok l =>
    simp only [hwalk, Except.map, Except.ok.injEq, Prod.mk.injEq] at h
    obtain ⟨rfl, rfl⟩ := h
    obtain ⟨hpasses, rfl⟩ := hstart.walk hwalk
    exact ⟨hpasses, parts, part, rfl, hsteps, rfl⟩

/-- Where a path can be followed, it leads to its location. -/
theorem eq_location (happroach : d.approach p.text.toList = .ok (directory, last))
    (hstep : step directory last = .ok l) : l = p.location := by
  obtain ⟨-, parts, part, rfl, hsteps, rfl⟩ := approach_ok happroach
  rw [Path.location, ← Path.foldl_enter_steps, hsteps, foldl_append]
  exact step_ok hstep

theorem pathChars_ok {cs : List Char} (h : pathChars text = .ok cs) : cs = text.toList := by
  unfold pathChars at h
  split_ifs at h
  exact (Except.ok.inj h).symm

theorem locate_ok (h : d.locate p.text = .ok l) : l = p.location := by
  unfold locate at h
  cases hchars : pathChars p.text with
  | error => simp [hchars, bind, Except.bind] at h
  | ok cs =>
    obtain rfl := pathChars_ok hchars
    cases happroach : d.approach p.text.toList with
    | error => simp [hchars, happroach, bind, Except.bind] at h
    | ok r =>
      simp only [hchars, happroach, bind, Except.bind] at h
      exact eq_location happroach h

/-- A file that can be written is named by the last part of its path, unless the way leads by
there. -/
theorem Passes.eq_of_enter {part : List Char} (h : d.Passes l) (hl' : l' = enter l part)
    (hfile : d.get? l' ≠ some .directory) (hname : Path.IsName name) (hdots : name ≠ ['.', '.'])
    (hlast : l'.getLast? = some (String.ofList name)) : part = name := by
  have hne {text : String} (heq : String.ofList name = text) : name = text.toList :=
    heq ▸ (String.toList_ofList).symm
  have hway : ¬ l' <+: l := by
    intro hprefix
    rcases h l' hprefix with rfl | rfl | hdirectory
    · cases hlast
    · exact hname.unbroken (hne (Option.some.inj hlast).symm ▸ by decide)
    · exact hfile hdirectory
  rw [enter] at hl'
  split at hl'
  · exact absurd (hl' ▸ prefix_refl _) hway
  split at hl'
  · rcases above_cases l with heq | hprefix
    · rw [hl', heq, getLast?_concat, Option.some.injEq] at hlast
      exact absurd (hne hlast.symm) hdots
    · exact absurd (hl' ▸ hprefix) hway
  · rw [hl', getLast?_concat, Option.some.injEq] at hlast
    exact String.ofList_injective hlast

theorem isDirectory_of_get? (h : d.get? l = some .directory) : d.isDirectory l = true := by
  unfold get? at h
  split at h
  case h_3 => simpa using h
  all_goals cases h

/-- A path to which text can be written is followed to its end. -/
theorem exists_step_of_sink {sink : Sink} (h : d.sink p = .ok sink) : ∃ directory last l,
    d.approach p.text.toList = .ok (directory, last) ∧ step directory last = .ok l ∧
      d.get? l ≠ some .directory ∧ ∀ l', sink = .file l' → l' = l := by
  unfold Disk.sink at h
  cases hchars : pathChars p.text with
  | error => simp [hchars, bind, Except.bind] at h
  | ok cs =>
    obtain rfl := pathChars_ok hchars
    simp only [hchars, bind, Except.bind] at h
    split at h
    · cases h
    cases happroach : d.approach (p.text.toList.reverse.dropWhile (· == '/')).reverse with
    | error => simp [happroach] at h
    | ok r =>
      simp only [happroach] at h
      split at h
      · cases h
      case isFalse hlength =>
        rw [length_reverse, ← @length_reverse _ p.text.toList, Nat.not_lt] at hlength
        rw [(dropWhile_suffix _).eq_of_length_le hlength, reverse_reverse] at happroach
        cases hstep : step r.1 r.2 with
        | error => simp [hstep] at h
        | ok l =>
          simp only [hstep] at h
          refine ⟨r.1, r.2, l, happroach, hstep, ?_⟩
          split at h <;> cases h
          all_goals exact ⟨by simp_all, by simp⟩

/-- Text is written to the location of a path, in directories that are there. The path names the file
then, if anything does. -/
theorem sink_ok {sink : Sink} (h : d.sink p = .ok sink) :
    (∀ l, sink = .file l → l = p.location) ∧ d.get? p.location ≠ some .directory ∧
      (∀ pre, pre <+: p.location → pre = p.location ∨ d.isDirectory pre) ∧
      ∀ name, Path.IsName name → name ≠ ['.', '.'] →
        p.location.getLast? = some (String.ofList name) → p.fileName? = some name := by
  obtain ⟨directory, last, l, happroach, hstep, hfile, hsink⟩ := exists_step_of_sink h
  obtain ⟨hpasses, parts, part, rfl, hsteps, -⟩ := approach_ok happroach
  have hl := step_ok hstep
  obtain rfl := eq_location happroach hstep
  refine ⟨hsink, hfile, fun pre hpre => ?_, fun name hname hdots hlast => ?_⟩
  · refine (prefix_enter (hl ▸ hpre)).imp (·.trans hl.symm) fun hprefix => ?_
    rcases hpasses pre hprefix with rfl | rfl | hdirectory
    · rfl
    · simp [isDirectory]
    · exact isDirectory_of_get? hdirectory
  · obtain rfl := hpasses.eq_of_enter hl hfile hname hdots hlast
    refine Path.fileName?_eq_some_iff.mpr ⟨?_, hdots⟩
    rw [← Path.filter_steps, hsteps]
    simp [hname.counts]

/-- Where assemblies can be written, they are apart if the units beside them are, and so is all else
beside them. -/
theorem location_withExtension_ne {d' : Disk} {q : Path} {sink sink' : Sink}
    (hp : d.sink (p.withExtension "ll") = .ok sink) (hq : d'.sink (q.withExtension "ll") = .ok sink')
    (hne : (p.withExtension "json").location ≠ (q.withExtension "json").location)
    {extension : String} (hextension : '/' ∉ extension.toList) (hempty : extension.toList ≠ []) :
    (p.withExtension extension).location ≠ (q.withExtension extension).location := by
  -- Without a stem, a path stays as it is; the place that it leads to has no name of its own.
  have hbare {p : Path} (hnone : p.dropExtension.stem? = none) (extension : String) :
      p.withExtension extension = p.dropExtension := by
    rw [Path.withExtension, Path.setExtension, hnone]
  have hmixed {d : Disk} {p q : Path} {sink : Sink} {stem : List Char}
      (hp : d.sink (p.withExtension "ll") = .ok sink) (hnone : p.dropExtension.stem? = none)
      (hstem : q.dropExtension.stem? = some stem) :
      (p.withExtension extension).location ≠ (q.withExtension extension).location := by
    intro heq
    obtain ⟨l, hl⟩ := Path.location_withExtension hstem
    obtain ⟨hz, hdots⟩ := Path.isName_of_stem? hstem hextension hempty
    rw [hbare hnone] at hp heq
    have hname := (sink_ok hp).2.2.2 _ hz hdots (by rw [heq, hl extension hextension hempty]; simp)
    simp [Path.stem?, hname] at hnone
  rcases Option.eq_none_or_eq_some p.dropExtension.stem? with hstem | ⟨stem, hstem⟩ <;>
    rcases Option.eq_none_or_eq_some q.dropExtension.stem? with hstem' | ⟨stem', hstem'⟩
  · rw [hbare hstem "json", hbare hstem' "json"] at hne
    rw [hbare hstem extension, hbare hstem' extension]
    exact hne
  · exact hmixed hp hstem hstem'
  · exact (hmixed hq hstem' hstem).symm
  · obtain ⟨l, hl⟩ := Path.location_withExtension hstem
    obtain ⟨l', hl'⟩ := Path.location_withExtension hstem'
    rw [hl "json" (by decide) (by decide), hl' "json" (by decide) (by decide)] at hne
    rw [hl extension hextension hempty, hl' extension hextension hempty]
    intro heq
    obtain ⟨rfl, hname⟩ := append_inj' heq rfl
    have hstems := append_cancel_right (String.ofList_injective (cons.inj hname).1)
    exact hne (by rw [hstems])

/-- Two paths of one key read one file. -/
theorem read_eq_of_key {q : Path} {content content' : String} (hkey : p.key = q.key)
    (hp : d.read p = .ok content) (hq : d.read q = .ok content') : content = content' := by
  have hlocation : p.location = q.location := by
    have hfront : p.key.1 = q.key.1 := congrArg Prod.fst hkey
    change p.front = q.front at hfront
    rw [Path.location, Path.location, hkey, hfront]
  unfold read at hp hq
  cases hl : d.locate p.text with
  | error => simp [hl, bind, Except.bind] at hp
  | ok l =>
    cases hl' : d.locate q.text with
    | error => simp [hl', bind, Except.bind] at hq
    | ok l' =>
      obtain rfl : l = l' := by rw [locate_ok hl, locate_ok hl', hlocation]
      rw [hl] at hp
      rw [hl'] at hq
      exact Except.ok.inj (hp.symm.trans hq)

/-! ## Writing a file -/

theorem file?_put_self (d : Disk) (l : Location) (text : String) :
    (d.put l text).file? l = some text := by
  simp [put, file?]

theorem file?_put_of_ne (h : l ≠ l') : (d.put l' text).file? l = d.file? l := by
  have hne : (l == l') = false := by simpa using h
  unfold put file?
  rw [lookup_cons, hne]
  show List.lookup l (d.files.filter _) = _
  induction d.files with
  | nil => rfl
  | cons entry files ih =>
    obtain ⟨l₁, content⟩ := entry
    by_cases hl₁ : l₁ = l'
    · subst hl₁
      rw [filter_cons_of_neg (by simp), ih, lookup_cons, hne]
    · rw [filter_cons_of_pos (by simpa using hl₁), lookup_cons, lookup_cons, ih]

theorem isDirectory_put (hpre : ∀ pre, pre <+: l → pre = l ∨ d.isDirectory pre) (hne : l' ≠ l) :
    (d.put l text).isDirectory l' = d.isDirectory l' := by
  rw [Bool.eq_iff_iff]
  unfold isDirectory put
  dsimp only
  simp only [Bool.or_eq_true, any_eq_true, mem_cons, mem_filter, Bool.and_eq_true,
    decide_eq_true_eq, isPrefixOf_iff_prefix, Prod.exists, beq_iff_eq]
  by_cases hother : ((l'.all fun x => x == "..") = true ∨ l' = ["/"]) ∨ l' ∈ d.directories
  · exact iff_of_true (.inl hother) (.inl hother)
  refine or_congr_right ⟨?_, ?_⟩
  · rintro ⟨f, content, heq | ⟨hmem, -⟩, hlt, hprefix⟩
    · obtain ⟨rfl, rfl⟩ := Prod.mk.inj heq
      have hdirectory := (hpre l' hprefix).resolve_left hne
      simp only [isDirectory, Bool.or_eq_true, any_eq_true, Bool.and_eq_true, decide_eq_true_eq,
        isPrefixOf_iff_prefix, Prod.exists, beq_iff_eq] at hdirectory
      exact hdirectory.resolve_left hother
    · exact ⟨f, content, hmem, hlt, hprefix⟩
  · rintro ⟨f, content, hmem, hlt, hprefix⟩
    rcases eq_or_ne f l with rfl | hf
    · exact ⟨f, text, .inl rfl, hlt, hprefix⟩
    · exact ⟨f, content, .inr ⟨hmem, hf⟩, hlt, hprefix⟩

theorem get?_put_of_ne (hpre : ∀ pre, pre <+: l → pre = l ∨ d.isDirectory pre) (hne : l' ≠ l) :
    (d.put l text).get? l' = d.get? l' := by
  unfold get?
  rw [file?_put_of_ne hne, isDirectory_put hpre hne]
  rfl

theorem toOption_bind {α β ε : Type} (x : Except ε α) (f : α → Except ε β) :
    (x >>= f).toOption = x.toOption.bind fun a => (f a).toOption := by
  cases x <;> rfl

theorem toOption_walk_cons (l : Location) (part : String) (parts : List String) :
    (d.walk l (part :: parts)).toOption = (step l part).toOption.bind fun next =>
      if d.get? next = some .directory then (d.walk next parts).toOption else none := by
  rw [walk, toOption_bind]
  congr 1
  funext next
  split <;> simp_all [Except.toOption]

/-- What was followed by way of directories can still be followed, and nothing else. -/
theorem toOption_walk_put (hpre : ∀ pre, pre <+: l → pre = l ∨ d.isDirectory pre)
    (hfile : d.get? l ≠ some .directory) (parts : List String) :
    ((d.put l text).walk l' parts).toOption = (d.walk l' parts).toOption := by
  induction parts generalizing l' with
  | nil => rfl
  | cons part parts ih =>
    rw [toOption_walk_cons, toOption_walk_cons]
    congr 1
    funext next
    rcases eq_or_ne next l with rfl | hne
    · have hput : (d.put next text).get? next = some (.file text) := by
        rw [get?, file?_put_self]
      rw [hput, if_neg hfile, if_neg (by simp)]
    · rw [get?_put_of_ne hpre hne, ih]

/-- Another path reads what it read. -/
theorem toOption_read_put (hpre : ∀ pre, pre <+: l → pre = l ∨ d.isDirectory pre)
    (hfile : d.get? l ≠ some .directory) (hne : p.location ≠ l) :
    ((d.put l text).read p).toOption = (d.read p).toOption := by
  have hlocate : ((d.put l text).locate p.text).toOption = (d.locate p.text).toOption := by
    simp only [locate, approach, toOption_bind, toOption_walk_put hpre hfile]
  rw [read, read, toOption_bind, toOption_bind, hlocate]
  cases hl : d.locate p.text with
  | error => rfl
  | ok l' =>
    obtain rfl := locate_ok hl
    simp only [Except.toOption, Option.bind_some, get?_put_of_ne hpre hne]

end Disk

end ScriptCompiler.Build
