/-!
# Names, parts of names and blanks

Orders, searches and trims on plain strings that the rest of the library shares. Names are ordered
by code point.
-/

namespace ScriptCompiler.Text

/-- The distinct names of a list in rising order of code points. -/
def sortedNames (names : List String) : List String :=
  (names.mergeSort fun a b => decide (a ≤ b)).eraseDups

/-- The names of `more` that are not yet in `names` added behind them, each once, in the order of
their first occurrence. -/
def addNew (names more : List String) : List String :=
  more.foldl (fun acc name => if name ∈ acc then acc else acc ++ [name]) names

/-- Where the names of an association list are distinct, an entry is found by its name. -/
theorem lookup_eq_some_iff_of_nodup {α : Type} {entries : List (String × α)} {name : String} {a : α}
    (h : (entries.map Prod.fst).Nodup) :
    entries.lookup name = some a ↔ (name, a) ∈ entries := by
  induction entries with
  | nil => simp
  | cons entry rest ih =>
    obtain ⟨first, value⟩ := entry
    obtain ⟨hfirst, hrest⟩ := List.nodup_cons.mp h
    rw [List.lookup_cons, List.mem_cons, ← ih hrest]
    by_cases heq : name = first
    · subst heq
      have hnone : rest.lookup name = none := by
        refine List.lookup_eq_none_iff.mpr fun p hp => ?_
        exact bne_iff_ne.mpr fun heq => hfirst (List.mem_map.mpr ⟨p, hp, heq.symm⟩)
      simp [hnone, eq_comm]
    · simp [heq, beq_eq_false_iff_ne.mpr heq]

/-- Whether `text` begins with `part`. -/
def startsWith (part text : String) : Bool :=
  part.toList.isPrefixOf text.toList

/-- Whether `text` ends with `part`. -/
def endsWith (part text : String) : Bool :=
  part.toList.isSuffixOf text.toList

/-- Whether `part` occurs somewhere in a list of characters. -/
def occursIn (part : List Char) : List Char → Bool
  | [] => part.isEmpty
  | c :: rest => part.isPrefixOf (c :: rest) || occursIn part rest

/-- Whether `part` occurs somewhere in `text`. -/
def contains (part text : String) : Bool :=
  occursIn part.toList text.toList

/-- The white space that a trim removes: the property White_Space. -/
def isBlank (c : Char) : Bool :=
  let n := c.toNat
  (9 ≤ n && n ≤ 13) || n == 0x20 || n == 0x85 || n == 0xA0 || n == 0x1680
    || (0x2000 ≤ n && n ≤ 0x200A) || n == 0x2028 || n == 0x2029 || n == 0x202F || n == 0x205F
    || n == 0x3000

/-- The text without the blanks at its two ends. -/
def trim (text : String) : String :=
  String.ofList ((text.toList.dropWhile isBlank).reverse.dropWhile isBlank).reverse

/-- The ASCII letters of a text in lower case. -/
def asciiLower (text : String) : String :=
  String.ofList (text.toList.map Char.toLower)

/-- The parts with a separator between them. -/
def joined (separator : String) (parts : List String) : String :=
  separator.intercalate parts

/-- Each line followed by a line break. -/
def lines (parts : List String) : String :=
  String.join (parts.map (· ++ "\n"))

end ScriptCompiler.Text
