import Mathlib.Data.List.Nodup
import Mathlib.Data.List.Perm.Basic
import ScriptCompiler.Proofs.Exchange.RoundTrip

/-!
# Respellings of a unit in the exchange format

A value may be respelled without a change of meaning: the fields of any object in it may be put in
another order, and any object may be given fields that nobody asks for (`Json.Respells`). Which
fields are asked for depends on what an object stands for, its `Role`.

A respelling is followed up from the place where it happens. At each level all that a reader asks of
the value is the same on both sides (`Role.Agrees`), because the records of fields agree name by
name (`Fields.Varies.ofObject?`).
-/

namespace ScriptCompiler

open List

/-! ## Fields that vary -/

theorem bind_eq_of_rel {α β γ : Type} {R : α → β → Prop} {a : Option α} {b : Option β}
    {f : α → Option γ} {g : β → Option γ} (h : Option.Rel R a b)
    (hfg : ∀ x y, a = some x → R x y → f x = g y) : a.bind f = b.bind g := by
  cases h with
  | none => rfl
  | some hxy => exact hfg _ _ rfl hxy

namespace Fields

variable {α β : Type} {names : List String} {parts parts' : List (Option String × α)}

theorem lookup_known {name : String} (h : name ∈ names) :
    (parts.filterMap (known? names)).lookup name = parts.lookup (some name) := by
  induction parts with
  | nil => rfl
  | cons field rest ih =>
    obtain ⟨first, part⟩ := field
    by_cases heq : some name = first
    · subst heq
      simp [known?, h]
    · have hlater : (known? names (first, part)).elim True fun p => p.1 ≠ name := by
        cases first with
        | none => trivial
        | some other =>
          by_cases hother : other ∈ names
          · simpa [known?, hother, eq_comm] using heq
          · simp [known?, hother]
      rw [lookup_cons, beq_eq_false_iff_ne.mpr heq, ← ih, filterMap_cons]
      cases hk : known? names (first, part) with
      | none => rfl
      | some p =>
        rw [hk] at hlater
        rw [lookup_cons, beq_eq_false_iff_ne.mpr (Ne.symm hlater)]

theorem lookup_of_ofObject? {fs : Fields α} (h : ofObject? names parts = some fs) {name : String}
    (hname : name ∈ names) : fs.lookup name = parts.lookup (some name) := by
  obtain ⟨-, hfs⟩ := Option.ite_none_right_eq_some.mp (ofObject?_eq.symm.trans h)
  obtain rfl := Option.some.inj hfs
  exact lookup_known hname

/-- Two records have the same fields, with parts in a relation that may depend on the name. -/
def Agree (R : String → α → α → Prop) (fs gs : Fields α) : Prop :=
  ∀ name, Option.Rel (R name) (fs.lookup name) (gs.lookup name)

variable {R : String → α → α → Prop} {fs gs : Fields α} {read : α → Option β}

theorem Agree.refl (hrefl : ∀ name a, R name a a) (fs : Fields α) : Agree R fs fs := by
  intro name
  cases fs.lookup name with
  | none => exact .none
  | some a => exact .some (hrefl name a)

/-- One part of a record is replaced. -/
theorem Agree.replace (hrefl : ∀ name a, R name a a) {name : String} {x y : α} (h : R name x y) :
    Agree R (fs ++ (name, x) :: gs) (fs ++ (name, y) :: gs) := by
  intro asked
  rw [lookup_append, lookup_append, lookup_cons, lookup_cons]
  cases fs.lookup asked with
  | some a => exact .some (hrefl asked a)
  | none =>
    by_cases heq : asked = name
    · subst heq
      simpa using Option.Rel.some h
    · rw [beq_eq_false_iff_ne.mpr heq]
      exact Agree.refl hrefl gs asked

theorem Agree.reorder (hrefl : ∀ name a, R name a a) (h : fs.Perm gs)
    (hnodup : (fs.map Prod.fst).Nodup) : Agree R fs gs := by
  intro name
  have hlookup : fs.lookup name = gs.lookup name := by
    ext a
    rw [Text.lookup_eq_some_iff_of_nodup hnodup,
      Text.lookup_eq_some_iff_of_nodup ((h.map _).nodup_iff.mp hnodup), h.mem_iff]
  rw [← hlookup]
  exact Agree.refl hrefl fs name

theorem Agree.required {name : String} (h : Agree R fs gs)
    (hread : ∀ a b, R name a b → read a = read b) :
    fs.required name read = gs.required name read :=
  bind_eq_of_rel (h name) fun a b _ hab => hread a b hab

theorem Agree.withDefault {name : String} {default : β} (h : Agree R fs gs)
    (hread : ∀ a b, R name a b → read a = read b) :
    fs.withDefault name read default = gs.withDefault name read default := by
  have hname := h name
  unfold Fields.withDefault
  generalize fs.lookup name = a, gs.lookup name = b at hname
  cases hname with
  | none => rfl
  | some hab => exact hread _ _ hab

/-- How two objects may differ while the fields asked for say the same: a part is replaced by one
that it is related to, the fields are put in another order, or a field is added that nobody asks
for. -/
inductive Varies (R : Option String → α → α → Prop) (names : List String) :
    List (Option String × α) → List (Option String × α) → Prop
  | replace {front back : List (Option String × α)} {name : Option String} {x y : α}
    (h : R name x y) : Varies R names (front ++ (name, x) :: back) (front ++ (name, y) :: back)
  | reorder {parts parts' : List (Option String × α)} (h : parts.Perm parts') :
    Varies R names parts parts'
  | extra {parts : List (Option String × α)} {name : String} {part : α} (h : name ∉ names) :
    Varies R names parts ((some name, part) :: parts)

variable {S : Option String → α → α → Prop}

theorem Varies.mono {T : Option String → α → α → Prop} (hST : ∀ name x y, S name x y → T name x y)
    (h : Varies S names parts parts') : Varies T names parts parts' := by
  cases h with
  | replace h => exact .replace (hST _ _ _ h)
  | reorder h => exact .reorder h
  | extra h => exact .extra h

theorem Varies.map {T : Option String → β → β → Prop} {f : α → β}
    (hf : ∀ name x y, S name x y → T name (f x) (f y)) (h : Varies S names parts parts') :
    Varies T names (parts.map fun p => (p.1, f p.2)) (parts'.map fun p => (p.1, f p.2)) := by
  cases h with
  | replace h =>
    rw [map_append, map_append]
    exact .replace (hf _ _ _ h)
  | reorder h => exact .reorder (h.map _)
  | extra h => exact .extra h

/-- Objects that differ in such a way are both refused, or give records that agree. -/
theorem Varies.ofObject? (hrefl : ∀ name a, S name a a) (h : Varies S names parts parts') :
    Option.Rel (Agree fun name => S (some name)) (ofObject? names parts)
      (ofObject? names parts') := by
  have hrefl' (name : String) (a : α) : S (some name) a a := hrefl _ a
  have hsame (r : Option (Fields α)) : Option.Rel (Agree fun name => S (some name)) r r := by
    cases r with
    | none => exact .none
    | some fs => exact .some (Agree.refl hrefl' fs)
  cases h with
  | extra h =>
    rw [ofObject?_cons_of_notMem h]
    exact hsame _
  | reorder h =>
    have hknown := h.filterMap (known? names)
    rw [ofObject?_eq, ofObject?_eq]
    by_cases hnodup : ((parts.filterMap (known? names)).map Prod.fst).Nodup
    · rw [if_pos hnodup, if_pos ((hknown.map _).nodup_iff.mp hnodup)]
      exact .some (Agree.reorder hrefl' hknown hnodup)
    · rw [if_neg hnodup, if_neg fun hn => hnodup ((hknown.map _).nodup_iff.mpr hn)]
      exact .none
  | @replace front back name x y h =>
    rw [ofObject?_eq, ofObject?_eq, filterMap_append, filterMap_append,
      filterMap_cons, filterMap_cons]
    by_cases hname : ∃ asked ∈ names, name = some asked
    · obtain ⟨asked, hmem, rfl⟩ := hname
      have hknown (z : α) : known? names (some asked, z) = some (asked, z) := by simp [known?, hmem]
      rw [hknown, hknown]
      dsimp only
      simp only [map_append, map_cons]
      split
      · exact .some (Agree.replace hrefl' h)
      · exact .none
    · have hknown (z : α) : known? names (name, z) = none := by
        cases name with
        | none => rfl
        | some asked => simp_all [known?]
      rw [hknown, hknown]
      exact hsame _

theorem ofArray?_replace (hrefl : ∀ name a, R name a a) {front back : List α} {x y : α}
    (h : ∀ name, names[front.length]? = some name → R name x y) :
    Option.Rel (Agree R) (ofArray? names (front ++ x :: back))
      (ofArray? names (front ++ y :: back)) := by
  have hlength (z : α) : (front ++ z :: back).length = front.length + back.length + 1 := by
    simp [Nat.add_assoc]
  rw [ofArray?, ofArray?, hlength, hlength]
  split
  case isFalse => exact .none
  case isTrue hle =>
    have hlt : front.length < names.length := by omega
    have hsplit : names = names.take front.length ++ names[front.length] ::
        names.drop (front.length + 1) := by simp
    have hzip (z : α) : names.zip (front ++ z :: back) = (names.take front.length).zip front ++
        (names[front.length], z) :: (names.drop (front.length + 1)).zip back := by
      conv_lhs => rw [hsplit]
      rw [zip_append (by simp [Nat.le_of_lt hlt]), zip_cons_cons]
    rw [hzip, hzip]
    exact .some (Agree.replace hrefl (h _ (List.getElem?_eq_getElem hlt)))

end Fields

theorem Reading.lookup_ofFields (fields : List (Option String × Json)) (name : Option String) :
    (Reading.ofFields fields).lookup name = (fields.lookup name).map Reading.ofJson := by
  induction fields with
  | nil => rfl
  | cons field rest ih =>
    rw [Reading.ofFields, lookup_cons, lookup_cons, ih]
    split <;> rfl

/-! ## Respelling -/

/-- Arrays and objects. -/
def Json.isCompound : Json → Bool
  | .array _ | .object _ => true
  | _ => false

/-- What a value stands for in a document. -/
inductive Role where
  /-- A node, or a part of one. -/
  | node
  /-- An import, or the list of all. -/
  | imported
  /-- The unit. -/
  | unit

namespace Role

/-- The fields that are asked for in an object. Those of a node depend on its kind. -/
def asked (fields : List (Option String × Json)) : Role → List String
  | .node =>
    "kind" :: ((fields.lookup (some "kind")).bind Node.Kind.ofJson?).elim [] Node.Kind.fields
  | .imported => Import.fields
  | .unit => SourceUnit.fields

/-- What the field of an object stands for. -/
def part (name : Option String) : Role → Role
  | .unit => if name = some "imports" then .imported else .node
  | .node | .imported => .node

/-- What the element of an array stands for, in the array form of a record or in a list. -/
def item (position : Nat) : Role → Role
  | .unit => part SourceUnit.fields[position]? .unit
  | .imported => .imported
  | .node => .node

end Role

/-- Two values are spelled differently: somewhere inside, the fields of an object stand in another
order, or fields are added that are not asked for there. -/
inductive Json.Respells : Role → Json → Json → Prop
  | same {role : Role} {json : Json} : Respells role json json
  | trans {role : Role} {x y z : Json} : Respells role x y → Respells role y z → Respells role x z
  | item {role : Role} {front back : List Json} {x y : Json} :
    Respells (role.item front.length) x y →
    Respells role (.array (front ++ x :: back)) (.array (front ++ y :: back))
  | part {role : Role} {front back : List (Option String × Json)} {name : Option String}
    {x y : Json} : Respells (role.part name) x y →
    Respells role (.object (front ++ (name, x) :: back)) (.object (front ++ (name, y) :: back))
  | reorder {role : Role} {fields fields' : List (Option String × Json)} : fields.Perm fields' →
    Respells role (.object fields) (.object fields')
  | extra {role : Role} {fields : List (Option String × Json)} {name : String} {value : Json} :
    name ∉ role.asked fields → value.sound →
    Respells role (.object fields) (.object ((some name, value) :: fields))

/-- Two values are the same to whoever asks for something simple. -/
structure Json.Alike (x y : Json) : Prop where
  /-- A respelling changes arrays and objects only. -/
  compound : x = y ∨ x.isCompound ∧ y.isCompound
  texts : x.texts? = y.texts?
  sound : x.sound = y.sound

namespace Json.Alike

variable {x y z : Json}

theorem trans (hxy : Alike x y) (hyz : Alike y z) : Alike x z where
  compound := by
    rcases hxy.compound with rfl | hx
    · exact hyz.compound
    · rcases hyz.compound with rfl | hy
      · exact .inr hx
      · exact .inr ⟨hx.1, hy.2⟩
  texts := hxy.texts.trans hyz.texts
  sound := hxy.sound.trans hyz.sound

/-- A reader that refuses arrays and objects cannot tell the two apart. -/
theorem read_eq {α : Type} (h : Alike x y) (read : Json → Option α)
    (harray : ∀ items, read (.array items) = none)
    (hobject : ∀ fields, read (.object fields) = none) : read x = read y := by
  have hnone (json : Json) (hjson : json.isCompound) : read json = none := by
    cases json with
    | array items => exact harray items
    | object fields => exact hobject fields
    | _ => cases hjson
  rcases h.compound with rfl | ⟨hx, hy⟩
  · rfl
  · rw [hnone x hx, hnone y hy]

theorem text (h : Alike x y) : x.text? = y.text? :=
  h.read_eq _ (fun _ => rfl) fun _ => rfl

theorem optionalText (h : Alike x y) : x.optionalText? = y.optionalText? :=
  h.read_eq _ (fun _ => rfl) fun _ => rfl

theorem kind (h : Alike x y) : Node.Kind.ofJson? x = Node.Kind.ofJson? y :=
  h.read_eq _ (fun _ => rfl) fun _ => rfl

end Json.Alike

theorem mapM_replace {α β : Type} {read : α → Option β} {front back : List α} {x y : α}
    (h : read x = read y) :
    (front ++ x :: back).mapM read = (front ++ y :: back).mapM read := by
  rw [mapM_append, mapM_append, mapM_cons, mapM_cons, h]

/-- Whatever it stands for, a value is respelled to one that is alike. -/
theorem Json.Respells.alike {role : Role} {x y : Json} (h : Respells role x y) : Alike x y := by
  induction h with
  | same => exact ⟨.inl rfl, rfl, rfl⟩
  | trans _ _ ihxy ihyz => exact ihxy.trans ihyz
  | item _ ih =>
    refine ⟨.inr ⟨rfl, rfl⟩, mapM_replace ih.text, ?_⟩
    simp [Json.sound, soundItems_eq, ih.sound]
  | part _ ih =>
    refine ⟨.inr ⟨rfl, rfl⟩, rfl, ?_⟩
    simp [Json.sound, soundFields_eq, ih.sound]
  | reorder h =>
    refine ⟨.inr ⟨rfl, rfl⟩, rfl, ?_⟩
    rw [Json.sound, Json.sound, soundFields_eq, soundFields_eq, h.all_eq]
  | extra _ hvalue =>
    refine ⟨.inr ⟨rfl, rfl⟩, rfl, ?_⟩
    simp [Json.sound, soundFields, hvalue]

/-- Two parts are the same to whoever reads a node. -/
structure Reading.Agrees (p q : Reading) : Prop where
  alike : p.json.Alike q.json
  node : p.node = q.node
  nodes : p.nodes = q.nodes

namespace Reading.Agrees

variable {p q : Reading}

theorem refl (p : Reading) : p.Agrees p := ⟨⟨.inl rfl, rfl, rfl⟩, rfl, rfl⟩

theorem literal (h : p.Agrees q) : p.literal? = q.literal? :=
  h.alike.read_eq (fun json => Reading.literal? ⟨json, none, none⟩) (fun _ => rfl) fun _ => rfl

theorem optionalNode (h : p.Agrees q) : p.optionalNode? = q.optionalNode? := by
  rcases h.alike.compound with heq | ⟨hp, hq⟩
  · rw [Reading.optionalNode?, Reading.optionalNode?, heq, h.node]
  · have hsome (r : Reading) (hr : r.json.isCompound) : r.optionalNode? = r.node.map some := by
      rw [Reading.optionalNode?]
      split
      case h_1 hnull => rw [hnull] at hr; cases hr
      case h_2 => rfl
    rw [hsome p hp, hsome q hq, h.node]

end Reading.Agrees

namespace Node

theorem ofFields?_congr {kind : Kind} {fs gs : Fields Reading}
    (h : Fields.Agree (fun _ => Reading.Agrees) fs gs) : ofFields? kind fs = ofFields? kind gs := by
  have hnode (name : String) : fs.required name Reading.node = gs.required name Reading.node :=
    h.required fun _ _ => Reading.Agrees.node
  have hnodes (name : String) : fs.required name Reading.nodes = gs.required name Reading.nodes :=
    h.required fun _ _ => Reading.Agrees.nodes
  have htext (name : String) : fs.required name Reading.text? = gs.required name Reading.text? :=
    h.required fun _ _ hab => hab.alike.text
  have hlist (name : String) : fs.required name Reading.texts? = gs.required name Reading.texts? :=
    h.required fun _ _ hab => hab.alike.texts
  have hliteral : fs.required "value" Reading.literal? = gs.required "value" Reading.literal? :=
    h.required fun _ _ => Reading.Agrees.literal
  have hparams : fs.withDefault "params" Reading.texts? [] =
      gs.withDefault "params" Reading.texts? [] := h.withDefault fun _ _ hab => hab.alike.texts
  have hvalue : fs.withDefault "value" Reading.optionalNode? none =
      gs.withDefault "value" Reading.optionalNode? none :=
    h.withDefault fun _ _ => Reading.Agrees.optionalNode
  have helse : fs.withDefault "else_block" Reading.nodes [] =
      gs.withDefault "else_block" Reading.nodes [] := h.withDefault fun _ _ => Reading.Agrees.nodes
  cases kind <;>
    simp only [ofFields?, hnode, hnodes, htext, hlist, hliteral, hparams, hvalue, helse]

/-- An object is the same node, if the field of its kind and the fields that this kind has say the
same. -/
theorem ofObject?_congr {parts parts' : List (Option String × Reading)}
    (htag : Fields.Varies (fun _ => Reading.Agrees) ["kind"] parts parts')
    (hfields : ∀ kind tag, parts.lookup (some "kind") = some tag →
      Kind.ofJson? tag.json = some kind →
        Fields.Varies (fun _ => Reading.Agrees) kind.fields parts parts') :
    ofObject? parts = ofObject? parts' := by
  rw [ofObject?_eq, ofObject?_eq]
  refine bind_eq_of_rel (htag.ofObject? fun _ => Reading.Agrees.refl) fun tags _ htags hagree => ?_
  refine bind_eq_of_rel (hagree "kind") fun tag tag' hlookup htag => ?_
  rw [← htag.alike.kind]
  cases hkind : Kind.ofJson? tag.json with
  | none => rfl
  | some kind =>
    have hfirst := (Fields.lookup_of_ofObject? htags (mem_singleton_self _)).symm.trans hlookup
    have hrel := (hfields kind tag hfirst hkind).ofObject? fun _ => Reading.Agrees.refl
    rw [Option.bind_some, Option.bind_some]
    exact bind_eq_of_rel hrel fun _ _ _ => ofFields?_congr

theorem ofArray?_congr {front back : List Reading} {p q : Reading} (h : p.Agrees q) :
    ofArray? (front ++ p :: back) = ofArray? (front ++ q :: back) := by
  cases front with
  | nil =>
    rw [nil_append, nil_append, ofArray?, ofArray?, h.alike.kind]
  | cons tag front =>
    refine bind_congr fun kind => ?_
    exact bind_eq_of_rel (Fields.ofArray?_replace (fun _ => Reading.Agrees.refl) fun _ _ => h)
      fun _ _ _ => ofFields?_congr

end Node

/-- Two values are the same to whoever reads a part of a node, or the statements of a unit. -/
structure Json.NodeAgrees (x y : Json) : Prop where
  reading : (Reading.ofJson x).Agrees (Reading.ofJson y)
  namesKind : x.namesKind = y.namesKind
  statements : x.items? Node.ofStatement? = y.items? Node.ofStatement?

/-- Two values are the same to whoever reads an import, or the imports of a unit. -/
structure Json.ImportAgrees (x y : Json) : Prop where
  alike : x.Alike y
  single : Import.ofJson? x = Import.ofJson? y
  all : x.items? Import.ofJson? = y.items? Import.ofJson?

/-- Two values are the same to whoever reads them as what they stand for. -/
def Role.Agrees (x y : Json) : Role → Prop
  | .node => x.NodeAgrees y
  | .imported => x.ImportAgrees y
  | .unit => SourceUnit.decode? x = SourceUnit.decode? y

namespace Json

variable {x y z : Json}

theorem NodeAgrees.alike (h : NodeAgrees x y) : Alike x y := by
  simpa using h.reading.alike

theorem NodeAgrees.statement (h : NodeAgrees x y) : Node.ofStatement? x = Node.ofStatement? y := by
  rw [Node.ofStatement?, Node.ofStatement?, h.alike.sound, h.namesKind, h.reading.node]

theorem fieldsOf?_varies {R : Option String → Json → Json → Prop} {names : List String}
    {fields fields' : List (Option String × Json)} (hrefl : ∀ name json, R name json json)
    (h : Fields.Varies R names fields fields') :
    Option.Rel (Fields.Agree fun name => R (some name)) ((Json.object fields).fieldsOf? names)
      ((Json.object fields').fieldsOf? names) := by
  have hnamed : fields.all (·.1.isSome) = fields'.all (·.1.isSome) := by
    cases h with
    | replace h => simp
    | reorder h => exact h.all_eq
    | extra h => rfl
  rw [fieldsOf?, fieldsOf?, hnamed]
  split
  · exact h.ofObject? hrefl
  · exact .none

end Json

theorem Import.ofJson?_congr {x y : Json}
    (h : Option.Rel (Fields.Agree fun _ => Json.Alike) (x.fieldsOf? Import.fields)
      (y.fieldsOf? Import.fields)) : Import.ofJson? x = Import.ofJson? y := by
  refine bind_eq_of_rel h fun fs gs _ hagree => ?_
  rw [hagree.required fun _ _ => Json.Alike.text,
    hagree.withDefault fun _ _ => Json.Alike.optionalText]

theorem SourceUnit.decode?_congr {x y : Json}
    (h : Option.Rel (Fields.Agree fun name x y => (Role.unit.part (some name)).Agrees x y)
      (x.fieldsOf? SourceUnit.fields) (y.fieldsOf? SourceUnit.fields)) :
    SourceUnit.decode? x = SourceUnit.decode? y := by
  refine bind_eq_of_rel h fun fs gs _ hagree => ?_
  have hstatements : fs.required "statements" (Json.items? Node.ofStatement?) =
      gs.required "statements" (Json.items? Node.ofStatement?) :=
    hagree.required fun _ _ hab => Json.NodeAgrees.statements hab
  have hobserved : fs.withDefault "observed" Json.texts? [] =
      gs.withDefault "observed" Json.texts? [] :=
    hagree.withDefault fun _ _ hab => (Json.NodeAgrees.alike hab).texts
  have himports : fs.withDefault "imports" (Json.items? Import.ofJson?) [] =
      gs.withDefault "imports" (Json.items? Import.ofJson?) [] :=
    hagree.withDefault fun _ _ hab => Json.ImportAgrees.all hab
  have hmodule : fs.withDefault "module" Json.optionalText? none =
      gs.withDefault "module" Json.optionalText? none :=
    hagree.withDefault fun _ _ hab => (Json.NodeAgrees.alike hab).optionalText
  rw [hstatements, hobserved, himports, hmodule]

namespace Role

variable {role : Role} {x y z : Json}

theorem Agrees.refl (role : Role) (x : Json) : role.Agrees x x := by
  cases role with
  | node => exact ⟨.refl _, rfl, rfl⟩
  | imported => exact ⟨⟨.inl rfl, rfl, rfl⟩, rfl, rfl⟩
  | unit => rfl

theorem Agrees.trans (hxy : role.Agrees x y) (hyz : role.Agrees y z) : role.Agrees x z := by
  cases role with
  | node =>
    exact ⟨⟨hxy.reading.alike.trans hyz.reading.alike, hxy.reading.node.trans hyz.reading.node,
      hxy.reading.nodes.trans hyz.reading.nodes⟩, hxy.namesKind.trans hyz.namesKind,
      hxy.statements.trans hyz.statements⟩
  | imported =>
    exact ⟨hxy.alike.trans hyz.alike, hxy.single.trans hyz.single, hxy.all.trans hyz.all⟩
  | unit => exact Eq.trans hxy hyz

/-- An element of an array is respelled. -/
theorem Agrees.array {front back : List Json} (h : (role.item front.length).Agrees x y)
    (halike : (Json.array (front ++ x :: back)).Alike (.array (front ++ y :: back))) :
    role.Agrees (.array (front ++ x :: back)) (.array (front ++ y :: back)) := by
  cases role with
  | node =>
    replace h : x.NodeAgrees y := h
    refine ⟨⟨halike, ?_, ?_⟩, ?_, mapM_replace h.statement⟩
    · rw [Reading.ofJson, Reading.ofJson, Reading.ofItems_eq, Reading.ofItems_eq, map_append,
        map_append, map_cons, map_cons]
      exact Node.ofArray?_congr h.reading
    · rw [Node.nodes_array, Node.nodes_array]
      exact mapM_replace h.reading.node
    · cases front with
      | nil => exact congrArg Option.isSome h.alike.text
      | cons => rfl
  | imported =>
    replace h : x.ImportAgrees y := h
    refine ⟨halike, Import.ofJson?_congr ?_, mapM_replace h.single⟩
    exact Fields.ofArray?_replace (fun _ json => (Agrees.refl .imported json).alike)
      fun _ _ => h.alike
  | unit =>
    refine SourceUnit.decode?_congr (Fields.ofArray?_replace (fun _ => Agrees.refl _) ?_)
    intro name hname
    rwa [item, hname] at h

/-- An object is respelled, and the fields that are asked for are at most respelled themselves. -/
theorem Agrees.object {fields fields' : List (Option String × Json)}
    (halike : (Json.object fields).Alike (.object fields'))
    (h : ∀ names ⊆ role.asked fields,
      Fields.Varies (fun name x y => (role.part name).Agrees x y) names fields fields') :
    role.Agrees (.object fields) (.object fields') := by
  cases role with
  | node =>
    have hreadings (names : List String) (hnames : names ⊆ asked fields .node) :
        Fields.Varies (fun _ => Reading.Agrees) names (Reading.ofFields fields)
          (Reading.ofFields fields') := by
      rw [Reading.ofFields_eq, Reading.ofFields_eq]
      exact (h names hnames).map fun _ _ _ hxy => Json.NodeAgrees.reading hxy
    have htag : ["kind"] ⊆ asked fields .node := by simp [asked]
    refine ⟨⟨halike, Node.ofObject?_congr (hreadings _ htag) ?_, rfl⟩, ?_, rfl⟩
    · intro kind tag hlookup hkind
      refine hreadings kind.fields fun name hname => ?_
      rw [Reading.lookup_ofFields] at hlookup
      obtain ⟨json, hfirst, rfl⟩ := Option.map_eq_some_iff.mp hlookup
      rw [Reading.json_ofJson] at hkind
      simp [asked, hfirst, hkind, hname]
    · cases h _ htag with
      | replace hxy => simp [Json.namesKind, (Json.NodeAgrees.alike hxy).text]
      | reorder hperm => exact hperm.all_eq
      | extra hname => simp [Json.namesKind, mem_singleton.not.mp hname]
  | imported =>
    refine ⟨halike, Import.ofJson?_congr ?_, rfl⟩
    have hfields := (h _ (List.Subset.refl _)).mono fun _ _ _ hxy => Json.NodeAgrees.alike hxy
    exact Json.fieldsOf?_varies (fun _ json => (Agrees.refl .imported json).alike) hfields
  | unit =>
    exact SourceUnit.decode?_congr
      (Json.fieldsOf?_varies (fun _ => Agrees.refl _) (h _ (List.Subset.refl _)))

end Role

/-- A respelling is the same to whoever reads the value as what it stands for. -/
theorem Json.Respells.agrees {role : Role} {x y : Json} (h : Respells role x y) :
    role.Agrees x y := by
  induction h with
  | same => exact .refl _ _
  | trans _ _ ihxy ihyz => exact ihxy.trans ihyz
  | item h ih => exact ih.array (Respells.item h).alike
  | part h ih => exact .object (Respells.part h).alike fun _ _ => .replace ih
  | reorder h => exact .object (Respells.reorder h : Respells .unit _ _).alike fun _ _ => .reorder h
  | extra hname hvalue =>
    exact .object (Respells.extra hname hvalue).alike
      fun _ hnames => .extra fun hmem => hname (hnames hmem)

/-- A unit whose numbers are finite is read back from what is written for it, with the same bits in
each number, and no respelling of a value changes the unit that is read. -/
theorem SourceUnit.decode?_toJson_and_respells :
    (∀ u : SourceUnit, (∀ x ∈ Node.numbersAll u.statements, x.isFinite) →
      SourceUnit.decode? u.toJson = some u) ∧
    ∀ x y : Json, x.Respells .unit y → SourceUnit.decode? x = SourceUnit.decode? y :=
  ⟨fun _ => SourceUnit.decode?_toJson, fun _ _ h => h.agrees⟩

/-- A document with one statement, the constant `-0.0`: its fields stand the other way round, and
the statement and the unit have a field more than is written. -/
theorem SourceUnit.decode?_respelled_negativeZero :
    let zero : Double := ⟨0x8000000000000000⟩
    SourceUnit.decode? (.record [("version", .whole 2), ("module", .null), ("imports", .array []),
      ("observed", .array []), ("statements", .array [.record [("line", .whole 7),
        ("value", .real (some zero)), ("kind", .ofString "literal")]])]) =
      some { statements := [.literal (.number zero)] } := by
  intro zero
  have hwritten : (Node.literal (.number zero)).toJson =
      .record [("kind", .ofString "literal"), ("value", .real (some zero))] := by
    have hzero : (Literal.number zero).toJson = .real (some zero) := if_pos (by decide)
    rw [Node.toJson, hzero]
    rfl
  have hkind : Json.Respells .node (Node.literal (.number zero)).toJson
      (.record [("value", .real (some zero)), ("kind", .ofString "literal")]) :=
    hwritten ▸ .reorder (.swap ..)
  have hstatement := hkind.trans
    (.extra (by decide : "line" ∉ _) (rfl : (Json.whole 7).sound = true))
  have hinside := @Json.Respells.part .unit [] [(some "observed", .array []),
    (some "imports", .array []), (some "module", .null)] (some "statements") _ _
    (@Json.Respells.item .node [] [] _ _ hstatement)
  have hunit := (hinside.trans (.reorder (reverse_perm _).symm)).trans
    (.extra (by decide : "version" ∉ _) (rfl : (Json.whole 2).sound = true))
  have hread := SourceUnit.decode?_toJson_and_respells.1 { statements := [.literal (.number zero)] }
    (by decide)
  exact (SourceUnit.decode?_toJson_and_respells.2 _ _ hunit).symm.trans hread

end ScriptCompiler
