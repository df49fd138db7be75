import Mathlib.Data.List.Basic
import ScriptCompiler.Source.Exchange

/-!
# Units come back from the exchange format

A unit whose numbers are finite is read back from the value that is written for it
(`SourceUnit.decode?_toJson`). The readings of the written parts are computed by recursion on the
node: in an object that is written for a node, its kind is named once and each of the kind's fields
stands once (`Node.node_tagged`).
-/

namespace ScriptCompiler

open List

/-! ## The numbers of a unit -/

namespace Node

mutual

/-- The numbers in a node. -/
def numbers : Node → List Double
  | .literal (.number value) => [value]
  | .literal _ | .identifier _ | .breakLoop | .structDef .. | .importModule _ => []
  | .unary _ operand => operand.numbers
  | .assignment _ value => value.numbers
  | .memberAccess object _ => object.numbers
  | .interrogative _ target => target.numbers
  | .binary _ left right => left.numbers ++ right.numbers
  | .index list position => list.numbers ++ position.numbers
  | .relation callee argument => callee.numbers ++ argument.numbers
  | .indexedAssignment target position value =>
    target.numbers ++ position.numbers ++ value.numbers
  | .ret value => numbersOption value
  | .functionDef _ _ body => numbersAll body
  | .listLiteral elements => numbersAll elements
  | .structLiteral _ args => numbersAll args
  | .loop condition body => condition.numbers ++ numbersAll body
  | .conditional condition thenBlock elseBlock =>
    condition.numbers ++ numbersAll thenBlock ++ numbersAll elseBlock

/-- The numbers in several nodes. -/
def numbersAll : List Node → List Double
  | [] => []
  | n :: rest => n.numbers ++ numbersAll rest

/-- The numbers in a node, if there is one. -/
def numbersOption : Option Node → List Double
  | none => []
  | some n => n.numbers

end

end Node

/-! ## Fields by name -/

namespace Fields

variable {α β : Type} {names : List String} {parts parts' : List (Option String × α)}

/-- The field of an object, when it is asked for. -/
def known? (names : List String) (field : Option String × α) : Option (String × α) :=
  field.1.bind fun name => if name ∈ names then some (name, field.2) else none

theorem ofObject?_eq : ofObject? names parts =
    if ((parts.filterMap (known? names)).map Prod.fst).Nodup
    then some (parts.filterMap (known? names)) else none := rfl

theorem ofObject?_record {fs : Fields α} (hnames : ∀ p ∈ fs, p.1 ∈ names)
    (hnodup : (fs.map Prod.fst).Nodup) :
    ofObject? names (fs.map fun p => (some p.1, p.2)) = some fs := by
  have hknown : (fs.map fun p => (some p.1, p.2)).filterMap (known? names) = fs := by
    calc
      _ = fs.filterMap fun p => known? names (some p.1, p.2) := filterMap_map
      _ = fs.filterMap some := filterMap_congr fun p hp => by simp [known?, hnames p hp]
      _ = fs := filterMap_some
  rw [ofObject?_eq, hknown, if_pos hnodup]

theorem ofObject?_cons_of_notMem {name : String} {part : α} (h : name ∉ names) :
    ofObject? names ((some name, part) :: parts) = ofObject? names parts := by
  simp [ofObject?, h]

end Fields

/-! ## What is written is sound -/

namespace Json

theorem soundItems_eq (items : List Json) : soundItems items = items.all sound := by
  induction items with
  | nil => rfl
  | cons item rest ih => rw [soundItems, ih, all_cons]

theorem soundFields_eq (fields : List (Option String × Json)) :
    soundFields fields = fields.all fun p => p.1.isSome && p.2.sound := by
  induction fields with
  | nil => rfl
  | cons field rest ih => rw [soundFields, ih, all_cons]

theorem sound_record {fields : List (String × Json)} :
    (record fields).sound ↔ ∀ p ∈ fields, p.2.sound := by
  simp [record, sound, soundFields_eq]

theorem sound_ofStrings (names : List String) : (ofStrings names).sound := by
  simp [ofStrings, ofString, sound, soundItems_eq]

end Json

theorem Literal.sound_toJson (value : Literal) : value.toJson.sound := by
  cases value with
  | number value =>
    rw [toJson]
    split <;> rfl
  | text => rfl
  | null => rfl

namespace Node

mutual

theorem sound_toJson (n : Node) : n.toJson.sound := by
  cases n <;>
    simp [toJson, toJson.tagged, Json.sound_record, Literal.sound_toJson, Json.sound_ofStrings,
      Json.ofString, Json.sound, sound_toJson, sound_toJsonOption, soundItems_toJsonAll]

theorem soundItems_toJsonAll (nodes : List Node) : Json.soundItems (toJsonAll nodes) := by
  cases nodes with
  | nil => rfl
  | cons n rest => simp [toJsonAll, Json.soundItems, sound_toJson, soundItems_toJsonAll]

theorem sound_toJsonOption (value : Option Node) : (toJsonOption value).sound := by
  cases value with
  | none => rfl
  | some n => exact sound_toJson n

end

theorem namesKind_toJson (n : Node) : n.toJson.namesKind := by
  cases n <;> rfl

/-! ## Reading what is written -/

namespace Kind

theorem ofTag?_tag (kind : Kind) : ofTag? kind.tag = some kind := by
  cases kind <;> rfl

theorem fields_nodup (kind : Kind) : kind.fields.Nodup := by
  cases kind <;> decide

theorem kind_notMem_fields (kind : Kind) : "kind" ∉ kind.fields := by
  cases kind <;> decide

end Kind

end Node

theorem Reading.ofItems_eq (items : List Json) :
    Reading.ofItems items = items.map Reading.ofJson := by
  induction items with
  | nil => rfl
  | cons item rest ih => rw [Reading.ofItems, ih, map_cons]

theorem Reading.ofFields_eq (fields : List (Option String × Json)) :
    Reading.ofFields fields = fields.map fun p => (p.1, Reading.ofJson p.2) := by
  induction fields with
  | nil => rfl
  | cons field rest ih => rw [Reading.ofFields, ih, map_cons]

@[simp]
theorem Reading.json_ofJson (json : Json) : (Reading.ofJson json).json = json := by
  cases json <;> rfl

namespace Node

/-- An object is a node when exactly one field names a kind and the fields of that kind are
there. -/
theorem ofObject?_eq (parts : List (Option String × Reading)) :
    ofObject? parts = (Fields.ofObject? ["kind"] parts).bind fun tags =>
      tags.required "kind" fun tag => (Kind.ofJson? tag.json).bind fun kind =>
        (Fields.ofObject? kind.fields parts).bind (ofFields? kind) := by
  have hknown : parts.filterMap (Fields.known? ["kind"]) =
      (parts.filter fun p => p.1 = some "kind").map fun p => ("kind", p.2) := by
    induction parts with
    | nil => rfl
    | cons field rest ih =>
      obtain ⟨name, part⟩ := field
      cases name with
      | none => simpa [Fields.known?] using ih
      | some name => by_cases hname : name = "kind" <;> simp [Fields.known?, hname, ih]
  rw [Fields.ofObject?_eq, hknown]
  unfold ofObject?
  split
  case h_1 name tag htags =>
    rw [show parts.filter (fun p => p.1 = some "kind") = [(name, tag)] from htags]
    rfl
  case h_2 htags =>
    have hother : ∀ name tag, parts.filter (fun p => p.1 = some "kind") ≠ [(name, tag)] := htags
    generalize parts.filter (fun p => p.1 = some "kind") = tags at hother
    rcases tags with _ | ⟨tag, _ | ⟨second, rest⟩⟩
    · rfl
    · exact absurd rfl (hother tag.1 tag.2)
    · simp

/-- The object form of a node is read by the fields of its kind. -/
theorem node_tagged {kind : Kind} {fs : Fields Json} (h : fs.map Prod.fst = kind.fields) :
    (Reading.ofJson (toJson.tagged kind fs)).node =
      ofFields? kind (fs.map fun p => (p.1, Reading.ofJson p.2)) := by
  let tag := Reading.ofJson (.ofString kind.tag)
  let parts : Fields Reading := fs.map fun p => (p.1, Reading.ofJson p.2)
  have hparts : parts.map Prod.fst = kind.fields := by rw [← h]; simp [parts, Function.comp_def]
  have hmem : ∀ p ∈ parts, p.1 ∈ kind.fields := fun p hp => hparts ▸ mem_map_of_mem hp
  have hnode : (Reading.ofJson (toJson.tagged kind fs)).node =
      ofObject? ((some "kind", tag) :: parts.map fun p => (some p.1, p.2)) := by
    simp [toJson.tagged, Json.record, Reading.ofJson, Reading.ofFields_eq, tag, parts,
      Function.comp_def]
  have htags : Fields.ofObject? ["kind"]
      ((some "kind", tag) :: parts.map fun p => (some p.1, p.2)) = some [("kind", tag)] := by
    have hnone : (parts.map fun p => (some p.1, p.2)).filterMap (Fields.known? ["kind"]) = [] := by
      refine filterMap_eq_nil_iff.mpr fun p hp => ?_
      obtain ⟨q, hq, rfl⟩ := mem_map.mp hp
      have hne : q.1 ≠ "kind" := fun heq => kind.kind_notMem_fields (heq ▸ hmem q hq)
      simp [Fields.known?, hne]
    rw [Fields.ofObject?_eq, filterMap_cons, hnone]
    simp [Fields.known?]
  have hfields : Fields.ofObject? kind.fields
      ((some "kind", tag) :: parts.map fun p => (some p.1, p.2)) = some parts := by
    rw [Fields.ofObject?_cons_of_notMem kind.kind_notMem_fields]
    exact Fields.ofObject?_record hmem (hparts ▸ kind.fields_nodup)
  have hkind : Kind.ofJson? tag.json = some kind := by
    rw [Reading.json_ofJson]
    exact kind.ofTag?_tag
  rw [hnode, ofObject?_eq, htags, Option.bind_some, Fields.required, lookup_cons_self,
    Option.bind_some, hkind, Option.bind_some, hfields, Option.bind_some]

theorem literal?_toJson {value : Literal} (h : ∀ x ∈ (literal value).numbers, x.isFinite) :
    (Reading.ofJson value.toJson).literal? = some value := by
  cases value with
  | number value =>
    have hfinite : value.isFinite := h value (by simp [numbers])
    simp [Literal.toJson, hfinite, Reading.literal?, Reading.ofJson, Json.number?]
  | text value => rfl
  | null => rfl

theorem text?_ofString (name : String) : (Reading.ofJson (.ofString name)).text? = some name :=
  rfl

theorem texts?_ofStrings (names : List String) : (Json.ofStrings names).texts? = some names := by
  rw [Json.ofStrings, Json.texts?, mapM_map]
  exact (mapM_pure (m := Option) (f := id)).trans (by simp)

theorem nodes_array (items : List Json) :
    (Reading.ofJson (.array items)).nodes = items.mapM fun item => (Reading.ofJson item).node := by
  rw [Reading.ofJson, Reading.ofItems_eq, mapM_map]
  rfl

attribute [local simp] ofFields? Fields.required Fields.withDefault lookup_cons
  text?_ofString texts?_ofStrings Reading.texts?

mutual

/-- A node is read back from its object form. -/
theorem node_toJson (n : Node) (h : ∀ x ∈ n.numbers, x.isFinite) :
    (Reading.ofJson n.toJson).node = some n := by
  cases n with
  | literal value =>
    rw [toJson, node_tagged rfl]
    simp [literal?_toJson h]
  | identifier name =>
    rw [toJson, node_tagged rfl]
    simp
  | binary op left right =>
    obtain ⟨hleft, hright⟩ := forall_mem_append.mp h
    rw [toJson, node_tagged rfl]
    simp [node_toJson left hleft, node_toJson right hright]
  | unary op operand =>
    rw [toJson, node_tagged rfl]
    simp [node_toJson operand h]
  | assignment name value =>
    rw [toJson, node_tagged rfl]
    simp [node_toJson value h]
  | indexedAssignment target position value =>
    obtain ⟨hfront, hvalue⟩ := forall_mem_append.mp h
    obtain ⟨htarget, hposition⟩ := forall_mem_append.mp hfront
    rw [toJson, node_tagged rfl]
    simp [node_toJson target htarget, node_toJson position hposition, node_toJson value hvalue]
  | functionDef name params body =>
    rw [toJson, node_tagged rfl]
    simp [nodes_toJsonAll body h]
  | ret value =>
    rw [toJson, node_tagged rfl]
    simp [optionalNode?_toJsonOption value h]
  | breakLoop =>
    rw [toJson, node_tagged rfl]
    rfl
  | conditional condition thenBlock elseBlock =>
    obtain ⟨hfront, helse⟩ := forall_mem_append.mp h
    obtain ⟨hcondition, hthen⟩ := forall_mem_append.mp hfront
    rw [toJson, node_tagged rfl]
    simp [node_toJson condition hcondition, nodes_toJsonAll thenBlock hthen,
      nodes_toJsonAll elseBlock helse]
  | loop condition body =>
    obtain ⟨hcondition, hbody⟩ := forall_mem_append.mp h
    rw [toJson, node_tagged rfl]
    simp [node_toJson condition hcondition, nodes_toJsonAll body hbody]
  | listLiteral elements =>
    rw [toJson, node_tagged rfl]
    simp [nodes_toJsonAll elements h]
  | index list position =>
    obtain ⟨hlist, hposition⟩ := forall_mem_append.mp h
    rw [toJson, node_tagged rfl]
    simp [node_toJson list hlist, node_toJson position hposition]
  | memberAccess object member =>
    rw [toJson, node_tagged rfl]
    simp [node_toJson object h]
  | structDef name fields =>
    rw [toJson, node_tagged rfl]
    simp
  | structLiteral name args =>
    rw [toJson, node_tagged rfl]
    simp [nodes_toJsonAll args h]
  | interrogative word target =>
    rw [toJson, node_tagged rfl]
    simp [node_toJson target h]
  | relation callee argument =>
    obtain ⟨hcallee, hargument⟩ := forall_mem_append.mp h
    rw [toJson, node_tagged rfl]
    simp [node_toJson callee hcallee, node_toJson argument hargument]
  | importModule module =>
    rw [toJson, node_tagged rfl]
    simp

/-- Several nodes are read back from their object forms. -/
theorem nodes_toJsonAll (nodes : List Node) (h : ∀ x ∈ numbersAll nodes, x.isFinite) :
    (Reading.ofJson (.array (toJsonAll nodes))).nodes = some nodes := by
  rw [nodes_array]
  cases nodes with
  | nil => rfl
  | cons n rest =>
    obtain ⟨hn, hrest⟩ := forall_mem_append.mp h
    have hlater := nodes_toJsonAll rest hrest
    rw [nodes_array] at hlater
    rw [toJsonAll, mapM_cons, node_toJson n hn, hlater]
    rfl

theorem optionalNode?_toJsonOption (value : Option Node)
    (h : ∀ x ∈ numbersOption value, x.isFinite) :
    (Reading.ofJson (toJsonOption value)).optionalNode? = some value := by
  cases value with
  | none => rfl
  | some n =>
    obtain ⟨fields, hfields⟩ : ∃ fields, n.toJson = .object fields := by
      cases n <;> exact ⟨_, rfl⟩
    have hnode := node_toJson n h
    rw [toJsonOption, Reading.optionalNode?, Reading.json_ofJson, hnode, hfields]
    rfl

end

theorem mapM_ofStatement?_toJsonAll {nodes : List Node}
    (h : ∀ x ∈ numbersAll nodes, x.isFinite) :
    (toJsonAll nodes).mapM ofStatement? = some nodes := by
  induction nodes with
  | nil => rfl
  | cons n rest ih =>
    obtain ⟨hn, hrest⟩ := forall_mem_append.mp h
    have hread : ofStatement? n.toJson = some n := by
      simp [ofStatement?, sound_toJson, namesKind_toJson, node_toJson n hn]
    rw [toJsonAll, mapM_cons, hread, ih hrest]
    rfl

end Node

theorem Json.fieldsOf?_record {names : List String} {fs : Fields Json}
    (h : fs.map Prod.fst = names) (hnodup : names.Nodup) :
    (Json.record fs).fieldsOf? names = some fs := by
  have hmem : ∀ p ∈ fs, p.1 ∈ names := fun p hp => h ▸ mem_map_of_mem hp
  have hnamed : (fs.map fun p => (some p.1, p.2)).all (·.1.isSome) := by simp
  rw [Json.record, Json.fieldsOf?, if_pos hnamed]
  exact Fields.ofObject?_record hmem (h ▸ hnodup)

theorem Json.optionalText?_ofOption (value : Option String) :
    (Json.ofOption value).optionalText? = some value := by
  cases value <;> rfl

theorem Import.ofJson?_toJson (i : Import) : Import.ofJson? i.toJson = some i := by
  rw [Import.ofJson?, Import.toJson, Json.fieldsOf?_record (by rfl) (by decide)]
  simp [Fields.required, Fields.withDefault, lookup_cons, Json.ofString, Json.text?,
    Json.optionalText?_ofOption]

theorem SourceUnit.decode?_toJson {u : SourceUnit}
    (h : ∀ x ∈ Node.numbersAll u.statements, x.isFinite) :
    SourceUnit.decode? u.toJson = some u := by
  have himports : (u.imports.map Import.toJson).mapM Import.ofJson? = some u.imports := by
    rw [mapM_map]
    have hread : Import.ofJson? ∘ Import.toJson = some := funext Import.ofJson?_toJson
    rw [hread]
    exact (mapM_pure (m := Option) (f := id)).trans (by simp)
  rw [SourceUnit.decode?, SourceUnit.toJson, Json.fieldsOf?_record (by rfl) (by decide)]
  simp [Fields.required, Fields.withDefault, lookup_cons, Json.items?,
    Node.mapM_ofStatement?_toJsonAll h, Node.texts?_ofStrings, himports,
    Json.optionalText?_ofOption]

end ScriptCompiler
