import QueryFilter.Proofs.Referred

/-!
A document that describes a model is loaded, and as it is described. It may
spell the description in any way that the reader understands: the order of keys
and whether scalars are quoted are up to it.
-/

namespace QueryFilter

open List (Forall₂)
open Relation

/-! ### Descriptions of models -/

/-- How numbers are said to be stored: nothing is said, as the numbers that they
are, or as text. -/
inductive Storage where
  | unstated | number | text

namespace Storage

def representation (storage : Storage) (number : Representation) : Representation :=
  match storage with
  | .unstated | .number => number
  | .text => .string

/-- What is said of a representation, if anything. -/
def stated? (storage : Storage) (number : Representation) : Option Representation :=
  match storage with
  | .unstated => none
  | .number => some number
  | .text => some .string

end Storage

namespace Width

def word : Width → String
  | .int32 => "int32"
  | .int64 => "int64"

def representation : Width → Representation
  | .int32 => .int32
  | .int64 => .int64

end Width

inductive TypeSpec where
  | string
  | boolean
  | double
  | integer (width : Width) (storage : Storage)
  | enumeration (name : Option String) (values : List String) (storage : Storage)
  | array (element : TypeSpec)
  | dictionary (layout : Option Layout) (key value : TypeSpec)
  | reference (className : String)

structure MemberSpec where
  name : String
  element : Option String
  type : TypeSpec

structure ClassSpec where
  name : String
  members : List MemberSpec

/-- A described model: its classes in any order. -/
structure ModelSpec where
  classes : List ClassSpec

/-- The name of the element that a member is stored as: its own, unless another
is given. -/
def MemberSpec.elementName (m : MemberSpec) : String :=
  if m.element.getD "" = "" then m.name else m.element.getD ""

/-- The classes that a type refers to. -/
def TypeSpec.references : TypeSpec → List String
  | .array element => element.references
  | .dictionary _ key value => key.references ++ value.references
  | .reference className => [className]
  | _ => []

def ClassSpec.references (c : ClassSpec) : List String :=
  c.members.flatMap (·.type.references)

namespace ModelSpec

def names (d : ModelSpec) : List String := d.classes.map (·.name)

def Refers (d : ModelSpec) (a b : String) : Prop :=
  ∃ c ∈ d.classes, c.name = a ∧ b ∈ c.references

/-- Classes and the members of a class have names of their own, and classes refer
to described classes, but not in circles. -/
structure WellFormed (d : ModelSpec) : Prop where
  distinct : d.names.Nodup
  members : ∀ c ∈ d.classes, (c.members.map (·.name)).Nodup
  known : ∀ c ∈ d.classes, c.references ⊆ d.names
  acyclic : ∀ name, ¬ TransGen d.Refers name name

end ModelSpec

/-! ### Documents that spell them -/

namespace Flow

/-- A node has the text of a scalar under a key, or has nothing there. -/
def Gives (node : Flow) (key : String) (text : Option String) : Prop :=
  (node.get? key).map scalarText? = text.map some

/-- A node has a sequence under a key; an empty one may be missing. -/
def Lists (node : Flow) (key : String) (items : List Flow) : Prop :=
  node.get? key = some (.sequence items) ∨ node.get? key = none ∧ items = []

/-- A node describes a type. -/
inductive Spells : Flow → TypeSpec → Prop where
  | string {node : Flow} : node.Gives "type" (some "string") → Spells node .string
  | boolean {node : Flow} {word : String} :
      node.Gives "type" (some word) → word = "bool" ∨ word = "boolean" → Spells node .boolean
  | double {node : Flow} : node.Gives "type" (some "double") → Spells node .double
  | integer {node : Flow} {width : Width} {storage : Storage} :
      node.Gives "type" (some width.word) →
      node.Gives "representation" ((storage.stated? width.representation).map (·.text)) →
      Spells node (.integer width storage)
  | enumeration {node : Flow} {name : Option String} {items : List Flow} {values : List String}
      {storage : Storage} :
      node.Gives "type" (some "enum") → node.Gives "enum_name" name →
      node.get? "values" = some (.sequence items) →
      Forall₂ (fun item value => item.scalarText? = some value) items values →
      node.Gives "representation" ((storage.stated? .int32).map (·.text)) →
      Spells node (.enumeration name values storage)
  | array {node inner : Flow} {element : TypeSpec} :
      node.Gives "type" (some "array") → node.get? "element" = some inner →
      Spells inner element → Spells node (.array element)
  | dictionary {node keyNode valueNode : Flow} {layout : Option Layout} {key value : TypeSpec} :
      node.Gives "type" (some "dictionary") →
      node.get? "key" = some keyNode → Spells keyNode key →
      node.get? "value" = some valueNode → Spells valueNode value →
      node.Gives "representation" (layout.map (·.text)) →
      Spells node (.dictionary layout key value)
  | reference {node : Flow} {className : String} :
      node.Gives "type" (some "class") → node.Gives "class" (some className) →
      Spells node (.reference className)

structure SpellsMember (node : Flow) (m : MemberSpec) : Prop where
  name : node.Gives "name" (some m.name)
  element : node.Gives "element_name" m.element
  type : Spells node m.type

structure SpellsClass (node : Flow) (c : ClassSpec) : Prop where
  name : node.Gives "name" (some c.name)
  members : ∃ items, node.Lists "members" items ∧ Forall₂ SpellsMember items c.members

/-- A document describes a model and no settings. -/
structure SpellsModel (root : Flow) (d : ModelSpec) : Prop where
  settings : root.get? "translation" = none
  classes : ∃ nodes, root.get? "classes" = some (.sequence nodes) ∧
    Forall₂ SpellsClass nodes d.classes

end Flow

/-- The text of a document that describes a model, in the notation of a reader. -/
def ModelSpec.Document (d : ModelSpec) (reader : Reader) (text : String) : Prop :=
  ∃ root, reader.document? text = some root ∧ root.SpellsModel d

/-! ### Models that are as described -/

/-- An encoder of the described kinds and representations; references are to what
`find` gives. An enumeration without a name has that of its member. -/
inductive Encodes (find : String → Option Encoder) (member : String) :
    TypeSpec → Encoder → Prop where
  | string : Encodes find member .string .string
  | boolean : Encodes find member .boolean .boolean
  | double : Encodes find member .double .double
  | integer (width : Width) (storage : Storage) :
      Encodes find member (.integer width storage)
        (.integer width (storage.representation width.representation))
  | enumeration (name : Option String) (values : List String) (storage : Storage) :
      Encodes find member (.enumeration name values storage)
        (.enumeration (name.getD member) values (storage.representation .int32))
  | array {element : TypeSpec} {item : Encoder} :
      Encodes find member element item → Encodes find member (.array element) (.array item)
  | dictionary {layout : Option Layout} {key value : TypeSpec} {keyEncoder valueEncoder : Encoder} :
      Encodes find member key keyEncoder → Encodes find member value valueEncoder →
      Encodes find member (.dictionary layout key value)
        (.dictionary (layout.getD .document) keyEncoder valueEncoder)
  | reference {className : String} {encoder : Encoder} :
      find className = some encoder → Encodes find member (.reference className) encoder

/-- A mapped member that is as described. -/
structure Realizes (find : String → Option Encoder) (m : MemberSpec) (entry : MemberMap) :
    Prop where
  member : entry.member = m.name
  element : entry.element = m.elementName
  encoder : Encodes find m.name m.type entry.encoder

/-- A model that has the described classes, with the described members in their
order, and no others. -/
structure Model.Declares (model : Model) (d : ModelSpec) : Prop where
  names : model.registry.typeNames = d.names.mergeSort fun a b => decide (a ≤ b)
  classes : ∀ c ∈ d.classes, ∃ encoder,
    model.registry.findByName? c.name = some encoder ∧ encoder.valueType.name = c.name ∧
    Forall₂ (Realizes model.registry.findByName?) c.members (model.maps.members encoder) ∧
    (∀ m ∈ c.members, ∃ entry, model.maps.find? encoder m.name = some entry ∧
      Realizes model.registry.findByName? m entry) ∧
    model.schema.members encoder.valueType
      = (model.maps.members encoder).map fun entry => (entry.member, entry.encoder.valueType)

theorem Encodes.mono {find more : String → Option Encoder}
    (hmore : ∀ name encoder, find name = some encoder → more name = some encoder)
    {member : String} {t : TypeSpec} {encoder : Encoder} (h : Encodes find member t encoder) :
    Encodes more member t encoder := by
  induction h with
  | string => exact .string
  | boolean => exact .boolean
  | double => exact .double
  | integer width storage => exact .integer width storage
  | enumeration name values storage => exact .enumeration name values storage
  | array _ ih => exact .array ih
  | dictionary _ _ ihk ihv => exact .dictionary ihk ihv
  | reference hfind => exact .reference (hmore _ _ hfind)

/-! ### Reading what is spelled -/

namespace Flow

theorem Gives.lookup {node : Flow} {key text : String} (h : node.Gives key (some text)) :
    textUnder? (some node) key = some text := by
  unfold Gives at h
  cases hnode : node.get? key with
  | none => simp [hnode] at h
  | some found => simpa [textUnder?, hnode] using h

theorem Gives.missing {node : Flow} {key : String} (h : node.Gives key none) :
    node.get? key = none := by
  simpa [Gives] using h

theorem Gives.textOr {node : Flow} {key : String} {text : Option String}
    (h : node.Gives key text) (fallback : String) :
    textOr fallback (node.get? key) = text.getD fallback := by
  cases text with
  | none =>
      rw [h.missing]
      rfl
  | some text =>
      have hlookup := h.lookup
      rw [textUnder?, Option.bind_some] at hlookup
      simp [Flow.textOr, hlookup]

/-- Only mappings have anything under a key. -/
theorem Gives.mapping {node : Flow} {key text : String} (h : node.Gives key (some text)) :
    ∃ entries, node = .mapping entries := by
  cases node with
  | mapping entries => exact ⟨entries, rfl⟩
  | null | plain | quoted | sequence => simp [Gives, get?, entries] at h

/-- Types that are no classes and have no parts refer to nothing. -/
theorem Gives.references_eq_nil {node : Flow} {type : String}
    (h : node.Gives "type" (some type))
    (hother : type ≠ "class" ∧ type ≠ "array" ∧ type ≠ "dictionary") :
    node.references = .ok [] := by
  obtain ⟨hclass, harray, hdictionary⟩ := hother
  obtain ⟨entries, rfl⟩ := h.mapping
  obtain ⟨found, hfound, htext⟩ := lookup_of_textUnder? h.lookup
  simp [references, hfound, htext, hclass, harray, hdictionary, pure, Except.pure]

end Flow

namespace Declaration

theorem representationOf_of_gives {node : Flow} {storage : Storage} {number : Representation}
    (h : node.Gives "representation" ((storage.stated? number).map (·.text))) (place : String) :
    representationOf node number place = .ok (storage.representation number) := by
  cases hstated : storage.stated? number with
  | none =>
      rw [hstated] at h
      have hnumber : storage.representation number = number := by
        cases storage with
        | unstated | number => rfl
        | text => cases hstated
      rw [representationOf, h.missing, hnumber]
      rfl
  | some r =>
      rw [hstated] at h
      have hr : storage.representation number = r ∧ (r = number ∨ r = .string) := by
        cases storage with
        | unstated => cases hstated
        | number | text =>
            cases hstated
            simp [Storage.representation]
      obtain ⟨found, hfound, htext⟩ := Option.bind_eq_some_iff.mp h.lookup
      rw [Option.bind_some] at hfound
      simp [representationOf, hfound, Flow.scalarText, htext, Representation.ofText?_text, hr,
        bind, Except.bind, pure, Except.pure]

theorem layoutOf_of_gives {node : Flow} {layout : Option Layout}
    (h : node.Gives "representation" (layout.map (·.text))) (place : String) :
    layoutOf node place = .ok (layout.getD .document) := by
  cases layout with
  | none =>
      rw [layoutOf, h.missing]
      rfl
  | some layout =>
      obtain ⟨found, hfound, htext⟩ := Option.bind_eq_some_iff.mp h.lookup
      rw [Option.bind_some] at hfound
      simp [layoutOf, hfound, Flow.scalarText, htext, Layout.ofText?_text, bind, Except.bind,
        pure, Except.pure]

theorem enumerationOf_of_spelled {node : Flow} {name : Option String} {items : List Flow}
    {values : List String} {storage : Storage} (hname : node.Gives "enum_name" name)
    (hvalues : node.get? "values" = some (.sequence items))
    (hitems : Forall₂ (fun item value => item.scalarText? = some value) items values)
    (hstorage : node.Gives "representation" ((storage.stated? .int32).map (·.text)))
    (member place : String) :
    enumerationOf node member place
      = .ok (.enumeration (name.getD member) values (storage.representation .int32)) := by
  have hnames : namesOf (.sequence items) = .ok values :=
    mapM_eq_ok_iff.mpr (hitems.imp fun _ _ h => Flow.scalarText_eq_ok_iff.mpr h)
  have hencoder : Encoder.enumerationOf (.enumeration (name.getD member) values)
      (storage.representation .int32)
        = .ok (.enumeration (name.getD member) values (storage.representation .int32)) := by
    cases storage <;> rfl
  unfold enumerationOf
  rw [hname.textOr]
  refine bind_eq_ok.mpr ⟨_, Flow.requiredEntry_eq_ok_iff.mpr hvalues, ?_⟩
  refine bind_eq_ok.mpr ⟨_, hnames, ?_⟩
  exact bind_eq_ok.mpr
    ⟨_, representationOf_of_gives hstorage place, mapError_eq_ok.mpr hencoder⟩

/-! The encoder of a node whose type is known. -/

section

variable {classes : DeclaredClasses} {node : Flow} {member place : String}

theorem encoderOf_string (htype : node.Gives "type" (some "string")) :
    encoderOf classes member place node = .ok .string := by
  obtain ⟨entries, rfl⟩ := htype.mapping
  rw [encoderOf, Flow.requiredText_eq_ok_iff]
  exact ⟨_, htype.lookup, rfl⟩

theorem encoderOf_boolean {word : String} (htype : node.Gives "type" (some word))
    (hword : word = "bool" ∨ word = "boolean") :
    encoderOf classes member place node = .ok .boolean := by
  obtain ⟨entries, rfl⟩ := htype.mapping
  rw [encoderOf, Flow.requiredText_eq_ok_iff]
  refine ⟨_, htype.lookup, ?_⟩
  rcases hword with rfl | rfl <;> rfl

theorem encoderOf_double (htype : node.Gives "type" (some "double")) :
    encoderOf classes member place node = .ok .double := by
  obtain ⟨entries, rfl⟩ := htype.mapping
  rw [encoderOf, Flow.requiredText_eq_ok_iff]
  exact ⟨_, htype.lookup, rfl⟩

theorem encoderOf_integer {width : Width} {representation : Representation}
    (htype : node.Gives "type" (some width.word))
    (hrepresentation : representationOf node width.representation place = .ok representation) :
    encoderOf classes member place node = .ok (.integer width representation) := by
  obtain ⟨entries, rfl⟩ := htype.mapping
  rw [encoderOf, Flow.requiredText_eq_ok_iff]
  refine ⟨_, htype.lookup, ?_⟩
  cases width with
  | int32 | int64 => exact bind_eq_ok.mpr ⟨_, hrepresentation, rfl⟩

theorem encoderOf_enumeration {encoder : Encoder} (htype : node.Gives "type" (some "enum"))
    (h : enumerationOf node member place = .ok encoder) :
    encoderOf classes member place node = .ok encoder := by
  obtain ⟨entries, rfl⟩ := htype.mapping
  rw [encoderOf, Flow.requiredText_eq_ok_iff]
  exact ⟨_, htype.lookup, h⟩

theorem encoderOf_array {inner : Flow} {item : Encoder}
    (htype : node.Gives "type" (some "array")) (hinner : node.get? "element" = some inner)
    (hitem : encoderOf classes member (place ++ "[]") inner = .ok item) :
    encoderOf classes member place node = .ok (.array item) := by
  obtain ⟨entries, rfl⟩ := htype.mapping
  rw [encoderOf, Flow.requiredText_eq_ok_iff]
  refine ⟨_, htype.lookup, ?_⟩
  exact bind_eq_ok.mpr ⟨item, encoderUnder_eq_ok_iff.mpr ⟨inner, hinner, hitem⟩, rfl⟩

theorem encoderOf_dictionary {keyNode valueNode : Flow} {layout : Layout} {key value : Encoder}
    (htype : node.Gives "type" (some "dictionary")) (hkeyNode : node.get? "key" = some keyNode)
    (hkey : encoderOf classes member (place ++ ".key") keyNode = .ok key)
    (hvalueNode : node.get? "value" = some valueNode)
    (hvalue : encoderOf classes member (place ++ ".value") valueNode = .ok value)
    (hlayout : layoutOf node place = .ok layout) :
    encoderOf classes member place node = .ok (.dictionary layout key value) := by
  obtain ⟨entries, rfl⟩ := htype.mapping
  rw [encoderOf, Flow.requiredText_eq_ok_iff]
  refine ⟨_, htype.lookup, ?_⟩
  refine bind_eq_ok.mpr ⟨key, encoderUnder_eq_ok_iff.mpr ⟨keyNode, hkeyNode, hkey⟩, ?_⟩
  refine bind_eq_ok.mpr ⟨value, encoderUnder_eq_ok_iff.mpr ⟨valueNode, hvalueNode, hvalue⟩, ?_⟩
  exact bind_eq_ok.mpr ⟨layout, hlayout, rfl⟩

theorem encoderOf_reference {className : String} {encoder : Encoder}
    (htype : node.Gives "type" (some "class")) (hclass : node.Gives "class" (some className))
    (hlookup : classes.lookup className = some encoder) :
    encoderOf classes member place node = .ok encoder := by
  obtain ⟨entries, rfl⟩ := htype.mapping
  rw [encoderOf, Flow.requiredText_eq_ok_iff]
  refine ⟨_, htype.lookup, ?_⟩
  refine Flow.requiredText_eq_ok_iff.mpr ⟨className, hclass.lookup, ?_⟩
  rw [hlookup]
  rfl

end

/-- A type that is spelled has an encoder, as described. -/
theorem encodes_encoderOf {classes : DeclaredClasses} {node : Flow} {t : TypeSpec}
    (h : node.Spells t)
    (hknown : ∀ name ∈ t.references, ∃ encoder, classes.lookup name = some encoder)
    (member place : String) :
    ∃ encoder, encoderOf classes member place node = .ok encoder ∧
      Encodes (fun name => classes.lookup name) member t encoder := by
  induction h generalizing place with
  | string htype => exact ⟨.string, encoderOf_string htype, .string⟩
  | boolean htype hword => exact ⟨.boolean, encoderOf_boolean htype hword, .boolean⟩
  | double htype => exact ⟨.double, encoderOf_double htype, .double⟩
  | integer htype hstorage =>
      have hrepresentation := representationOf_of_gives hstorage place
      exact ⟨_, encoderOf_integer htype hrepresentation, .integer _ _⟩
  | enumeration htype hname hvalues hitems hstorage =>
      have hencoder := enumerationOf_of_spelled hname hvalues hitems hstorage member place
      exact ⟨_, encoderOf_enumeration htype hencoder, .enumeration _ _ _⟩
  | array htype hinner _ ih =>
      obtain ⟨item, hitem, hencodes⟩ := ih hknown (place ++ "[]")
      exact ⟨_, encoderOf_array htype hinner hitem, .array hencodes⟩
  | dictionary htype hkeyNode _ hvalueNode _ hlayout ihk ihv =>
      obtain ⟨key, hkey, hkeyEncodes⟩ := ihk
        (fun name hname => hknown name (List.mem_append_left _ hname)) (place ++ ".key")
      obtain ⟨value, hvalue, hvalueEncodes⟩ := ihv
        (fun name hname => hknown name (List.mem_append_right _ hname)) (place ++ ".value")
      have hlayout := layoutOf_of_gives hlayout place
      exact ⟨_, encoderOf_dictionary htype hkeyNode hkey hvalueNode hvalue hlayout,
        .dictionary hkeyEncodes hvalueEncodes⟩
  | reference htype hclass =>
      obtain ⟨encoder, hlookup⟩ := hknown _ (List.mem_singleton_self _)
      exact ⟨encoder, encoderOf_reference htype hclass hlookup, .reference hlookup⟩

/-- References are collected from a type that is spelled, and only described
ones. -/
theorem references_of_spells {node : Flow} {t : TypeSpec} (h : node.Spells t) :
    ∃ names, node.references = .ok names ∧ names ⊆ t.references := by
  induction h with
  | string htype | double htype | enumeration htype =>
      exact ⟨[], htype.references_eq_nil (by simp), List.nil_subset _⟩
  | boolean htype hword =>
      refine ⟨[], htype.references_eq_nil ?_, List.nil_subset _⟩
      rcases hword with rfl | rfl <;> simp
  | @integer _ width _ htype =>
      refine ⟨[], htype.references_eq_nil ?_, List.nil_subset _⟩
      cases width <;> simp [Width.word]
  | @array node inner element htype hinner _ ih =>
      obtain ⟨entries, rfl⟩ := htype.mapping
      obtain ⟨names, hnames, hsub⟩ := ih
      refine ⟨names, ?_, hsub⟩
      rw [Flow.references_array htype.lookup]
      exact Flow.referencesUnder_eq_ok_iff.mpr ⟨inner, hinner, hnames⟩
  | @dictionary node keyNode valueNode layout key value htype hkey _ hvalue _ _ ihk ihv =>
      obtain ⟨entries, rfl⟩ := htype.mapping
      obtain ⟨keys, hkeys, hkeysub⟩ := ihk
      obtain ⟨values, hvalues, hvaluesub⟩ := ihv
      refine ⟨keys ++ values, ?_, List.append_subset.mpr
        ⟨List.Subset.trans hkeysub (List.subset_append_left _ _),
          List.Subset.trans hvaluesub (List.subset_append_right _ _)⟩⟩
      rw [Flow.references_dictionary htype.lookup]
      refine bind_eq_ok.mpr ⟨keys, Flow.referencesUnder_eq_ok_iff.mpr ⟨keyNode, hkey, hkeys⟩, ?_⟩
      exact bind_eq_ok.mpr
        ⟨values, Flow.referencesUnder_eq_ok_iff.mpr ⟨valueNode, hvalue, hvalues⟩, rfl⟩
  | @reference node className htype hclass =>
      obtain ⟨entries, rfl⟩ := htype.mapping
      exact ⟨_, Flow.references_class htype.lookup hclass.lookup, List.Subset.refl _⟩

theorem exists_forall₂ {α β γ : Type} {R : α → β → Prop} {S : α → γ → Prop} {T : β → γ → Prop}
    {xs : List α} {ys : List β} (h : Forall₂ R xs ys)
    (hstep : ∀ x y, R x y → y ∈ ys → ∃ z, S x z ∧ T y z) :
    ∃ zs, Forall₂ S xs zs ∧ Forall₂ T ys zs := by
  induction h with
  | nil => exact ⟨[], .nil, .nil⟩
  | @cons x y xs ys hxy _ ih =>
      obtain ⟨z, hS, hT⟩ := hstep x y hxy List.mem_cons_self
      obtain ⟨zs, hSs, hTs⟩ := ih fun x y hR hy => hstep x y hR (List.mem_cons_of_mem _ hy)
      exact ⟨z :: zs, .cons hS hSs, .cons hT hTs⟩

theorem map_eq_of_forall₂ {α β γ : Type} {R : α → β → Prop} {f : α → γ} {g : β → γ} {xs : List α}
    {ys : List β} (h : Forall₂ R xs ys) (hfg : ∀ x y, R x y → f x = g y) :
    xs.map f = ys.map g := by
  induction h with
  | nil => rfl
  | cons hxy _ ih => rw [List.map_cons, List.map_cons, hfg _ _ hxy, ih]

/-- A member that is spelled is mapped, as described. -/
theorem realizes_memberOf {classes : DeclaredClasses} {node : Flow} {m : MemberSpec}
    (h : node.SpellsMember m)
    (hknown : ∀ name ∈ m.type.references, ∃ encoder, classes.lookup name = some encoder)
    (className : String) :
    ∃ entry, MemberOf classes className (some node) entry ∧
      Realizes (fun name => classes.lookup name) m entry := by
  obtain ⟨encoder, hencoder, hencodes⟩ :=
    encodes_encoderOf h.type hknown m.name (className ++ "." ++ m.name)
  refine ⟨⟨m.name, m.elementName, encoder⟩, ⟨h.name.lookup, hencoder, ?_⟩, ⟨rfl, rfl, hencodes⟩⟩
  rw [Option.getD_some, h.element.textOr]
  rfl

/-- A class that is spelled is mapped, as described. -/
theorem realizes_defines {classes : DeclaredClasses} {node : Flow} {c : ClassSpec}
    (h : node.SpellsClass c) (hdistinct : (c.members.map (·.name)).Nodup)
    (hknown : ∀ name ∈ c.references, ∃ encoder, classes.lookup name = some encoder) :
    ∃ map, Defines classes (some node) map ∧ map.className = c.name ∧
      Forall₂ (Realizes fun name => classes.lookup name) c.members map.members := by
  obtain ⟨items, hitems, hspelled⟩ := h.members
  have hmembers : membersOf (some node) = items.map some := by
    rw [membersOf, Option.bind_some]
    rcases hitems with hsome | ⟨hnone, rfl⟩
    · rw [hsome]
      rfl
    · rw [hnone]
      rfl
  obtain ⟨entries, hentries, hrealizes⟩ := exists_forall₂ hspelled fun node m hm hmem =>
    realizes_memberOf hm (fun name hname => hknown name (List.mem_flatMap.mpr ⟨m, hmem, hname⟩))
      c.name
  have hnames : c.members.map (·.name) = entries.map (·.member) :=
    map_eq_of_forall₂ hrealizes fun m entry h => h.member.symm
  refine ⟨⟨c.name, entries⟩, ⟨h.name.lookup, ?_, ?_⟩, rfl, hrealizes⟩
  · rw [hmembers, List.forall₂_map_left_iff]
    exact hentries
  · rw [ClassMap.names, ← hnames]
    exact hdistinct

theorem classReferences_of_spells {node : Flow} {c : ClassSpec} (h : node.SpellsClass c) :
    ∃ names, classReferences (some node) = .ok names ∧ names ⊆ c.references := by
  obtain ⟨items, hitems, hspelled⟩ := h.members
  obtain ⟨parts, hparts, hsub⟩ := exists_forall₂ hspelled fun node m hm _ =>
    references_of_spells hm.type
  have hreferences : classReferences (some node) = .ok parts.flatten := by
    rw [classReferences, Option.bind_some]
    rcases hitems with hsome | ⟨hnone, rfl⟩
    · rw [hsome]
      exact bind_eq_ok.mpr ⟨parts, mapM_eq_ok_iff.mpr hparts, rfl⟩
    · rw [hnone]
      cases hparts
      rfl
  refine ⟨parts.flatten, hreferences, fun name hname => ?_⟩
  obtain ⟨part, hpart, hmem⟩ := List.mem_flatten.mp hname
  obtain ⟨m, hm, hown⟩ := exists_of_forall₂_mem hsub hpart
  exact List.mem_flatMap.mpr ⟨m, hm, hown hmem⟩

theorem refers_of_graphOf {d : ModelSpec} {references : List (List String)}
    (hsub : Forall₂ (fun c names => names ⊆ c.references) d.classes references) {a b : String}
    (h : (graphOf d.names references).Refers a b) : d.Refers a b := by
  obtain ⟨referred, hlookup, hb⟩ := h
  have hmem := mem_of_lookup hlookup
  rw [graphOf, ModelSpec.names, List.zip_map] at hmem
  obtain ⟨⟨c, own⟩, hzip, heq⟩ := List.mem_map.mp hmem
  obtain ⟨rfl, rfl⟩ := Prod.mk.inj heq
  exact ⟨c, (List.of_mem_zip hzip).1, rfl, List.forall₂_zip hsub hzip (mem_ordered.mp hb)⟩

/-- Described classes that are spelled can all be mapped, as described. -/
theorem realizes_describes {nodes : List Flow} {d : ModelSpec}
    (h : Forall₂ Flow.SpellsClass nodes d.classes) (hd : d.WellFormed) :
    ∃ maps, Describes (nodes.map some) maps ∧
      Forall₂ (fun c map => map.className = c.name ∧
        Forall₂ (Realizes fun name => (classesOf d.names).lookup name) c.members map.members)
        d.classes maps := by
  have hknown (name : String) (hname : name ∈ d.names) :
      ∃ encoder, (classesOf d.names).lookup name = some encoder := by
    cases hlookup : (classesOf d.names).lookup name with
    | none => exact absurd hname (lookup_classesOf_eq_none.mp hlookup)
    | some encoder => exact ⟨encoder, rfl⟩
  obtain ⟨maps, hdefines, hrealizes⟩ := exists_forall₂ h fun node c hc hmem =>
    realizes_defines hc (hd.members c hmem) fun name hname => hknown name (hd.known c hmem hname)
  obtain ⟨references, hreferences, hsub⟩ := exists_forall₂ h fun node c hc _ =>
    classReferences_of_spells hc
  have hnames : d.names = maps.map ClassMap.className :=
    map_eq_of_forall₂ hrealizes fun c map hmap => hmap.1.symm
  refine ⟨maps, ⟨?_, ⟨references, ?_, ?_⟩, ?_⟩, hrealizes⟩
  · rw [← hnames]
    exact hd.distinct
  · exact List.forall₂_map_left_iff.mpr hreferences
  · rw [← hnames]
    intro name hcycle
    exact hd.acyclic name (hcycle.lift id fun a b => refers_of_graphOf hsub)
  · rw [← hnames]
    exact List.forall₂_map_left_iff.mpr hdefines

/-- The model of maps that are as described declares what is described. -/
theorem declares_ofMaps {descriptions : List (Option Flow)} {d : ModelSpec} {maps : List ClassMap}
    (h : Describes descriptions maps)
    (hrealizes : Forall₂ (fun c map => map.className = c.name ∧
      Forall₂ (Realizes fun name => (classesOf d.names).lookup name) c.members map.members)
      d.classes maps) : (ofMaps maps).Declares d := by
  have hnames : d.names = maps.map ClassMap.className :=
    map_eq_of_forall₂ hrealizes fun c map hmap => hmap.1.symm
  have hfind (name : String) (encoder : Encoder)
      (hlookup : (classesOf d.names).lookup name = some encoder) :
      (ofMaps maps).registry.findByName? name = some encoder := by
    rw [findByName?_ofMaps h.distinct, ← hnames, hlookup]
  refine ⟨?_, fun c hc => ?_⟩
  · rw [Registry.typeNames, hnames, ofMaps, map_name_classesOf]
  · obtain ⟨map, hmem, hname, hmembers⟩ := exists_of_forall₂_mem hrealizes.flip hc
    obtain ⟨place, hmap⟩ := List.mem_iff_getElem?.mp hmem
    have hregistered := mem_registered_iff.mpr ⟨place, map, hmap, rfl⟩
    have hentries : (ofMaps maps).maps.members (encoderAt map.className place) = map.members :=
      members_ofMaps hmap map.className
    have hrealized : Forall₂ (Realizes (ofMaps maps).registry.findByName?) c.members
        map.members :=
      hmembers.imp fun m entry hm => ⟨hm.member, hm.element, hm.encoder.mono hfind⟩
    refine ⟨encoderAt map.className place, ?_, hname, ?_, ?_, ?_⟩
    · rw [← hname]
      exact findByName?_registered h.distinct hregistered
    · rw [hentries]
      exact hrealized
    · intro m hm
      obtain ⟨entry, hentry, hentryOf⟩ := exists_of_forall₂_mem hrealized.flip hm
      refine ⟨entry, ?_, hentryOf⟩
      obtain ⟨node, -, hdefines⟩ := exists_of_forall₂_mem h.defines hmem
      rw [ClassMaps.find?, hentries, ← hentryOf.member]
      exact find?_of_mem hdefines.distinct hentry
    · rw [hentries]
      exact schema_members_ofMaps hmap map.className

end Declaration

/-- A document that describes a well-formed model is loaded, and as described. -/
theorem Configuration.declares_ofText {d : ModelSpec} (hd : d.WellFormed) {reader : Reader}
    {text : String} (h : d.Document reader text) :
    ∃ model, Configuration.ofText reader text = .ok ⟨64, "info", model⟩ ∧ model.Declares d := by
  obtain ⟨root, hroot, hsettings, nodes, hnodes, hspelled⟩ := h
  obtain ⟨maps, hmaps, hrealizes⟩ := Declaration.realizes_describes hspelled hd
  refine ⟨Declaration.ofMaps maps, ?_, Declaration.declares_ofMaps hmaps hrealizes⟩
  have hmodel := Declaration.modelOf_eq_ok_iff.mpr ⟨maps, hmaps, rfl⟩
  have hclasses : (root.get? "classes").toList.flatMap Flow.visited = nodes.map some := by
    simp [hnodes, Flow.visited]
  have hentry (key : String) : Flow.entry (some root) key = .ok (root.get? key) := by
    cases root with
    | plain | quoted => cases hnodes
    | null | sequence | mapping => rfl
  unfold ofText
  rw [hroot]
  refine bind_eq_ok.mpr ⟨none, by rw [hentry, hsettings], ?_⟩
  refine bind_eq_ok.mpr ⟨(64, "info"), rfl, ?_⟩
  refine bind_eq_ok.mpr ⟨_, hentry "classes", ?_⟩
  rw [hclasses]
  exact bind_eq_ok.mpr ⟨_, hmodel, rfl⟩

end QueryFilter
