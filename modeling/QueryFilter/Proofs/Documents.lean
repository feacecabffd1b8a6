import QueryFilter.Proofs.Described
import QueryFilter.Proofs.Written

/-!
Every model that can be described can be written down, so that it is loaded as
it is described.
-/

namespace QueryFilter

open Relation

/-! ### The JSON of a description -/

namespace TypeSpec

/-- A field with a text, if there is one. -/
def stated (key : String) (text : Option String) : List (String × Json) :=
  text.toList.map fun text => (key, .string text)

/-- What a document says of a type. -/
def fields : TypeSpec → List (String × Json)
  | .string => [("type", .string "string")]
  | .boolean => [("type", .string "bool")]
  | .double => [("type", .string "double")]
  | .integer width storage =>
    ("type", .string width.word)
      :: stated "representation" ((storage.stated? width.representation).map (·.text))
  | .enumeration name values storage =>
    [("type", .string "enum"), ("values", .array (values.map .string))] ++ stated "enum_name" name
      ++ stated "representation" ((storage.stated? .int32).map (·.text))
  | .array element => [("type", .string "array"), ("element", .object element.fields)]
  | .dictionary layout key value =>
    [("type", .string "dictionary"), ("key", .object key.fields), ("value", .object value.fields)]
      ++ stated "representation" (layout.map (·.text))
  | .reference className => [("type", .string "class"), ("class", .string className)]

end TypeSpec

def MemberSpec.json (m : MemberSpec) : Json :=
  .object (("name", .string m.name) :: TypeSpec.stated "element_name" m.element ++ m.type.fields)

def ClassSpec.json (c : ClassSpec) : Json :=
  .object [("name", .string c.name), ("members", .array (c.members.map MemberSpec.json))]

def ModelSpec.json (d : ModelSpec) : Json :=
  .object [("classes", .array (d.classes.map ClassSpec.json))]

theorem TypeSpec.textual_stated (key : String) (text : Option String) :
    ∀ field ∈ stated key text, field.2.Textual := by
  cases text <;> simp [stated, Json.Textual]

theorem TypeSpec.textual_fields (t : TypeSpec) : ∀ field ∈ t.fields, field.2.Textual := by
  induction t with
  | string | boolean | double | reference => simp [fields, Json.Textual]
  | integer width storage =>
      have hstated := textual_stated "representation"
        ((storage.stated? width.representation).map (·.text))
      simp only [fields, List.forall_mem_cons]
      exact ⟨trivial, hstated⟩
  | enumeration name values storage =>
      have hname := textual_stated "enum_name" name
      have hstated := textual_stated "representation"
        ((storage.stated? .int32).map (·.text))
      simp only [fields, List.forall_mem_append]
      exact ⟨⟨by simp [Json.Textual], hname⟩, hstated⟩
  | array element ih => simpa [fields, Json.Textual] using ih
  | dictionary layout key value ihk ihv =>
      have hstated := textual_stated "representation" (layout.map (·.text))
      simp only [fields, List.forall_mem_append]
      refine ⟨?_, hstated⟩
      simpa [Json.Textual] using And.intro (Prod.forall.mp ihk) (Prod.forall.mp ihv)

namespace Flow

/-- The keys of a node that say what type it describes. -/
def typeKeys : List String :=
  ["type", "representation", "values", "enum_name", "element", "key", "value", "class"]

theorem Gives.congr {node other : Flow} {key : String} {text : Option String}
    (h : node.Gives key text) (heq : other.get? key = node.get? key) : other.Gives key text := by
  rw [Gives, heq]
  exact h

/-- What type a node describes is said under the keys of types. -/
theorem Spells.congr {node other : Flow} {t : TypeSpec} (h : node.Spells t)
    (heq : ∀ key ∈ typeKeys, other.get? key = node.get? key) : other.Spells t := by
  simp only [typeKeys, List.forall_mem_cons] at heq
  obtain ⟨htype, hrepresentation, hvalues, hname, helement, hkey, hvalue, hclass, -⟩ := heq
  cases h with
  | string h => exact .string (h.congr htype)
  | boolean h hword => exact .boolean (h.congr htype) hword
  | double h => exact .double (h.congr htype)
  | integer h hstated => exact .integer (h.congr htype) (hstated.congr hrepresentation)
  | enumeration h hn hitems hall hstated =>
      exact .enumeration (h.congr htype) (hn.congr hname) (hvalues.trans hitems) hall
        (hstated.congr hrepresentation)
  | array h hinner hs => exact .array (h.congr htype) (helement.trans hinner) hs
  | dictionary h hk hks hv hvs hstated =>
      exact .dictionary (h.congr htype) (hkey.trans hk) hks (hvalue.trans hv) hvs
        (hstated.congr hrepresentation)
  | reference h hc => exact .reference (h.congr htype) (hc.congr hclass)

theorem spells_fields (t : TypeSpec) : Spells (.mapping (Json.flowFields t.fields)) t := by
  induction t with
  | string => exact .string rfl
  | boolean => exact .boolean rfl (.inl rfl)
  | double => exact .double rfl
  | integer width storage =>
      refine .integer rfl ?_
      cases width <;> cases storage <;> rfl
  | enumeration name values storage =>
      refine .enumeration rfl ?_ rfl ?_ ?_
      · cases name <;> cases storage <;> rfl
      · rw [Json.flowItems_eq, List.map_map, List.forall₂_map_left_iff]
        exact List.forall₂_same.mpr fun value _ => rfl
      · cases name <;> cases storage <;> rfl
  | array element ih => exact .array rfl rfl ih
  | dictionary layout key value ihk ihv =>
      refine .dictionary rfl rfl ihk rfl ihv ?_
      cases layout <;> rfl
  | reference className => exact .reference rfl rfl

theorem keys_stated (key : String) (text : Option String) :
    (TypeSpec.stated key text).map (·.1) ⊆ [key] := by
  cases text <;> simp [TypeSpec.stated]

theorem keys_fields (t : TypeSpec) : t.fields.map (·.1) ⊆ typeKeys := by
  have hstated {key : String} (hkey : key ∈ typeKeys) (text : Option String) :
      (TypeSpec.stated key text).map (·.1) ⊆ typeKeys :=
    List.Subset.trans (keys_stated key text) (by simpa using hkey)
  cases t with
  | string | boolean | double | array | reference => simp [TypeSpec.fields, typeKeys]
  | integer width storage =>
      rw [TypeSpec.fields, List.map_cons, List.cons_subset]
      exact ⟨by simp [typeKeys], hstated (by decide) _⟩
  | enumeration name values storage =>
      rw [TypeSpec.fields, List.map_append, List.map_append, List.append_subset,
        List.append_subset]
      exact ⟨⟨by simp [typeKeys], hstated (by decide) _⟩, hstated (by decide) _⟩
  | dictionary layout key value =>
      rw [TypeSpec.fields, List.map_append, List.append_subset]
      exact ⟨by simp [typeKeys], hstated (by decide) _⟩

theorem get?_fields_eq_none (t : TypeSpec) (key : String) (hkey : key ∉ typeKeys) :
    get? (.mapping (Json.flowFields t.fields)) key = none := by
  rw [get?_mapping, List.lookup_eq_none_iff]
  intro entry hentry
  rw [Json.flowFields_eq] at hentry
  obtain ⟨field, hfield, rfl⟩ := List.mem_map.mp hentry
  have hmem := keys_fields t (List.mem_map_of_mem hfield)
  rw [bne_iff_ne]
  rintro rfl
  exact hkey hmem

/-- What a member says of its type is said by its node. -/
theorem get?_member (m : MemberSpec) {key : String} (hname : key ≠ "name")
    (helement : key = "element_name" → m.element = none) :
    m.json.flow.get? key = get? (.mapping (Json.flowFields m.type.fields)) key := by
  have hname' : (key == "name") = false := beq_eq_false_iff_ne.mpr hname
  cases hm : m.element with
  | none => simp [MemberSpec.json, TypeSpec.stated, Json.flow, List.lookup_cons, hm, hname']
  | some element =>
      have helement' : (key == "element_name") = false := by
        rw [beq_eq_false_iff_ne]
        intro hkey
        rw [helement hkey] at hm
        cases hm
      simp [MemberSpec.json, TypeSpec.stated, Json.flow, List.lookup_cons, hm, hname', helement']

theorem spellsMember_json (m : MemberSpec) : m.json.flow.SpellsMember m := by
  refine ⟨rfl, ?_, (spells_fields m.type).congr fun key hkey => get?_member m ?_ ?_⟩
  · cases hm : m.element with
    | none =>
        rw [Gives, get?_member m (by decide) fun _ => hm,
          get?_fields_eq_none m.type "element_name" (by decide)]
        rfl
    | some element =>
        simp [MemberSpec.json, Gives, Json.flow, TypeSpec.stated, List.lookup_cons, hm,
          scalarText?]
  -- the other keys of a member say nothing of its type
  all_goals
    rintro rfl
    exact absurd hkey (by decide)

theorem spellsClass_json (c : ClassSpec) : c.json.flow.SpellsClass c := by
  refine ⟨rfl, c.members.map (·.json.flow), .inl ?_, ?_⟩
  · simp [ClassSpec.json, Json.flow, List.lookup_cons]
  · rw [List.forall₂_map_left_iff]
    exact List.forall₂_same.mpr fun m _ => spellsMember_json m

theorem spellsModel_json (d : ModelSpec) : d.json.flow.SpellsModel d := by
  refine ⟨rfl, d.classes.map (·.json.flow), ?_, ?_⟩
  · simp [ModelSpec.json, Json.flow]
  · rw [List.forall₂_map_left_iff]
    exact List.forall₂_same.mpr fun c _ => spellsClass_json c

end Flow

theorem MemberSpec.textual_json (m : MemberSpec) : m.json.Textual := by
  simp only [json, Json.Textual, Json.fieldsTextual_iff, List.cons_append, List.forall_mem_cons,
    List.forall_mem_append]
  exact ⟨trivial, TypeSpec.textual_stated _ _, m.type.textual_fields⟩

theorem ClassSpec.textual_json (c : ClassSpec) : c.json.Textual := by
  simp [json, Json.Textual, MemberSpec.textual_json]

theorem ModelSpec.textual_json (d : ModelSpec) : d.json.Textual := by
  simp [json, Json.Textual, ClassSpec.textual_json]

namespace ModelSpec

/-- Every description can be written down as JSON. -/
theorem document_dump (d : ModelSpec) : d.Document .json d.json.dump :=
  ⟨d.json.flow, Flow.parse?_dump d.textual_json, Flow.spellsModel_json d⟩

/-- A well-formed description can be written down, and however it is written and
whoever reads it, a model is loaded that is as described. -/
theorem loads {d : ModelSpec} (hd : d.WellFormed) :
    (∃ text, d.Document .json text) ∧ ∀ reader text, d.Document reader text →
      ∃ model, Configuration.ofText reader text = .ok ⟨64, "info", model⟩ ∧ model.Declares d :=
  ⟨⟨_, d.document_dump⟩, fun _ _ htext => Configuration.declares_ofText hd htext⟩

/-- Orders, described before the items in them. -/
def orders : ModelSpec where
  classes := [
    ⟨"Order", [⟨"Items", some "items", .array (.reference "Item")⟩,
      ⟨"Gifts", none, .dictionary (some .arrayOfArrays) (.integer .int64 .text)
        (.array (.reference "Item"))⟩,
      ⟨"State", some "", .enumeration none ["open", "sent"] .text⟩]⟩,
    ⟨"Item", [⟨"Price", none, .double⟩]⟩]

theorem orders_wellFormed : orders.WellFormed where
  distinct := by decide
  members := by decide
  known := by decide
  acyclic := by
    have honly (a b : String) (h : orders.Refers a b) : a = "Order" ∧ b = "Item" := by
      obtain ⟨c, hc, rfl, hb⟩ := h
      revert b
      revert c
      decide
    intro name hcycle
    obtain ⟨_, hfirst, -⟩ := TransGen.head'_iff.mp hcycle
    obtain ⟨_, -, hlast⟩ := TransGen.tail'_iff.mp hcycle
    have horder := (honly _ _ hfirst).1
    have hitem := (honly _ _ hlast).2
    rw [horder] at hitem
    exact absurd hitem (by decide)

/-- Items are known before they are described. -/
theorem loads_orders : orders.WellFormed ∧ ∃ model,
    Configuration.ofText .json orders.json.dump = .ok ⟨64, "info", model⟩ ∧
      model.Declares orders :=
  ⟨orders_wellFormed, (loads orders_wellFormed).2 _ _ orders.document_dump⟩

end ModelSpec

end QueryFilter
