import QueryFilter.Proofs.Layouts
import QueryFilter.Proofs.Operands

/-!
Shapes of stored values. Encoding comes to an end, with an error or with a
value of the shape that the encoder declares. The shape of a container is that
of its parts, so it is found along the value and not along the encoder, which
may lie inside itself.
-/

namespace QueryFilter.ClassMaps

open List (Forall₂)

/-! ### Shapes -/

mutual

/-- A native value and a stored value of the shape that an encoder declares.
What an item, an entry or a member is stored as has the shape of its own
encoder. -/
inductive Shaped (maps : ClassMaps) : Encoder → Json → Json → Prop where
  | boolean {v : Json} (b : Bool) : Shaped maps .boolean v (.bool b)
  | text {v : Json} (s : String) : Shaped maps .string v (.string s)
  | noText {v : Json} : Shaped maps .string v .null
  | double {v : Json} (x : Binary64) : Shaped maps .double v (.float x)
  | integer {width : Width} {r : Representation} {v : Json} {n : Int} :
      r ≠ .string → r ≠ .double → width.contains n = true →
      Shaped maps (.integer width r) v (.int n)
  | decimal {width : Width} {v : Json} {n : Int} : width.contains n = true →
      Shaped maps (.integer width .string) v (.string (toString n))
  | rounded {width : Width} {v : Json} (x : Binary64) :
      Shaped maps (.integer width .double) v (.float x)
  | place {name : String} {values : List String} {r : Representation} {v : Json} {n : Nat} :
      r ≠ .string → n < values.length → Shaped maps (.enumeration name values r) v (.int n)
  | name {name : String} {values : List String} {v : Json} {s : String} : s ∈ values →
      Shaped maps (.enumeration name values .string) v (.string s)
  | noItems {item : Encoder} : Shaped maps (.array item) .null .null
  | items {item : Encoder} {vs ws : List Json} : vs.length = ws.length →
      (∀ v w, (v, w) ∈ vs.zip ws → Shaped maps item v w) →
      Shaped maps (.array item) (.array vs) (.array ws)
  | noEntries {layout : Layout} {key value : Encoder} :
      Shaped maps (.dictionary layout key value) .null .null
  | fields {key value : Encoder} {v : Json} {fields : List (String × Json)} :
      v.isDictionary = true →
      (∀ field ∈ fields, ShapedEntry maps key value v.entries (.string field.1) field.2) →
      Shaped maps (.dictionary .document key value) v (.object fields)
  | documents {key value : Encoder} {v : Json} {stored : List (Json × Json)} :
      v.isDictionary = true → v.entries.length = stored.length →
      (∀ entry x, (entry, x) ∈ v.entries.zip stored → ShapedEntry maps key value [entry] x.1 x.2) →
      Shaped maps (.dictionary .arrayOfDocuments key value) v
        (.array (stored.map fun x => .object [("k", x.1), ("v", x.2)]))
  | pairs {key value : Encoder} {v : Json} {stored : List (Json × Json)} :
      v.isDictionary = true → v.entries.length = stored.length →
      (∀ entry x, (entry, x) ∈ v.entries.zip stored → ShapedEntry maps key value [entry] x.1 x.2) →
      Shaped maps (.dictionary .arrayOfArrays key value) v
        (.array (stored.map fun x => .array [x.1, x.2]))
  | noElements {className : String} {place : Option Nat} {map : Nat} :
      Shaped maps (.document className place map) .null .null
  | elements {className : String} {place : Option Nat} {map : Nat}
      {fields elements : List (String × Json)} :
      (∀ element ∈ elements, ShapedMember maps (.document className place map) fields element) →
      Shaped maps (.document className place map) (.object fields) (.object elements)

/-- A stored key and a stored value that have the shapes of those of an entry. -/
inductive ShapedEntry (maps : ClassMaps) :
    Encoder → Encoder → List (Json × Json) → Json → Json → Prop where
  | of {key value : Encoder} {entries : List (Json × Json)} {entry : Json × Json} {k w : Json} :
      entry ∈ entries → Shaped maps key entry.1 k → Shaped maps value entry.2 w →
      ShapedEntry maps key value entries k w

/-- An element that a member is mapped to, with a value of the shape of the
member. -/
inductive ShapedMember (maps : ClassMaps) :
    Encoder → List (String × Json) → String × Json → Prop where
  | of {whole : Encoder} {fields : List (String × Json)} {name : String} {v w : Json}
      {entry : MemberMap} :
      (name, v) ∈ fields → maps.find? whole name = some entry → Shaped maps entry.encoder v w →
      ShapedMember maps whole fields (entry.element, w)

end

/-! ### Shapes along the value -/

/-- What is nested less deep than a value is stored in its shape. -/
def PartsShaped (maps : ClassMaps) (v : Json) : Prop :=
  ∀ (e : Encoder) (u w : Json), u.height < v.height → maps.encode e u = .ok w → maps.Shaped e u w

variable {maps : ClassMaps} {v w : Json}

theorem shaped_integer {width : Width} {r : Representation}
    (h : maps.encode (.integer width r) v = .ok w) : maps.Shaped (.integer width r) v w := by
  obtain ⟨n, rfl, rfl⟩ := encode_integer_eq_ok h
  have hn := contains_of_encode h
  cases r with
  | string => exact .decimal hn
  | double => exact .rounded _
  | boolean | int32 | int64 => exact .integer (by decide) (by decide) hn

theorem shaped_enumeration {name : String} {values : List String} {r : Representation}
    (h : maps.encode (.enumeration name values r) v = .ok w) :
    maps.Shaped (.enumeration name values r) v w := by
  obtain ⟨n, hn, rfl⟩ := encode_enumeration_eq_ok h
  have hlt := enumOrdinal?_lt hn
  rw [Encoder.encodeEnum]
  split
  · rename_i hr
    subst hr
    rw [List.getElem?_eq_getElem hlt]
    exact .name (List.getElem_mem hlt)
  · rename_i hr
    exact .place hr hlt

theorem shaped_array {item : Encoder} (hparts : maps.PartsShaped v)
    (h : maps.encode (.array item) v = .ok w) : maps.Shaped (.array item) v w := by
  obtain ⟨rfl, rfl⟩ | ⟨vs, ws, rfl, rfl, hstored⟩ := encode_array_eq_ok h
  · exact .noItems
  · refine .items hstored.length_eq fun u x hmem => ?_
    have hlt := Json.height_lt_of_mem_items (List.of_mem_zip hmem).1
    exact hparts item u x hlt (List.forall₂_zip hstored hmem)

theorem shapedEntry_of_encodesEntry {key value : Encoder} {entries : List (Json × Json)}
    {entry stored : Json × Json} (hparts : maps.PartsShaped v) (hmem : entry ∈ v.entries)
    (hentry : entry ∈ entries) (h : maps.EncodesEntry key value entry stored) :
    maps.ShapedEntry key value entries stored.1 stored.2 := by
  obtain ⟨hkey, hvalue⟩ := Json.height_lt_of_mem_entries hmem
  exact .of hentry (hparts key _ _ hkey h.1) (hparts value _ _ hvalue h.2)

theorem shaped_dictionary {layout : Layout} {key value : Encoder} (hparts : maps.PartsShaped v)
    (h : maps.encode (.dictionary layout key value) v = .ok w) :
    maps.Shaped (.dictionary layout key value) v w := by
  by_cases hnull : v = .null
  · subst hnull
    cases h
    exact .noEntries
  by_cases hv : v.isDictionary = true
  · rw [encode_dictionary hv] at h
    obtain ⟨stored, hstored, ⟨⟩⟩ := bind_eq_ok.mp h
    obtain ⟨hentries, hkeys⟩ := encodedEntries_eq_ok_iff.mp hstored
    have hzip (entry x : Json × Json) (hmem : (entry, x) ∈ v.entries.zip stored) :
        maps.ShapedEntry key value [entry] x.1 x.2 :=
      shapedEntry_of_encodesEntry hparts (List.of_mem_zip hmem).1 (List.mem_singleton_self _)
        (List.forall₂_zip hentries hmem)
    cases layout with
    | arrayOfDocuments => exact .documents hv hentries.length_eq hzip
    | arrayOfArrays => exact .pairs hv hentries.length_eq hzip
    | document =>
        refine .fields hv fun field hfield => ?_
        -- an element of the document is an entry whose key is a string
        obtain ⟨x, hx, hfield⟩ := List.mem_filterMap.mp (Fields.mem_of_mem_ofPairs hfield)
        obtain ⟨text, htext, rfl⟩ := Option.map_eq_some_iff.mp hfield
        obtain ⟨entry, hmem, hentry⟩ := exists_of_forall₂_mem hentries hx
        have hshaped := shapedEntry_of_encodesEntry hparts hmem hmem hentry
        rwa [Json.string?_eq_some_iff.mp htext] at hshaped
  · rw [encode_dictionary_mismatch hv hnull] at h
    cases h

theorem shaped_document {className : String} {place : Option Nat} {map : Nat}
    (hparts : maps.PartsShaped v) (h : maps.encode (.document className place map) v = .ok w) :
    maps.Shaped (.document className place map) v w := by
  obtain ⟨rfl, rfl⟩ | ⟨fields, elements, rfl, rfl, hstored⟩ := encode_document_eq_ok h
  · exact .noElements
  · refine .elements fun element hmem => ?_
    obtain ⟨field, hfield, entry, hentry, hname, hvalue⟩ :=
      exists_of_forall₂_mem hstored (Fields.mem_of_mem_ofPairs hmem)
    have hlt := Json.height_lt_of_mem_fields hfield
    have hmember := ShapedMember.of hfield hentry (hparts _ _ _ hlt hvalue)
    rwa [← hname] at hmember

/-- What is encoded has the shape of its encoder. -/
theorem shaped_of_encode {e : Encoder} (h : maps.encode e v = .ok w) : maps.Shaped e v w := by
  induction hn : v.height using Nat.strongRecOn generalizing e v w with
  | ind n ih =>
      have hparts : maps.PartsShaped v := by
        subst hn
        exact fun e u w hlt hw => ih u.height hlt hw rfl
      cases e with
      | boolean =>
          obtain ⟨b, -, rfl⟩ := encode_boolean_eq_ok h
          exact .boolean b
      | string =>
          obtain ⟨rfl, rfl | ⟨s, rfl⟩⟩ := encode_text_eq_ok h
          · exact .noText
          · exact .text s
      | double =>
          obtain ⟨x, rfl⟩ := encode_double_eq_ok h
          exact .double x
      | integer => exact shaped_integer h
      | enumeration => exact shaped_enumeration h
      | array => exact shaped_array hparts h
      | dictionary => exact shaped_dictionary hparts h
      | document => exact shaped_document hparts h

/-- Encoding needs no more rounds than the value is nested, whatever the class
maps refer to, and ends with an error or with a value of the shape that the
encoder declares. -/
theorem encode_settles (maps : ClassMaps) (e : Encoder) (v : Json) :
    (∀ (start : Coding) (n : Nat), maps.round^[v.height + n + 1] start e v = maps.encode e v) ∧
    ((∃ error, maps.encode e v = .error error) ∨
      ∃ w, maps.encode e v = .ok w ∧ maps.Shaped e v w) := by
  refine ⟨fun start n => iterate_round (by omega) start, ?_⟩
  cases h : maps.encode e v with
  | error error => exact .inl ⟨error, rfl⟩
  | ok w => exact .inr ⟨w, rfl, shaped_of_encode h⟩

/-- A class that contains itself. -/
example :
    let node : Encoder := .document "Node" none 0
    let maps : ClassMaps := ⟨[⟨"Node", [⟨"Next", "next", node⟩]⟩]⟩
    maps.encode node (.object [("Next", .object [("Next", .null)])])
      = .ok (.object [("next", .object [("next", .null)])]) := rfl

end QueryFilter.ClassMaps
