import QueryFilter.Proofs.Rounds

/-!
The three layouts of a dictionary. They carry the same entries: what is refused
by one layout of arrays is refused by the other, and a document differs from
them only in that its keys have to be strings and that the last entry of a key
counts.
-/

namespace QueryFilter

open List (Forall₂)

namespace ClassMaps

variable {maps : ClassMaps} {layout : Layout} {key value : Encoder}

/-- A native entry and the encoded one. -/
def EncodesEntry (maps : ClassMaps) (key value : Encoder) (entry stored : Json × Json) : Prop :=
  maps.encode key entry.1 = .ok stored.1 ∧ maps.encode value entry.2 = .ok stored.2

/-! ### Dictionaries as passes over their entries -/

/-- The encoded entries of a native dictionary for a layout. -/
def encodedEntries (maps : ClassMaps) (layout : Layout) (key value : Encoder) (v : Json) :
    Except EncodeError (List (Json × Json)) :=
  v.entries.mapM (entryWith maps.encode (.dictionary layout key value) layout key value)

theorem encode_dictionary {v : Json} (h : v.isDictionary = true) :
    maps.encode (.dictionary layout key value) v
      = maps.encodedEntries layout key value v >>= fun entries => pure (layout.store entries) := by
  rw [encode_eq_round, round, if_pos h]
  rfl

theorem entryWith_eq_ok_iff {whole : Encoder} {entry stored : Json × Json} :
    entryWith maps.encode whole layout key value entry = .ok stored ↔
      maps.EncodesEntry key value entry stored ∧ layout.admitsKey stored.1 = true := by
  unfold entryWith EncodesEntry
  constructor
  · intro h
    obtain ⟨k, hk, h⟩ := bind_eq_ok.mp h
    obtain ⟨hadmits, h⟩ := guard_eq_ok.mp h
    obtain ⟨w, hw, ⟨⟩⟩ := bind_eq_ok.mp h
    exact ⟨⟨hk, hw⟩, by simpa using hadmits⟩
  · rintro ⟨⟨hk, hw⟩, hadmits⟩
    refine bind_eq_ok.mpr ⟨stored.1, hk, guard_eq_ok.mpr ⟨by simp [hadmits], ?_⟩⟩
    exact bind_eq_ok.mpr ⟨stored.2, hw, rfl⟩

/-- A layout takes the entries whose keys and values are encoded, if it admits
the keys. -/
theorem encodedEntries_eq_ok_iff {v : Json} {entries : List (Json × Json)} :
    maps.encodedEntries layout key value v = .ok entries ↔
      Forall₂ (maps.EncodesEntry key value) v.entries entries ∧
        ∀ entry ∈ entries, layout.admitsKey entry.1 = true := by
  rw [encodedEntries, mapM_eq_ok_iff]
  simp only [entryWith_eq_ok_iff]
  generalize v.entries = natives
  induction natives generalizing entries with
  | nil =>
      rw [List.forall₂_nil_left_iff, List.forall₂_nil_left_iff]
      exact ⟨fun h => ⟨h, by simp [h]⟩, fun h => h.1⟩
  | cons native natives ih =>
      simp only [List.forall₂_cons_left_iff]
      constructor
      · rintro ⟨stored, rest, ⟨hentry, hadmits⟩, hrest, rfl⟩
        obtain ⟨hall, hkeys⟩ := ih.mp hrest
        exact ⟨⟨stored, rest, hentry, hall, rfl⟩, List.forall_mem_cons.mpr ⟨hadmits, hkeys⟩⟩
      · rintro ⟨⟨stored, rest, hentry, hall, rfl⟩, hkeys⟩
        obtain ⟨hadmits, hkeys⟩ := List.forall_mem_cons.mp hkeys
        exact ⟨stored, rest, ⟨hentry, hadmits⟩, ih.mpr ⟨hall, hkeys⟩, rfl⟩

/-- The two layouts of arrays do the same with every entry, and fail alike. -/
theorem encodedEntries_arrays (v : Json) :
    maps.encodedEntries .arrayOfArrays key value v
      = maps.encodedEntries .arrayOfDocuments key value v := rfl

/-- A document takes the entries that an array takes and whose keys are
strings. -/
theorem encodedEntries_document_iff {v : Json} {entries : List (Json × Json)} :
    maps.encodedEntries .document key value v = .ok entries ↔
      maps.encodedEntries .arrayOfDocuments key value v = .ok entries ∧
        ∀ entry ∈ entries, ∃ text, entry.1 = .string text := by
  rw [encodedEntries_eq_ok_iff, encodedEntries_eq_ok_iff]
  have hstring (k : Json) : Layout.document.admitsKey k = true ↔ ∃ text, k = .string text := by
    rw [Layout.admitsKey, Option.isSome_iff_exists]
    simp only [Json.string?_eq_some_iff]
  simp only [hstring]
  exact ⟨fun h => ⟨⟨h.1, fun _ _ => rfl⟩, h.2⟩, fun h => ⟨h.1.1, h.2⟩⟩

/-! ### Stored documents -/

/-- A field of a document as an entry whose key is a string. -/
def textEntry (field : String × Json) : Json × Json := (.string field.1, field.2)

theorem exists_textEntries {entries : List (Json × Json)}
    (h : ∀ entry ∈ entries, ∃ text, entry.1 = .string text) :
    ∃ fields : List (String × Json), entries = fields.map textEntry := by
  induction entries with
  | nil => exact ⟨[], rfl⟩
  | cons entry entries ih =>
      obtain ⟨⟨text, htext⟩, hrest⟩ := List.forall_mem_cons.mp h
      obtain ⟨fields, rfl⟩ := ih hrest
      refine ⟨(text, entry.2) :: fields, ?_⟩
      rw [List.map_cons, textEntry, ← htext]

theorem store_textEntries (fields : List (String × Json)) :
    Layout.document.store (fields.map textEntry) = .ofPairs fields := by
  simp [Layout.store, textEntry, Json.string?, List.filterMap_map, Function.comp_def]

/-- A document that is made of the entries that an array holds. -/
theorem encode_document_iff {v : Json} (hv : v.isDictionary = true) {entries : List (Json × Json)}
    (hentries : maps.encodedEntries .arrayOfDocuments key value v = .ok entries) {d : Json} :
    maps.encode (.dictionary .document key value) v = .ok d ↔
      (∀ entry ∈ entries, ∃ text, entry.1 = .string text) ∧
        d = Layout.document.store entries := by
  simp only [encode_dictionary hv, bind_eq_ok, encodedEntries_document_iff, hentries,
    Except.ok.injEq]
  constructor
  · rintro ⟨_, ⟨rfl, hkeys⟩, ⟨⟩⟩
    exact ⟨hkeys, rfl⟩
  · rintro ⟨hkeys, rfl⟩
    exact ⟨entries, ⟨rfl, hkeys⟩, rfl⟩

/-! ### The layouts side by side -/

theorem encode_dictionary_null (layout : Layout) (key value : Encoder) :
    maps.encode (.dictionary layout key value) .null = .ok .null := rfl

theorem encode_dictionary_mismatch {v : Json} (hv : ¬v.isDictionary = true) (hnull : v ≠ .null) :
    maps.encode (.dictionary layout key value) v
      = (Encoder.dictionary layout key value).mismatch v := by
  cases v with
  | null => exact absurd rfl hnull
  | object fields => exact absurd rfl hv
  | array items =>
      have hpairs : ¬items.all isPair = true := hv
      rw [encode, if_neg hpairs]
  | bool | int | float | string => rfl

/-- Null stays null in every layout. A native dictionary has the same entries in
all of them: an array holds each entry in order, as a document or as a pair, and
a document is written entry by entry, so that the last value of a key counts; it
takes exactly the dictionaries whose keys are all stored as strings. What one
array refuses, the other refuses for the same reason, and the document refuses
it too. -/
theorem layouts_carry_entries (maps : ClassMaps) (key value : Encoder) :
    (∀ layout, maps.encode (.dictionary layout key value) .null = .ok .null) ∧
    ∀ v, v = .null ∨
      (∃ entries, v.isDictionary = true ∧
        Forall₂ (maps.EncodesEntry key value) v.entries entries ∧
        maps.encode (.dictionary .arrayOfDocuments key value) v
          = .ok (.array (entries.map fun entry => .object [("k", entry.1), ("v", entry.2)])) ∧
        maps.encode (.dictionary .arrayOfArrays key value) v
          = .ok (.array (entries.map fun entry => .array [entry.1, entry.2])) ∧
        ((∃ d, maps.encode (.dictionary .document key value) v = .ok d) ↔
          ∀ entry ∈ entries, ∃ text, entry.1 = .string text) ∧
        ∀ d, maps.encode (.dictionary .document key value) v = .ok d →
          ∃ fields : List (String × Json),
            entries = fields.map (fun field => (.string field.1, field.2)) ∧
            d = .object
              (fields.foldl (fun stored field => Fields.insert field.1 field.2 stored) []) ∧
            ∀ text, d.step? text = Fields.last? fields text) ∨
      ∃ error, maps.encode (.dictionary .arrayOfDocuments key value) v = .error error ∧
        maps.encode (.dictionary .arrayOfArrays key value) v = .error error ∧
        ∃ other, maps.encode (.dictionary .document key value) v = .error other := by
  refine ⟨fun layout => encode_dictionary_null layout key value, fun v => ?_⟩
  by_cases hnull : v = .null
  · exact .inl hnull
  refine .inr ?_
  by_cases hv : v.isDictionary = true
  · rw [encode_dictionary hv, encode_dictionary hv, encodedEntries_arrays]
    cases hentries : maps.encodedEntries .arrayOfDocuments key value v with
    | error error =>
        refine .inr ⟨error, rfl, rfl, ?_⟩
        rw [encode_dictionary hv]
        cases hdocument : maps.encodedEntries .document key value v with
        | error other => exact ⟨other, rfl⟩
        | ok entries =>
            have harray := (encodedEntries_document_iff.mp hdocument).1
            cases hentries.symm.trans harray
    | ok entries =>
        have hstored := (encodedEntries_eq_ok_iff.mp hentries).1
        refine .inl ⟨entries, hv, hstored, rfl, rfl, ?_, fun d hd => ?_⟩
        · simp only [encode_document_iff hv hentries, exists_and_left, exists_eq, and_true]
        · obtain ⟨hkeys, rfl⟩ := (encode_document_iff hv hentries).mp hd
          obtain ⟨fields, rfl⟩ := exists_textEntries hkeys
          rw [store_textEntries]
          exact ⟨fields, rfl, rfl, fun text => Fields.get?_ofPairs fields text⟩
  · refine .inr ⟨_, encode_dictionary_mismatch hv hnull, encode_dictionary_mismatch hv hnull, ?_⟩
    exact ⟨_, encode_dictionary_mismatch hv hnull⟩

/-- Two keys of an enumeration that are one key of a document. -/
example :
    let key : Encoder := .enumeration "State" ["open", "sent"] .string
    let v : Json := .array [.array [.int 1, .bool true], .array [.string "sent", .bool false]]
    empty.encode (.dictionary .document key .boolean) v
      = .ok (.object [("sent", .bool false)]) := rfl

end ClassMaps

end QueryFilter
