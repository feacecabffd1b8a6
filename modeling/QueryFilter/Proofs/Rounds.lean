import Mathlib.Logic.Function.Iterate
import QueryFilter.Proofs.Passes
import QueryFilter.Proofs.Storage

/-!
Encoding, round by round. A round encodes one value and leaves the encoding of
its parts open. The parts lie inside the value, whatever the encoder, so the
rounds come to an end with the value, also where class maps refer to
themselves.
-/

namespace QueryFilter

namespace Json

/-! ### How deep a value is nested -/

mutual

/-- How many containers lie inside each other. -/
def height : Json → Nat
  | .array items => itemsHeight items + 1
  | .object fields => fieldsHeight fields + 1
  | .null | .bool _ | .int _ | .float _ | .string _ => 0

def itemsHeight : List Json → Nat
  | [] => 0
  | item :: items => max item.height (itemsHeight items)

def fieldsHeight : List (String × Json) → Nat
  | [] => 0
  | (_, value) :: fields => max value.height (fieldsHeight fields)

end

theorem height_le_itemsHeight {item : Json} {items : List Json} (h : item ∈ items) :
    item.height ≤ itemsHeight items := by
  induction items with
  | nil => cases h
  | cons first items ih =>
      rw [itemsHeight]
      rcases List.mem_cons.mp h with rfl | hrest
      · exact Nat.le_max_left ..
      · exact Nat.le_trans (ih hrest) (Nat.le_max_right ..)

theorem height_le_fieldsHeight {field : String × Json} {fields : List (String × Json)}
    (h : field ∈ fields) : field.2.height ≤ fieldsHeight fields := by
  induction fields with
  | nil => cases h
  | cons first fields ih =>
      rw [fieldsHeight]
      rcases List.mem_cons.mp h with rfl | hrest
      · exact Nat.le_max_left ..
      · exact Nat.le_trans (ih hrest) (Nat.le_max_right ..)

theorem height_lt_of_mem_items {item : Json} {items : List Json} (h : item ∈ items) :
    item.height < (Json.array items).height := by
  rw [height]
  exact Nat.lt_succ_of_le (height_le_itemsHeight h)

theorem height_lt_of_mem_fields {field : String × Json} {fields : List (String × Json)}
    (h : field ∈ fields) : field.2.height < (Json.object fields).height := by
  rw [height]
  exact Nat.lt_succ_of_le (height_le_fieldsHeight h)

theorem pair?_eq_some {v : Json} {entry : Json × Json} (h : v.pair? = some entry) :
    v = .array [entry.1, entry.2] := by
  unfold pair? at h
  split at h
  · cases h
    rfl
  · cases h

/-- The keys and the values of a native dictionary lie inside it. -/
theorem height_lt_of_mem_entries {v : Json} {entry : Json × Json} (h : entry ∈ v.entries) :
    entry.1.height < v.height ∧ entry.2.height < v.height := by
  cases v with
  | object fields =>
      obtain ⟨field, hfield, rfl⟩ := List.mem_map.mp h
      have hvalue := height_lt_of_mem_fields hfield
      exact ⟨Nat.lt_of_le_of_lt (Nat.zero_le _) hvalue, hvalue⟩
  | array items =>
      obtain ⟨pair, hpair, hentry⟩ := List.mem_filterMap.mp h
      obtain rfl := pair?_eq_some hentry
      have houter := height_lt_of_mem_items hpair
      have hkey := height_lt_of_mem_items (List.mem_cons_self (a := entry.1) (l := [entry.2]))
      have hvalue : entry.2.height < (Json.array [entry.1, entry.2]).height :=
        height_lt_of_mem_items (List.mem_cons_of_mem _ (List.mem_singleton_self _))
      exact ⟨Nat.lt_trans hkey houter, Nat.lt_trans hvalue houter⟩
  | null | bool | int | float | string => cases h

/-- An object or an array of pairs. -/
def isDictionary : Json → Bool
  | .object _ => true
  | .array items => items.all ClassMaps.isPair
  | _ => false

end Json

namespace ClassMaps

/-! ### One round -/

/-- How the parts of a value are encoded. -/
abbrev Coding := Encoder → Json → Except EncodeError Json

/-- An entry of a dictionary: its key, then its value. -/
def entryWith (parts : Coding) (whole : Encoder) (layout : Layout) (key value : Encoder)
    (entry : Json × Json) : Except EncodeError (Json × Json) := do
  let k ← parts key entry.1
  if !layout.admitsKey k then throw (.textKeys whole.kind)
  let v ← parts value entry.2
  pure (k, v)

/-- A member of an object of a class, as its element. -/
def memberWith (maps : ClassMaps) (parts : Coding) (whole : Encoder) (field : String × Json) :
    Except EncodeError (String × Json) :=
  match maps.find? whole field.1 with
  | some entry => do
    let v ← parts entry.encoder field.2
    pure (entry.element, v)
  | none => throw (.unknownMember whole.kind field.1)

/-- The encoding of one value, given that of its parts. -/
def round (maps : ClassMaps) (parts : Coding) (e : Encoder) (v : Json) :
    Except EncodeError Json :=
  match e, v with
  | .array item, .array items => do
    let items ← items.mapM (parts item)
    pure (.array items)
  | .dictionary layout key value, v =>
    if v.isDictionary then do
      let entries ← v.entries.mapM (entryWith parts e layout key value)
      pure (layout.store entries)
    else e.encodeScalar v
  | .document .., .object fields => do
    let elements ← fields.mapM (maps.memberWith parts e)
    pure (.ofPairs elements)
  | e, v => e.encodeScalar v

variable {maps : ClassMaps}

theorem encodeItems_eq_mapM (e : Encoder) (vs : List Json) :
    maps.encodeItems e vs = vs.mapM (maps.encode e) := by
  induction vs with
  | nil => rfl
  | cons v vs ih =>
      rw [encodeItems, List.mapM_cons, ih]

theorem encodeMembers_eq_mapM (whole : Encoder) (fields : List (String × Json)) :
    maps.encodeMembers whole fields = fields.mapM (maps.memberWith maps.encode whole) := by
  induction fields with
  | nil => rfl
  | cons field fields ih =>
      rw [encodeMembers, List.mapM_cons, ih, memberWith]
      cases maps.find? whole field.1 with
      | none => rfl
      | some entry =>
          dsimp only
          cases maps.encode entry.encoder field.2 <;> rfl

/-- The order of the steps of one entry does not depend on the rest. -/
theorem entryWith_bind {α : Type} (parts : Coding) (whole : Encoder) (layout : Layout)
    (key value : Encoder) (entry : Json × Json) (next : Json × Json → Except EncodeError α) :
    entryWith parts whole layout key value entry >>= next = (do
      let k ← parts key entry.1
      if !layout.admitsKey k then throw (.textKeys whole.kind)
      let v ← parts value entry.2
      next (k, v)) := by
  unfold entryWith
  cases parts key entry.1 with
  | error => rfl
  | ok k =>
      cases hk : layout.admitsKey k with
      | false => simp only [ok_bind, hk]; rfl
      | true =>
          simp only [ok_bind, hk]
          cases parts value entry.2 <;> rfl

theorem encodeEntries_eq_mapM (whole : Encoder) (layout : Layout) (key value : Encoder)
    (fields : List (String × Json)) :
    maps.encodeEntries whole layout key value fields
      = (Json.object fields).entries.mapM (entryWith maps.encode whole layout key value) := by
  induction fields with
  | nil => rfl
  | cons field fields ih =>
      have hentries : (Json.object (field :: fields)).entries
          = (.string field.1, field.2) :: (Json.object fields).entries := rfl
      rw [hentries, List.mapM_cons, entryWith_bind, ← ih, encode_string]
      rfl

theorem encodePairs_eq_mapM (whole : Encoder) (layout : Layout) (key value : Encoder)
    {items : List Json} (h : items.all isPair = true) :
    maps.encodePairs whole layout key value items
      = (Json.array items).entries.mapM (entryWith maps.encode whole layout key value) := by
  induction items with
  | nil => rfl
  | cons item items ih =>
      obtain ⟨hitem, hitems⟩ := Bool.and_eq_true_iff.mp h
      unfold isPair at hitem
      split at hitem
      · rename_i k v
        have hentries : (Json.array (.array [k, v] :: items)).entries
            = (k, v) :: (Json.array items).entries := rfl
        rw [hentries, List.mapM_cons, entryWith_bind, ← ih hitems]
        rfl
      · cases hitem

/-- Encoding is a round whose parts are encoded. -/
theorem encode_eq_round (e : Encoder) (v : Json) :
    maps.encode e v = maps.round maps.encode e v := by
  cases v with
  | array items =>
      cases e with
      | array item =>
          rw [encode, encodeItems_eq_mapM]
          rfl
      | dictionary layout key value =>
          rw [encode, round, Json.isDictionary]
          split
          · rename_i hpairs
            rw [encodePairs_eq_mapM _ _ _ _ hpairs]
          · rfl
      | boolean | string | double | integer | enumeration | document =>
          rw [encode]
          · rfl
          all_goals simp
  | object fields =>
      cases e with
      | dictionary layout key value =>
          rw [encode, encodeEntries_eq_mapM]
          rfl
      | document =>
          rw [encode, encodeMembers_eq_mapM]
          rfl
      | boolean | string | double | integer | enumeration | array =>
          rw [encode]
          · rfl
          all_goals simp
  | null | bool | int | float | string => cases e <;> rfl

/-! ### All rounds -/

theorem entryWith_congr {parts other : Coding} {whole : Encoder} {layout : Layout}
    {key value : Encoder} {entry : Json × Json} (hkey : parts key entry.1 = other key entry.1)
    (hvalue : parts value entry.2 = other value entry.2) :
    entryWith parts whole layout key value entry
      = entryWith other whole layout key value entry := by
  rw [entryWith, entryWith, hkey, hvalue]

theorem memberWith_congr {parts other : Coding} {whole : Encoder} {field : String × Json}
    (h : ∀ part, parts part field.2 = other part field.2) :
    maps.memberWith parts whole field = maps.memberWith other whole field := by
  unfold memberWith
  split
  · rw [h]
  · rfl

/-- A round only encodes parts that are nested less deep. -/
theorem round_congr {parts other : Coding} {e : Encoder} {v : Json}
    (h : ∀ part w, w.height < v.height → parts part w = other part w) :
    maps.round parts e v = maps.round other e v := by
  unfold round
  split
  · rename_i item items
    rw [mapM_congr fun w hw => h item w (Json.height_lt_of_mem_items hw)]
  · rename_i layout key value
    rw [mapM_congr fun entry hentry => entryWith_congr
      (h key entry.1 (Json.height_lt_of_mem_entries hentry).1)
      (h value entry.2 (Json.height_lt_of_mem_entries hentry).2)]
  · rename_i fields
    rw [mapM_congr fun field hfield => memberWith_congr fun part =>
      h part field.2 (Json.height_lt_of_mem_fields hfield)]
  · rfl

/-- After as many rounds as a value is nested its encoding is settled, whatever
stands for the encoding of deeper parts. -/
theorem iterate_round {n : Nat} {e : Encoder} {v : Json} (h : v.height < n) (start : Coding) :
    maps.round^[n] start e v = maps.encode e v := by
  induction n generalizing e v with
  | zero => exact absurd h (Nat.not_lt_zero _)
  | succ n ih =>
      rw [Function.iterate_succ_apply', encode_eq_round]
      exact round_congr fun part w hw => ih (by omega)

end ClassMaps

end QueryFilter
