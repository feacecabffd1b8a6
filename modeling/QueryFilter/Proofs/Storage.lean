import Mathlib.Data.List.Forall2
import Mathlib.Data.List.Nodup
import QueryFilter.Encoding.Encode
import QueryFilter.Except
import QueryFilter.Json.Fields
import QueryFilter.Json.Walk

/-!
Where the parts of a native value are stored. Encoding keeps the shape of a
container, so the stored form of a member, an item or an entry is found one
step below the stored form of its container.
-/

namespace QueryFilter

namespace Json

/-! Parts of native values. -/

/-- A member of an object; of two members of one name the last counts. -/
def member? : Json → String → Option Json
  | .object fields, name => Fields.last? fields name
  | _, _ => none

def item? : Json → Nat → Option Json
  | .array items, n => items[n]?
  | _, _ => none

def pair? : Json → Option (Json × Json)
  | .array [key, value] => some (key, value)
  | _ => none

/-- The entries of a dictionary, which is an object or an array of pairs. -/
def entries : Json → List (Json × Json)
  | .object fields => fields.map fun field => (.string field.1, field.2)
  | .array items => items.filterMap pair?
  | _ => []

end Json

namespace ClassMaps

open List

variable {maps : ClassMaps}

/-! Containers and what they are stored as. -/

theorem forall₂_of_encodeItems {e : Encoder} {vs ws : List Json}
    (h : maps.encodeItems e vs = .ok ws) : Forall₂ (maps.encode e · = .ok ·) vs ws := by
  induction vs generalizing ws with
  | nil =>
      cases h
      exact .nil
  | cons v vs ih =>
      obtain ⟨w, hw, h⟩ := bind_eq_ok.mp h
      obtain ⟨ws, hws, ⟨⟩⟩ := bind_eq_ok.mp h
      exact .cons hw (ih hws)

/-- A member and the element that it is stored as. -/
def StoresMember (maps : ClassMaps) (whole : Encoder) (field element : String × Json) : Prop :=
  ∃ entry, maps.find? whole field.1 = some entry ∧ element.1 = entry.element ∧
    maps.encode entry.encoder field.2 = .ok element.2

theorem forall₂_of_encodeMembers {whole : Encoder} {fields elements : List (String × Json)}
    (h : maps.encodeMembers whole fields = .ok elements) :
    Forall₂ (maps.StoresMember whole) fields elements := by
  induction fields generalizing elements with
  | nil =>
      cases h
      exact .nil
  | cons field fields ih =>
      obtain ⟨name, v⟩ := field
      rw [encodeMembers] at h
      split at h
      · rename_i entry hentry
        obtain ⟨w, hw, h⟩ := bind_eq_ok.mp h
        obtain ⟨rest, hrest, ⟨⟩⟩ := bind_eq_ok.mp h
        exact .cons ⟨entry, hentry, rfl, hw⟩ (ih hrest)
      · cases h

/-- An entry of a dictionary and what it is stored as. -/
def StoresEntry (maps : ClassMaps) (layout : Layout) (key value : Encoder)
    (entry stored : Json × Json) : Prop :=
  maps.encode key entry.1 = .ok stored.1 ∧ layout.admitsKey stored.1 = true ∧
    maps.encode value entry.2 = .ok stored.2

theorem forall₂_of_encodeEntries {whole key value : Encoder} {layout : Layout}
    {fields : List (String × Json)} {stored : List (Json × Json)}
    (h : maps.encodeEntries whole layout key value fields = .ok stored) :
    Forall₂ (maps.StoresEntry layout key value) (Json.object fields).entries stored := by
  induction fields generalizing stored with
  | nil =>
      cases h
      exact .nil
  | cons field fields ih =>
      obtain ⟨name, v⟩ := field
      obtain ⟨k, hk, h⟩ := bind_eq_ok.mp h
      obtain ⟨hadmits, h⟩ := guard_eq_ok.mp h
      obtain ⟨w, hw, h⟩ := bind_eq_ok.mp h
      obtain ⟨rest, hrest, ⟨⟩⟩ := bind_eq_ok.mp h
      exact .cons ⟨by rw [encode_string, hk], by simpa using hadmits, hw⟩ (ih hrest)

theorem forall₂_of_encodePairs {whole key value : Encoder} {layout : Layout}
    {items : List Json} {stored : List (Json × Json)}
    (h : maps.encodePairs whole layout key value items = .ok stored) :
    Forall₂ (maps.StoresEntry layout key value) (Json.array items).entries stored := by
  induction items generalizing stored with
  | nil =>
      cases h
      exact .nil
  | cons item items ih =>
      unfold encodePairs at h
      split at h
      · cases ‹_ :: _ = []›
      · rename_i k v rest heq
        cases heq
        obtain ⟨k', hk, h⟩ := bind_eq_ok.mp h
        obtain ⟨hadmits, h⟩ := guard_eq_ok.mp h
        obtain ⟨w, hw, h⟩ := bind_eq_ok.mp h
        obtain ⟨rest, hrest, ⟨⟩⟩ := bind_eq_ok.mp h
        exact .cons ⟨hk, by simpa using hadmits, hw⟩ (ih hrest)
      · cases h

/-! Scalars and what they are stored as. -/

theorem encode_boolean_eq_ok {v w : Json} (h : maps.encode .boolean v = .ok w) :
    ∃ b, v = .bool b ∧ w = .bool b := by
  cases v with
  | bool b =>
      cases h
      exact ⟨b, rfl, rfl⟩
  | null | int | float | string | array | object => cases h

theorem encode_text_eq_ok {v w : Json} (h : maps.encode .string v = .ok w) :
    v = w ∧ (v = .null ∨ ∃ text, v = .string text) := by
  cases v with
  | null =>
      cases h
      exact ⟨rfl, .inl rfl⟩
  | string text =>
      cases h
      exact ⟨rfl, .inr ⟨text, rfl⟩⟩
  | bool | int | float | array | object => cases h

theorem encode_double_eq_ok {v w : Json} (h : maps.encode .double v = .ok w) :
    ∃ x, w = .float x := by
  cases v with
  | int n =>
      cases h
      exact ⟨_, rfl⟩
  | float x =>
      cases h
      exact ⟨x, rfl⟩
  | null | bool | string | array | object => cases h

theorem encode_integer_eq_ok {width : Width} {representation : Representation} {v w : Json}
    (h : maps.encode (.integer width representation) v = .ok w) :
    ∃ n, v = .int n ∧ w = representation.ofInt n := by
  cases v with
  | int n =>
      rw [encode_int, Encoder.encodeScalar, Encoder.encodeInteger] at h
      split at h
      · cases h
      · split at h
        · cases h
        · cases h
          exact ⟨n, rfl, rfl⟩
  | null | bool | float | string | array | object => cases h

theorem contains_of_encode {width : Width} {representation : Representation} {n : Int} {w : Json}
    (h : maps.encode (.integer width representation) (.int n) = .ok w) :
    width.contains n = true := by
  rw [encode_int, Encoder.encodeScalar, Encoder.encodeInteger] at h
  split at h
  · cases h
  · split at h
    · cases h
    · rename_i hfits
      simpa using hfits

theorem encode_enumeration_eq_ok {name : String} {values : List String}
    {representation : Representation} {v w : Json}
    (h : maps.encode (.enumeration name values representation) v = .ok w) :
    ∃ place, Encoder.enumOrdinal? values v = some place ∧
      w = Encoder.encodeEnum values representation place := by
  have hscalar : Encoder.encodeScalar (.enumeration name values representation) v = .ok w := by
    cases v with
    | array | object => cases h
    | null | bool | int | float | string => exact h
  rw [Encoder.encodeScalar] at hscalar
  split at hscalar
  · rename_i place hplace
    cases hscalar
    exact ⟨place, hplace, rfl⟩
  · cases hscalar

theorem encode_array_eq_ok {item : Encoder} {v w : Json}
    (h : maps.encode (.array item) v = .ok w) :
    (v = .null ∧ w = .null) ∨ ∃ vs ws, v = .array vs ∧ w = .array ws ∧
      Forall₂ (maps.encode item · = .ok ·) vs ws := by
  cases v with
  | null =>
      cases h
      exact .inl ⟨rfl, rfl⟩
  | array vs =>
      rw [encode] at h
      obtain ⟨ws, hws, ⟨⟩⟩ := bind_eq_ok.mp h
      exact .inr ⟨vs, ws, rfl, rfl, forall₂_of_encodeItems hws⟩
  | bool | int | float | string | object => cases h

theorem encode_document_eq_ok {className : String} {place : Option Nat} {map : Nat} {v w : Json}
    (h : maps.encode (.document className place map) v = .ok w) :
    (v = .null ∧ w = .null) ∨ ∃ fields elements, v = .object fields ∧ w = .ofPairs elements ∧
      Forall₂ (maps.StoresMember (.document className place map)) fields elements := by
  cases v with
  | null =>
      cases h
      exact .inl ⟨rfl, rfl⟩
  | object fields =>
      rw [encode] at h
      obtain ⟨elements, helements, ⟨⟩⟩ := bind_eq_ok.mp h
      exact .inr ⟨fields, elements, rfl, rfl, forall₂_of_encodeMembers helements⟩
  | bool | int | float | string | array => cases h

theorem encode_dictionary_eq_ok {layout : Layout} {key value : Encoder} {v w : Json}
    (h : maps.encode (.dictionary layout key value) v = .ok w) :
    (v = .null ∧ w = .null) ∨ ∃ stored, w = layout.store stored ∧
      Forall₂ (maps.StoresEntry layout key value) v.entries stored := by
  cases v with
  | null =>
      cases h
      exact .inl ⟨rfl, rfl⟩
  | object fields =>
      rw [encode] at h
      obtain ⟨stored, hstored, ⟨⟩⟩ := bind_eq_ok.mp h
      exact .inr ⟨stored, rfl, forall₂_of_encodeEntries hstored⟩
  | array items =>
      rw [encode] at h
      split at h
      · obtain ⟨stored, hstored, ⟨⟩⟩ := bind_eq_ok.mp h
        exact .inr ⟨stored, rfl, forall₂_of_encodePairs hstored⟩
      · cases h
  | bool | int | float | string => cases h

/-! Parts and where they are stored. -/

theorem rel_find? {α β : Type} {R : α → β → Prop} {xs : List α} {ys : List β}
    (h : Forall₂ R xs ys) {p : α → Bool} {q : β → Bool} (hpq : ∀ x y, R x y → p x = q y) :
    Option.Rel (fun x y => R x y ∧ p x = true) (xs.find? p) (ys.find? q) := by
  induction h with
  | nil => exact .none
  | @cons x y xs ys hxy _ ih =>
      rw [List.find?_cons, List.find?_cons, ← hpq x y hxy]
      cases hp : p x with
      | true => exact .some ⟨hxy, hp⟩
      | false => exact ih

theorem rel_map {α β γ δ : Type} {R : α → β → Prop} {S : γ → δ → Prop} {f : α → γ} {g : β → δ}
    {x : Option α} {y : Option β} (h : Option.Rel R x y) (hfg : ∀ a b, R a b → S (f a) (g b)) :
    Option.Rel S (x.map f) (y.map g) := by
  cases h with
  | none => exact .none
  | some hab => exact .some (hfg _ _ hab)

theorem rel_map_left {α β γ : Type} {R : α → β → Prop} {S : γ → β → Prop} {f : α → γ}
    {x : Option α} {y : Option β} (h : Option.Rel R x y) (hf : ∀ a b, R a b → S (f a) b) :
    Option.Rel S (x.map f) y := by
  cases h with
  | none => exact .none
  | some hab => exact .some (hf _ _ hab)

theorem rel_of_map_left {α β γ : Type} {R : α → β → Prop} {S : γ → β → Prop} {f : α → γ}
    {x : Option α} {y : Option β} (h : Option.Rel S (x.map f) y)
    (hf : ∀ a b, S (f a) b → R a b) : Option.Rel R x y := by
  cases x with
  | none =>
      cases h
      exact .none
  | some a =>
      cases h with
      | some hab => exact .some (hf _ _ hab)

theorem rel_bind {α β γ δ : Type} {R : α → β → Prop} {S : γ → δ → Prop} {x : Option α}
    {y : Option β} {f : α → Option γ} {g : β → Option δ} (h : Option.Rel R x y)
    (hfg : ∀ a b, R a b → Option.Rel S (f a) (g b)) :
    Option.Rel S (x.bind f) (y.bind g) := by
  cases h with
  | none => exact .none
  | some hab => exact hfg _ _ hab

theorem rel_getElem? {α β : Type} {R : α → β → Prop} {xs : List α} {ys : List β}
    (h : Forall₂ R xs ys) (n : Nat) : Option.Rel R xs[n]? ys[n]? := by
  induction h generalizing n with
  | nil => exact .none
  | cons hxy _ ih =>
      cases n with
      | zero => exact .some hxy
      | succ n => exact ih n

/-- An item is stored at its own position. -/
theorem rel_item {item : Encoder} {v w : Json} (h : maps.encode (.array item) v = .ok w)
    (n : Nat) :
    Option.Rel (maps.encode item · = .ok ·) (v.item? n) (w.step? (toString n)) := by
  obtain ⟨rfl, rfl⟩ | ⟨vs, ws, rfl, rfl, hstored⟩ := encode_array_eq_ok h
  · exact .none
  · rw [Json.step?_array]
    exact rel_getElem? hstored n

theorem find?_eq_some {whole : Encoder} {name : String} {entry : MemberMap}
    (h : maps.find? whole name = some entry) : entry ∈ maps.members whole ∧ entry.member = name :=
  ⟨List.mem_of_find?_eq_some h, by simpa using List.find?_some h⟩

/-- Where no element name is used twice, different members have different
elements. -/
theorem element_inj {whole : Encoder} (hdistinct : ((maps.members whole).map (·.element)).Nodup)
    {a b : String} {x y : MemberMap} (hx : maps.find? whole a = some x)
    (hy : maps.find? whole b = some y) : x.element = y.element ↔ a = b := by
  obtain ⟨hxmem, rfl⟩ := find?_eq_some hx
  obtain ⟨hymem, rfl⟩ := find?_eq_some hy
  constructor
  · intro helement
    exact congrArg MemberMap.member (List.inj_on_of_nodup_map hdistinct hxmem hymem helement)
  · intro hmember
    rw [hmember, hy] at hx
    rw [Option.some.inj hx]

/-- A member is stored under the name of its element. -/
theorem rel_member {whole : Encoder} (hdistinct : ((maps.members whole).map (·.element)).Nodup)
    {name : String} {entry : MemberMap} (hentry : maps.find? whole name = some entry)
    {v w : Json} (h : maps.encode whole v = .ok w) :
    Option.Rel (maps.encode entry.encoder · = .ok ·) (v.member? name) (w.step? entry.element) := by
  cases whole with
  | document className place map =>
      obtain ⟨rfl, rfl⟩ | ⟨fields, elements, rfl, rfl, hstored⟩ := encode_document_eq_ok h
      · exact .none
      -- the last member of a name wins on both sides, so both are searched from the end
      rw [Json.ofPairs, Json.step?_object, Fields.get?_ofPairs]
      have hsame : ∀ field element,
          maps.StoresMember (.document className place map) field element →
            (field.1 == name) = (element.1 == entry.element) := by
        intro field element ⟨other, hother, helement, _⟩
        rw [Bool.eq_iff_iff, beq_iff_eq, beq_iff_eq, helement]
        exact (element_inj hdistinct hother hentry).symm
      refine rel_map (rel_find? (forall₂_reverse_iff.mpr hstored) hsame) ?_
      rintro field element ⟨⟨other, hother, _, hvalue⟩, hname⟩
      rw [beq_iff_eq.mp hname, hentry] at hother
      cases hother
      exact hvalue
  | _ => cases hentry

/-- The text that a key is stored as. -/
def keyText? (maps : ClassMaps) (encoder : Encoder) (key : Json) : Option String :=
  match maps.encode encoder key with
  | .ok (.string text) => some text
  | _ => none

/-- The value of the last entry of a dictionary whose key is stored as a text. -/
def entry? (maps : ClassMaps) (encoder : Encoder) (v : Json) (key : String) : Option Json :=
  (v.entries.reverse.find? fun entry => maps.keyText? encoder entry.1 == some key).map (·.2)

/-- The keys of a stored document are the texts of the native keys. -/
theorem forall₂_store_document {key value : Encoder} {entries stored : List (Json × Json)}
    (h : Forall₂ (maps.StoresEntry .document key value) entries stored) :
    Forall₂ (fun entry element => maps.keyText? key entry.1 = some element.1 ∧
        maps.encode value entry.2 = .ok element.2) entries
      (stored.filterMap fun entry => entry.1.string?.map (·, entry.2)) := by
  induction h with
  | nil => exact .nil
  | @cons entry stored entries rest hentry _ ih =>
      obtain ⟨k, w⟩ := stored
      obtain ⟨hkey, hadmits, hvalue⟩ := hentry
      cases k with
      | string text => exact .cons ⟨by rw [keyText?, hkey], hvalue⟩ ih
      | _ => cases hadmits

/-- In a document an entry is stored under its key, and a later entry of the
same key replaces it. -/
theorem rel_entry {key value : Encoder} {v w : Json}
    (h : maps.encode (.dictionary .document key value) v = .ok w) (text : String) :
    Option.Rel (maps.encode value · = .ok ·) (maps.entry? key v text) (w.step? text) := by
  obtain ⟨rfl, rfl⟩ | ⟨stored, rfl, hstored⟩ := encode_dictionary_eq_ok h
  · exact .none
  rw [Layout.store, Json.ofPairs, Json.step?_object, Fields.get?_ofPairs]
  have hfind := rel_find? (p := fun entry => maps.keyText? key entry.1 == some text)
    (q := fun element => element.1 == text)
    (forall₂_reverse_iff.mpr (forall₂_store_document hstored))
    fun entry element hentry => by rw [hentry.1]; rfl
  exact rel_map hfind fun entry element hentry => hentry.1.2

end ClassMaps

end QueryFilter
