import QueryFilter.Compile.Field
import QueryFilter.Flow.Reader
import QueryFilter.Proofs.Loaded
import QueryFilter.Proofs.Location
import QueryFilter.Proofs.Storage

/-!
The elements of a class. However a class map is filled, it has each member
once; but two members can be mapped to one element. Of an object with both of
them only the later one is then stored, and both are looked for in one field.
-/

namespace QueryFilter

open List (Forall₂)

namespace ClassMaps

/-! ### How class maps are filled -/

/-- Class maps that are made and filled by calls that succeed. -/
inductive Filled : ClassMaps → Prop where
  | empty : Filled .empty
  | create {maps next : ClassMaps} {type : Ty} {e : Encoder} :
      Filled maps → maps.create type = .ok (e, next) → Filled next
  | mapMember {maps next : ClassMaps} {schema : Schema} {e : Encoder} {member : String}
      {encoder : Option Encoder} {element : String} :
      Filled maps → maps.mapMember schema e member encoder element = .ok next → Filled next

variable {maps next : ClassMaps}

theorem mapMember_eq_ok {schema : Schema} {e : Encoder} {member element : String}
    {encoder : Option Encoder} (h : maps.mapMember schema e member encoder element = .ok next) :
    ∃ className place map entry, e = .document className place map ∧
      maps.find? e entry.member = none ∧ next = maps.add map entry := by
  unfold mapMember at h
  split at h
  · split at h
    · cases h
    · split at h
      · cases h
      · split at h
        · cases h
        · cases h
          rename_i hfresh
          exact ⟨_, _, _, _, rfl, Option.not_isSome_iff_eq_none.mp hfresh, rfl⟩
  · cases h

/-- Every map has each of its members once. -/
def MembersOnce (maps : ClassMaps) : Prop :=
  ∀ (place : Nat) (map : ClassMap), maps.maps[place]? = some map → map.names.Nodup

theorem membersOnce_create (h : maps.MembersOnce) {type : Ty} {e : Encoder}
    (hnext : maps.create type = .ok (e, next)) : next.MembersOnce := by
  unfold create at hnext
  split at hnext
  · cases hnext
    intro place map hmap
    rw [List.getElem?_append] at hmap
    split at hmap
    · exact h place map hmap
    · obtain rfl := List.mem_singleton.mp (List.mem_of_getElem? hmap)
      exact List.nodup_nil
  · cases hnext

theorem membersOnce_add (h : maps.MembersOnce) {className : String} {type : Option Nat}
    {place : Nat} {entry : MemberMap}
    (hfresh : maps.find? (.document className type place) entry.member = none) :
    (maps.add place entry).MembersOnce := by
  intro other map hmap
  rw [add, List.getElem?_modify] at hmap
  obtain ⟨old, hold, rfl⟩ := Option.map_eq_some_iff.mp hmap
  split
  · rename_i heq
    subst heq
    have hnew : entry.member ∉ old.names := by
      rw [← Declaration.find?_member_eq_none]
      simpa [find?, members, hold] using hfresh
    have hnames := nodup_concat_iff.mpr ⟨h place old hold, hnew⟩
    simpa [ClassMap.names] using hnames
  · exact h other old hold

theorem Filled.membersOnce (h : maps.Filled) : maps.MembersOnce := by
  induction h with
  | empty => intro _ _ hmap; cases hmap
  | create _ hnext ih => exact membersOnce_create ih hnext
  | mapMember _ hnext ih =>
      obtain ⟨_, _, _, _, rfl, hfresh, rfl⟩ := mapMember_eq_ok hnext
      exact membersOnce_add ih hfresh

theorem Filled.nodup_members (h : maps.Filled) (whole : Encoder) :
    ((maps.members whole).map (·.member)).Nodup := by
  unfold members
  split
  · split
    · exact h.membersOnce _ _ ‹_›
    · exact List.nodup_nil
  · exact List.nodup_nil

end ClassMaps

/-! The class maps of a configuration are filled in the same way. -/

namespace Declaration

open ClassMaps (Filled)

theorem filled_declareClass {state next : DeclaredClasses × Model} {node : Option Flow}
    (hfilled : state.2.maps.Filled) (h : declareClass state node = .ok next) :
    next.2.maps.Filled := by
  obtain ⟨_, -, h⟩ := bind_eq_ok.mp h
  obtain ⟨_, -, h⟩ := bind_eq_ok.mp h
  obtain ⟨-, h⟩ := guard_eq_ok.mp h
  obtain ⟨_, hcreate, ⟨⟩⟩ := bind_eq_ok.mp h
  exact hfilled.create (mapError_eq_ok.mp hcreate)

theorem filled_defineMember {classes : DeclaredClasses} {className : String} {encoder : Encoder}
    {model next : Model} {node : Option Flow} (hfilled : model.maps.Filled)
    (h : defineMember classes className encoder model node = .ok next) : next.maps.Filled := by
  obtain ⟨_, -, h⟩ := bind_eq_ok.mp h
  obtain ⟨_, -, h⟩ := bind_eq_ok.mp h
  obtain ⟨_, -, h⟩ := bind_eq_ok.mp h
  obtain ⟨_, hmap, ⟨⟩⟩ := bind_eq_ok.mp h
  exact hfilled.mapMember (mapError_eq_ok.mp hmap)

theorem filled_defineClass {classes : DeclaredClasses} {model next : Model} {node : Option Flow}
    (hfilled : model.maps.Filled) (h : defineClass classes model node = .ok next) :
    next.maps.Filled := by
  obtain ⟨_, -, h⟩ := bind_eq_ok.mp h
  obtain ⟨_, -, h⟩ := bind_eq_ok.mp h
  obtain ⟨_, -, h⟩ := bind_eq_ok.mp h
  split at h
  · exact foldlM_preserves (P := fun model => model.maps.Filled)
      (fun _ _ _ => filled_defineMember) hfilled h
  · cases h
    exact hfilled

theorem filled_modelOf {descriptions : List (Option Flow)} {model : Model}
    (h : modelOf descriptions = .ok model) : model.maps.Filled := by
  obtain ⟨_, hdeclare, h⟩ := bind_eq_ok.mp h
  obtain ⟨_, -, h⟩ := bind_eq_ok.mp h
  obtain ⟨_, -, h⟩ := bind_eq_ok.mp h
  obtain ⟨_, hdefine, h⟩ := bind_eq_ok.mp h
  obtain ⟨_, -, ⟨⟩⟩ := bind_eq_ok.mp h
  exact foldlM_preserves (P := fun model => model.maps.Filled) (fun _ _ _ => filled_defineClass)
    (foldlM_preserves (P := fun state => state.2.maps.Filled) (fun _ _ _ => filled_declareClass)
      .empty hdeclare) hdefine

end Declaration

theorem Configuration.filled_of_ofText {reader : Reader} {text : String} {config : Configuration}
    (h : ofText reader text = .ok config) : config.model.maps.Filled := by
  obtain ⟨_, hmodel⟩ := modelOf_of_ofText h
  exact Declaration.filled_modelOf hmodel

namespace ClassMaps

/-! ### What is kept of an object -/

variable {maps : ClassMaps}

/-- The element that a member is mapped to. -/
def element? (maps : ClassMaps) (whole : Encoder) (member : String) : Option String :=
  (maps.find? whole member).map (·.element)

/-- No element of a class is that of two members. -/
def Unshared (maps : ClassMaps) (whole : Encoder) : Prop :=
  ((maps.members whole).map (·.element)).Nodup

theorem Unshared.eq {whole : Encoder} (h : maps.Unshared whole) {a b element : String}
    (ha : maps.element? whole a = some element) (hb : maps.element? whole b = some element) :
    a = b := by
  obtain ⟨x, hx, rfl⟩ := Option.map_eq_some_iff.mp ha
  obtain ⟨y, hy, helement⟩ := Option.map_eq_some_iff.mp hb
  exact (element_inj h hx hy).mp helement.symm

theorem Filled.unshared_iff (h : maps.Filled) {whole : Encoder} :
    maps.Unshared whole ↔ ∀ a b element, maps.element? whole a = some element →
      maps.element? whole b = some element → a = b := by
  refine ⟨fun hunshared a b element => hunshared.eq, fun hinj => ?_⟩
  have hnodup := h.nodup_members whole
  refine (List.nodup_map_iff_inj_on (List.Nodup.of_map _ hnodup)).mpr fun x hx y hy helement => ?_
  -- an entry is found by its member, since no other entry has the same member
  have helement? {z : MemberMap} (hz : z ∈ maps.members whole) :
      maps.element? whole z.member = some z.element :=
    Option.map_eq_some_iff.mpr ⟨z, find?_of_mem hnodup hz, rfl⟩
  have hmember := hinj x.member y.member y.element (helement ▸ helement? hx) (helement? hy)
  exact List.inj_on_of_nodup_map hnodup hx hy hmember

theorem map_element?_of_forall₂ {whole : Encoder} {fields elements : List (String × Json)}
    (h : Forall₂ (maps.StoresMember whole) fields elements) :
    (fields.map (·.1)).map (maps.element? whole) = (elements.map (·.1)).map some := by
  induction h with
  | nil => rfl
  | cons hfield _ ih =>
      obtain ⟨entry, hentry, helement, -⟩ := hfield
      simp only [List.map_cons, ih, element?, hentry, helement, Option.map_some]

/-- All members of an object are stored exactly if no two of them have one
element. -/
theorem perm_iff_of_forall₂ {whole : Encoder} {fields elements : List (String × Json)}
    (h : Forall₂ (maps.StoresMember whole) fields elements) (hnodup : (fields.map (·.1)).Nodup) :
    (Fields.ofPairs elements).Perm elements ↔
      ∀ a ∈ fields.map (·.1), ∀ b ∈ fields.map (·.1),
        maps.element? whole a = maps.element? whole b → a = b := by
  rw [Fields.ofPairs_perm_iff, ← List.nodup_map_iff fun _ _ => Option.some.inj,
    ← map_element?_of_forall₂ h]
  exact List.nodup_map_iff_inj_on hnodup

/-- What an object is stored as: its members, encoded one by one, of which the
last of an element is kept. -/
structure StoresObject (maps : ClassMaps) (whole : Encoder) (fields : List (String × Json))
    (stored : Fields) (elements : List (String × Json)) : Prop where
  members : Forall₂ (maps.StoresMember whole) fields elements
  last : ∀ element, stored.get? element = Fields.last? elements element
  all_iff : stored.Perm elements ↔ ∀ a ∈ fields.map (·.1), ∀ b ∈ fields.map (·.1),
    maps.element? whole a = maps.element? whole b → a = b
  all : maps.Unshared whole → stored.Perm elements

theorem storesObject_of_encode {className : String} {place : Option Nat} {map : Nat}
    {fields : List (String × Json)} {w : Json} (hnodup : (fields.map (·.1)).Nodup)
    (h : maps.encode (.document className place map) (.object fields) = .ok w) :
    ∃ stored elements, w = .object stored ∧
      maps.StoresObject (.document className place map) fields stored elements := by
  obtain ⟨⟨⟩, -⟩ | ⟨_, elements, ⟨⟩, rfl, hstored⟩ := encode_document_eq_ok h
  have hperm := perm_iff_of_forall₂ hstored hnodup
  refine ⟨_, elements, rfl, hstored, Fields.get?_ofPairs elements, hperm, fun hunshared => ?_⟩
  refine hperm.mpr fun a ha b _ heq => ?_
  -- what was encoded is mapped, so the two members have an element in common
  have hmem := List.mem_map_of_mem (f := maps.element? (.document className place map)) ha
  rw [map_element?_of_forall₂ hstored] at hmem
  obtain ⟨element, -, helement⟩ := List.mem_map.mp hmem
  exact hunshared.eq helement.symm (heq ▸ helement.symm)

/-- Of two members of one element the first is overwritten. -/
theorem encode_shared {className : String} {place : Option Nat} {map : Nat} {a b : String}
    {x y : MemberMap} {v v' w w' : Json}
    (hx : maps.find? (.document className place map) a = some x)
    (hy : maps.find? (.document className place map) b = some y) (hshared : x.element = y.element)
    (hv : maps.encode x.encoder v = .ok v') (hw : maps.encode y.encoder w = .ok w') :
    maps.encode (.document className place map) (.object [(a, v), (b, w)])
      = .ok (.object [(y.element, w')]) := by
  have hpair : Fields.ofPairs [(x.element, v'), (y.element, w')] = [(y.element, w')] := by
    simp [Fields.ofPairs, Fields.insert, hshared]
  simp only [encode, encodeMembers, hx, hy, hv, hw, ok_bind, pure, Except.pure, Json.ofPairs,
    hpair]

end ClassMaps

namespace Compile

/-- Two members of one container are looked for in one field exactly if they
have one element. -/
theorem path_member_eq_iff {s : Scope} {object : Expr} {a b : String} {t u : Option Ty}
    {container f g : Field} (hcontainer : chain s object = .ok container)
    (hf : chain s (.member object a t) = .ok f) (hg : chain s (.member object b u) = .ok g) :
    f.path = g.path ↔ s.model.maps.element? container.encoder a
      = s.model.maps.element? container.encoder b := by
  obtain ⟨_, x, hleft, hx, rfl⟩ := chain_member_eq_ok hf
  obtain ⟨_, y, hright, hy, rfl⟩ := chain_member_eq_ok hg
  cases hcontainer.symm.trans hleft
  cases hcontainer.symm.trans hright
  simp [Field.child, Path.child, ClassMaps.element?, hx, hy]

end Compile

/-- Class maps that are filled, by hand or by the loader, have each member
once. All the members of an object are stored exactly if no two of them have
one element; of two that do the last is stored, and they are looked for in one
field. -/
theorem ClassMaps.elements_of_filled {maps : ClassMaps}
    (h : maps.Filled ∨ ∃ reader text config, Configuration.ofText reader text = .ok config ∧
      config.model.maps = maps)
    (className : String) (place : Option Nat) (map : Nat) :
    let whole := Encoder.document className place map
    ((maps.members whole).map (·.member)).Nodup ∧
    (maps.Unshared whole ↔ ∀ a b element, maps.element? whole a = some element →
      maps.element? whole b = some element → a = b) ∧
    (∀ fields w, (fields.map (·.1)).Nodup → maps.encode whole (.object fields) = .ok w →
      ∃ stored elements, w = .object stored ∧ maps.StoresObject whole fields stored elements) ∧
    (∀ a b x y v v' w w', maps.find? whole a = some x → maps.find? whole b = some y →
      x.element = y.element → maps.encode x.encoder v = .ok v' →
      maps.encode y.encoder w = .ok w' →
        maps.encode whole (.object [(a, v), (b, w)]) = .ok (.object [(y.element, w')])) ∧
    ∀ s object container a b t u f g, s.model.maps = maps → container.encoder = whole →
      Compile.chain s object = .ok container →
      Compile.chain s (.member object a t) = .ok f →
      Compile.chain s (.member object b u) = .ok g →
        (f.path = g.path ↔ maps.element? whole a = maps.element? whole b) := by
  have hfilled : maps.Filled := by
    rcases h with h | ⟨reader, text, config, hconfig, rfl⟩
    · exact h
    · exact Configuration.filled_of_ofText hconfig
  refine ⟨hfilled.nodup_members _, hfilled.unshared_iff, fun _ _ => storesObject_of_encode,
    fun _ _ _ _ _ _ _ _ => encode_shared, ?_⟩
  intro s object container a b t u f g hmaps hwhole hcontainer hf hg
  rw [← hwhole, ← hmaps]
  exact Compile.path_member_eq_iff hcontainer hf hg

/-! ### A class of which one member is stored under the name of another -/

namespace Items

def text : String :=
  "\x7b\"classes\": [\x7b\"name\": \"Item\", \"members\": ["
    ++ "\x7b\"name\": \"Name\", \"type\": \"string\", \"element_name\": \"Sku\"\x7d, "
    ++ "\x7b\"name\": \"Sku\", \"type\": \"string\"\x7d, "
    ++ "\x7b\"name\": \"Note\", \"type\": \"string\"\x7d]\x7d]\x7d"

def root : Encoder := .document "Item" (some 0) 0

def maps : ClassMaps :=
  ⟨[⟨"Item", [⟨"Name", "Sku", .string⟩, ⟨"Sku", "Sku", .string⟩, ⟨"Note", "Note", .string⟩]⟩]⟩

def model : Model := Declaration.ofMaps maps.maps

def scope : Scope := .document model 64 "x" root 0

/-- A member of the item. -/
def member (name : String) : Expr :=
  .member (.param "x" root.valueType) name (some .string)

theorem loaded : ∃ config, Configuration.ofText .json text = .ok config ∧ config.model = model :=
  Configuration.model_of_maps (by decide +kernel)

/-- A name and a note are both kept, a name and a number are not. -/
theorem elements_of_filled_items :
    ∃ config, Configuration.ofText .json text = .ok config ∧ config.model.maps = maps ∧
      ((maps.members root).map (·.member)).Nodup ∧
      (∃ stored elements,
        maps.encode root (.object [("Name", .string "a"), ("Note", .string "b")])
          = .ok (.object stored) ∧
        maps.StoresObject root [("Name", .string "a"), ("Note", .string "b")] stored elements ∧
        stored.Perm elements) ∧
      maps.encode root (.object [("Name", .string "a"), ("Sku", .string "b")])
        = .ok (.object [("Sku", .string "b")]) ∧
      ∃ f g, Compile.chain scope (member "Name") = .ok f ∧
        Compile.chain scope (member "Sku") = .ok g ∧ f.path = g.path := by
  obtain ⟨config, hconfig, hmodel⟩ := loaded
  have hmaps : config.model.maps = maps := congrArg Model.maps hmodel
  obtain ⟨honce, -, hkept, hshared, hpath⟩ :=
    ClassMaps.elements_of_filled (.inr ⟨.json, text, config, hconfig, hmaps⟩) "Item" (some 0) 0
  refine ⟨config, hconfig, hmaps, honce, ?_, ?_, ⟨⟨["Sku"]⟩, .string⟩, ⟨⟨["Sku"]⟩, .string⟩, rfl,
    rfl, ?_⟩
  · obtain ⟨stored, elements, heq, hstores⟩ :=
      hkept [("Name", .string "a"), ("Note", .string "b")] _ (by decide) rfl
    refine ⟨stored, elements, congrArg Except.ok heq, hstores, hstores.all_iff.mpr ?_⟩
    decide
  · exact hshared "Name" "Sku" ⟨"Name", "Sku", .string⟩ ⟨"Sku", "Sku", .string⟩ _ _ _ _ rfl rfl
      rfl rfl rfl
  · exact (hpath scope (.param "x" root.valueType) ⟨.root, root⟩ "Name" "Sku" (some .string)
      (some .string) _ _ rfl rfl rfl rfl rfl).mpr rfl

/-- By hand and by the loader alike, a member can be mapped to the element that
the name of another stands for. Then the name is lost, and is looked for where
the number is. -/
theorem name_overwritten :
    (∃ config, Configuration.ofText .json text = .ok config ∧ config.model.maps = maps) ∧
    (∃ bare named numbered,
      ClassMaps.empty.create root.valueType = .ok (root, bare) ∧
      bare.mapMember model.schema root "Name" (some .string) "Sku" = .ok named ∧
      named.mapMember model.schema root "Sku" (some .string) "" = .ok numbered ∧
      numbered.mapMember model.schema root "Note" (some .string) "" = .ok maps) ∧
    maps.encode root (.object [("Name", .string "a"), ("Sku", .string "b")])
      = .ok (.object [("Sku", .string "b")]) ∧
    Compile.field scope (member "Name") = Compile.field scope (member "Sku") := by
  refine ⟨?_, ⟨_, _, _, rfl, rfl, rfl, rfl⟩, rfl, rfl⟩
  obtain ⟨config, hconfig, hmodel⟩ := loaded
  exact ⟨config, hconfig, congrArg Model.maps hmodel⟩

end Items

end QueryFilter
