import Mathlib.Data.List.Forall2
import Mathlib.Data.List.Nodup
import QueryFilter.Model.Configuration
import QueryFilter.Proofs.Cycles
import QueryFilter.Proofs.Passes

/-!
What the description of a model comes to. It is a model exactly if every class
is named, and named once, no class reaches itself by the references of its
members, and all members are described, each under a name of its own. The model
is then made of the class maps that the members describe.
-/

namespace QueryFilter

open List (Forall₂)

theorem mem_of_lookup {α β : Type} [BEq α] [LawfulBEq α] {entries : List (α × β)} {key : α}
    {value : β} (h : entries.lookup key = some value) : (key, value) ∈ entries := by
  obtain ⟨before, after, rfl, -⟩ := List.lookup_eq_some_iff.mp h
  simp

theorem lookup_of_mem {α β : Type} [BEq α] [LawfulBEq α] {entries : List (α × β)}
    (hnodup : (entries.map Prod.fst).Nodup) {key : α} {value : β}
    (h : (key, value) ∈ entries) : entries.lookup key = some value := by
  induction entries with
  | nil => cases h
  | cons entry entries ih =>
      obtain ⟨other, found⟩ := entry
      rw [List.map_cons, List.nodup_cons] at hnodup
      rcases List.mem_cons.mp h with heq | hmem
      · cases heq
        exact List.lookup_cons_self
      · have hne : key ≠ other := by
          rintro rfl
          exact hnodup.1 (List.mem_map.mpr ⟨(key, value), hmem, rfl⟩)
        rw [List.lookup_cons, beq_false_of_ne hne]
        exact ih hnodup.2 hmem

/-- Where a key is used once it finds what it is the key of. -/
theorem find?_of_mem {α β : Type} [BEq β] [LawfulBEq β] {xs : List α} {key : α → β}
    (hnodup : (xs.map key).Nodup) {x : α} (hx : x ∈ xs) :
    xs.find? (fun y => key y == key x) = some x := by
  cases hfound : xs.find? (fun y => key y == key x) with
  | none => simpa using List.find?_eq_none.mp hfound x hx
  | some y =>
      have hkey : key y = key x := by simpa using List.find?_some hfound
      rw [List.inj_on_of_nodup_map hnodup (List.mem_of_find?_eq_some hfound) hx hkey]

theorem nodup_concat_iff {α : Type} {xs : List α} {x : α} :
    (xs ++ [x]).Nodup ↔ xs.Nodup ∧ x ∉ xs := by
  rw [← List.concat_eq_append, List.nodup_concat, and_comm]

theorem modify_of_getElem? {α : Type} {xs : List α} {place : Nat} {x : α}
    (h : xs[place]? = some x) (f : α → α) : xs.modify place f = xs.set place (f x) := by
  rw [List.modify_eq_set_getElem?, h]
  rfl

/-! ### Nodes -/

namespace Flow

theorem entry_eq_ok_some_iff {node : Option Flow} {key : String} {value : Flow} :
    entry node key = .ok (some value) ↔ node.bind (·.get? key) = some value := by
  cases node with
  | none => exact ⟨nofun, nofun⟩
  | some node =>
      cases node with
      | plain | quoted => exact ⟨nofun, nofun⟩
      | null | sequence | mapping => exact ⟨Except.ok.inj, congrArg Except.ok⟩

theorem requiredEntry_eq_ok_iff {node : Option Flow} {key place : String} {value : Flow} :
    requiredEntry node key place = .ok value ↔ node.bind (·.get? key) = some value := by
  rw [← entry_eq_ok_some_iff, requiredEntry]
  constructor
  · intro h
    obtain ⟨found, hfound, h⟩ := bind_eq_ok.mp h
    cases found with
    | none => cases h
    | some found =>
        cases h
        exact hfound
  · intro h
    rw [h]
    rfl

theorem scalarText_eq_ok_iff {node : Flow} {text : String} :
    node.scalarText = .ok text ↔ node.scalarText? = some text := by
  cases node <;> simp [scalarText, scalarText?]

/-- The text of the scalar under a key. -/
def textUnder? (node : Option Flow) (key : String) : Option String :=
  (node.bind (·.get? key)).bind scalarText?

theorem requiredText_eq_ok_iff {α : Type} {node : Option Flow} {key place : String}
    {next : String → Except ModelError α} {a : α} :
    (requiredEntry node key place >>= fun found => found.scalarText >>= next) = .ok a ↔
      ∃ text, textUnder? node key = some text ∧ next text = .ok a := by
  simp only [bind_eq_ok, requiredEntry_eq_ok_iff, scalarText_eq_ok_iff, textUnder?,
    Option.bind_eq_some_iff]
  constructor
  · rintro ⟨found, hfound, text, htext, h⟩
    exact ⟨text, ⟨found, hfound, htext⟩, h⟩
  · rintro ⟨text, ⟨found, hfound, htext⟩, h⟩
    exact ⟨found, hfound, text, htext, h⟩

theorem entry_of_textUnder? {node : Option Flow} {key text : String}
    (h : textUnder? node key = some text) (other : String) :
    entry node other = .ok (node.bind (·.get? other)) := by
  cases node with
  | none => cases h
  | some node =>
      cases node with
      | plain | quoted => cases h
      | null | sequence | mapping => rfl

end Flow

/-! ### Models out of class maps -/

namespace ClassMap

/-- A class map without members. -/
def empty (className : String) : ClassMap := ⟨className, []⟩

/-- The class that a class map describes, with the types of its encoders. -/
def decl (map : ClassMap) : ClassDecl :=
  ⟨map.className, map.members.map fun entry => (entry.member, entry.encoder.valueType)⟩

def append (map : ClassMap) (entries : List MemberMap) : ClassMap :=
  { map with members := map.members ++ entries }

@[simp] theorem append_nil (map : ClassMap) : map.append [] = map := by simp [append]

@[simp] theorem append_append (map : ClassMap) (entries more : List MemberMap) :
    (map.append entries).append more = map.append (entries ++ more) := by simp [append]

@[simp] theorem className_append (map : ClassMap) (entries : List MemberMap) :
    (map.append entries).className = map.className := rfl

@[simp] theorem members_append (map : ClassMap) (entries : List MemberMap) :
    (map.append entries).members = map.members ++ entries := rfl

/-- The names of the mapped members. -/
def names (map : ClassMap) : List String := map.members.map (·.member)

@[simp] theorem names_append (map : ClassMap) (entries : List MemberMap) :
    (map.append entries).names = map.names ++ entries.map (·.member) := by simp [names]

end ClassMap

namespace Registry

variable {r : Registry}

/-- Types are registered under names of their own. -/
def Distinct (r : Registry) : Prop := (r.encoders.map (·.valueType.name)).Nodup

theorem findByName?_eq_none {name : String} :
    r.findByName? name = none ↔ name ∉ r.encoders.map (·.valueType.name) := by
  simp [findByName?]

theorem findByName?_of_mem (h : r.Distinct) {e : Encoder} (he : e ∈ r.encoders) :
    r.findByName? e.valueType.name = some e := find?_of_mem h he

/-- A type is found by its name, and an encoder of the very type is no other. -/
theorem find?_eq_findByName? (h : r.Distinct) (t : Ty) : r.find? t = r.findByName? t.name := by
  unfold find?
  cases hfound : r.encoders.find? (·.valueType == t) with
  | none => rfl
  | some e =>
      obtain rfl : e.valueType = t := by simpa using List.find?_some hfound
      rw [findByName?_of_mem h (List.mem_of_find?_eq_some hfound)]
      rfl

end Registry

/-- The model of some class maps, before its encoders are registered. -/
def Model.ofMaps (maps : List ClassMap) : Model := ⟨⟨maps.map ClassMap.decl⟩, ⟨maps⟩, .empty⟩

namespace Declaration

/-- The encoder of the class at a place. -/
def encoderAt (name : String) (place : Nat) : Encoder := .document name (some place) place

/-- Classes of some names, each at its place. -/
def classesOf (names : List String) : DeclaredClasses :=
  names.mapIdx fun place name => (name, encoderAt name place)

@[simp] theorem map_fst_classesOf (names : List String) :
    (classesOf names).map Prod.fst = names := by
  apply List.ext_getElem?
  intro place
  simp [classesOf, Function.comp_def]

theorem getElem?_classesOf (names : List String) (place : Nat) :
    (classesOf names)[place]? = names[place]?.map fun name => (name, encoderAt name place) := by
  simp [classesOf]

theorem classesOf_concat (names : List String) (name : String) :
    classesOf (names ++ [name]) = classesOf names ++ [(name, encoderAt name names.length)] :=
  List.mapIdx_concat

theorem lookup_classesOf {names : List String} (hnodup : names.Nodup) {name : String}
    {encoder : Encoder} :
    (classesOf names).lookup name = some encoder ↔
      ∃ place, names[place]? = some name ∧ encoder = encoderAt name place := by
  constructor
  · intro h
    obtain ⟨place, hplace⟩ := List.mem_iff_getElem?.mp (mem_of_lookup h)
    rw [getElem?_classesOf, Option.map_eq_some_iff] at hplace
    obtain ⟨other, hother, heq⟩ := hplace
    obtain ⟨rfl, rfl⟩ := Prod.mk.inj heq
    exact ⟨place, hother, rfl⟩
  · rintro ⟨place, hplace, rfl⟩
    refine lookup_of_mem (by simpa using hnodup) (List.mem_of_getElem? (i := place) ?_)
    rw [getElem?_classesOf, hplace]
    rfl

theorem lookup_place {names : List String} (hnodup : names.Nodup) (place : Nat) (name : String)
    (hplace : names[place]? = some name) :
    (classesOf names).lookup name = some (encoderAt name (([] : List ClassMap).length + place)) :=
  (lookup_classesOf hnodup).mpr ⟨place, hplace, by simp⟩

/-! ### The first pass: classes are declared -/

/-- The state in which the classes of some names have been declared. -/
def declared (names : List String) : DeclaredClasses × Model :=
  (classesOf names, .ofMaps (names.map .empty))

theorem lookup_classesOf_eq_none {names : List String} {name : String} :
    (classesOf names).lookup name = none ↔ name ∉ names := by
  rw [List.lookup_eq_none_iff]
  constructor
  · intro h hmem
    obtain ⟨place, hplace⟩ := List.mem_iff_getElem?.mp hmem
    have hentry : (name, encoderAt name place) ∈ classesOf names := by
      refine List.mem_of_getElem? (i := place) ?_
      rw [getElem?_classesOf, hplace]
      rfl
    simpa using h _ hentry
  · rintro hfresh ⟨other, encoder⟩ hmem
    have hother : other ∈ names := by
      rw [← map_fst_classesOf names]
      exact List.mem_map_of_mem (f := Prod.fst) hmem
    have hne : name ≠ other := fun h => hfresh (h ▸ hother)
    simpa using hne

theorem declare_ofMaps (names : List String) (name : String) :
    (Model.ofMaps (names.map .empty)).schema.declare name =
      ((encoderAt name names.length).valueType,
        (Model.ofMaps ((names ++ [name]).map .empty)).schema) := by
  simp [Model.ofMaps, Schema.declare, ClassMap.decl, ClassMap.empty, encoderAt, Encoder.valueType]

theorem create_ofMaps (names : List String) (name : String) :
    (Model.ofMaps (names.map .empty)).maps.create (encoderAt name names.length).valueType =
      .ok (encoderAt name names.length, (Model.ofMaps ((names ++ [name]).map .empty)).maps) := by
  simp [Model.ofMaps, ClassMaps.create, ClassMap.empty, encoderAt, Encoder.valueType]

theorem declareClass_eq_ok_iff {names : List String} {node : Option Flow}
    {state : DeclaredClasses × Model} :
    declareClass (declared names) node = .ok state ↔
      ∃ name, Flow.textUnder? node "name" = some name ∧ name ∉ names ∧
        state = declared (names ++ [name]) := by
  unfold declareClass
  rw [declared, Flow.requiredText_eq_ok_iff]
  refine exists_congr fun name => and_congr_right fun _ => ?_
  refine guard_eq_ok.trans (and_congr ?_ ?_)
  · rw [← lookup_classesOf_eq_none, Option.not_isSome_iff_eq_none]
  · rw [declare_ofMaps]
    dsimp only
    rw [create_ofMaps, declared, classesOf_concat]
    exact ⟨fun h => (Except.ok.inj h).symm, fun h => congrArg Except.ok h.symm⟩

/-- Classes that are named once each can be declared, and no others. -/
theorem foldlM_declareClass_eq_ok_iff {descriptions : List (Option Flow)} {names : List String}
    (hnodup : names.Nodup) {state : DeclaredClasses × Model} :
    descriptions.foldlM declareClass (declared names) = .ok state ↔
      ∃ more, Forall₂ (fun node name => Flow.textUnder? node "name" = some name)
        descriptions more ∧ (names ++ more).Nodup ∧ state = declared (names ++ more) := by
  induction descriptions generalizing names state with
  | nil =>
      simp only [List.forall₂_nil_left_iff, exists_eq_left, List.append_nil]
      exact ⟨fun h => ⟨hnodup, (Except.ok.inj h).symm⟩, fun h => congrArg Except.ok h.2.symm⟩
  | cons node descriptions ih =>
      rw [List.foldlM_cons, bind_eq_ok]
      simp only [declareClass_eq_ok_iff, List.forall₂_cons_left_iff]
      constructor
      · rintro ⟨_, ⟨name, hname, hfresh, rfl⟩, h⟩
        have hconcat : (names ++ [name]).Nodup := nodup_concat_iff.mpr ⟨hnodup, hfresh⟩
        obtain ⟨more, hmore, hall, rfl⟩ := (ih hconcat).mp h
        rw [List.append_assoc, List.singleton_append] at hall ⊢
        exact ⟨name :: more, ⟨name, more, hname, hmore, rfl⟩, hall, rfl⟩
      · rintro ⟨_, ⟨name, more, hname, hmore, rfl⟩, hall, rfl⟩
        rw [← List.singleton_append, ← List.append_assoc] at hall ⊢
        have hconcat : (names ++ [name]).Nodup := (List.nodup_append.mp hall).1
        exact ⟨_, ⟨name, hname, (nodup_concat_iff.mp hconcat).2, rfl⟩,
          (ih hconcat).mpr ⟨more, hmore, hall, rfl⟩⟩

/-! ### The second pass: members are added -/

/-- The nodes that describe the members of a class. -/
def membersOf (node : Option Flow) : List (Option Flow) :=
  ((node.bind (·.get? "members")).map Flow.visited).getD []

/-- The entry of a class map that a described member comes to. -/
structure MemberOf (classes : DeclaredClasses) (className : String) (node : Option Flow)
    (entry : MemberMap) : Prop where
  named : Flow.textUnder? node "name" = some entry.member
  encoder : encoderOf classes entry.member (className ++ "." ++ entry.member) (node.getD .null)
    = .ok entry.encoder
  element : entry.element =
    if Flow.textOr "" ((node.getD .null).get? "element_name") = "" then entry.member
    else Flow.textOr "" ((node.getD .null).get? "element_name")

theorem members_ofMaps {maps : List ClassMap} {place : Nat} {map : ClassMap}
    (h : maps[place]? = some map) (name : String) :
    (Model.ofMaps maps).maps.members (encoderAt name place) = map.members := by
  simp [Model.ofMaps, ClassMaps.members, encoderAt, h]

theorem addMember_ofMaps {maps : List ClassMap} {place : Nat} {map : ClassMap}
    (h : maps[place]? = some map) (name : String) (entry : MemberMap) :
    (Model.ofMaps maps).schema.addMember (encoderAt name place).valueType entry.member
        entry.encoder.valueType
      = (Model.ofMaps (maps.set place (map.append [entry]))).schema := by
  have hdecl : (maps.map ClassMap.decl)[place]? = some map.decl := by simp [h]
  simp [Model.ofMaps, Schema.addMember, Schema.setMembers, Schema.members, encoderAt,
    Encoder.valueType, hdecl, modify_of_getElem? hdecl, ClassMap.decl, List.map_set]

theorem schema_members_ofMaps {maps : List ClassMap} {place : Nat} {map : ClassMap}
    (h : maps[place]? = some map) (name : String) :
    (Model.ofMaps maps).schema.members (encoderAt name place).valueType = map.decl.members := by
  simp [Model.ofMaps, Schema.members, encoderAt, Encoder.valueType, h]

/-- The static type of a member is the type of its encoder. -/
theorem memberType?_ofMaps {maps : List ClassMap} {place : Nat} {map : ClassMap}
    (h : maps[place]? = some map) (name member : String) :
    (Model.ofMaps maps).schema.memberType? (encoderAt name place).valueType member
      = (map.members.find? (·.member == member)).map (·.encoder.valueType) := by
  have hdecl : (maps.map ClassMap.decl)[place]? = some map.decl := by simp [h]
  have hlookup (entries : List MemberMap) :
      (entries.map fun entry => (entry.member, entry.encoder.valueType)).lookup member
        = (entries.find? (·.member == member)).map (·.encoder.valueType) := by
    induction entries with
    | nil => rfl
    | cons entry entries ih =>
        rw [List.map_cons, List.lookup_cons, List.find?_cons, ih, BEq.comm]
        cases entry.member == member <;> rfl
  simpa [Model.ofMaps, Schema.memberType?, Schema.members, encoderAt, Encoder.valueType, hdecl,
    ClassMap.decl] using hlookup map.members

theorem find?_member_eq_none {map : ClassMap} {member : String} :
    map.members.find? (·.member == member) = none ↔ member ∉ map.names := by
  simp [ClassMap.names]

theorem mapMember_eq_ok_iff {maps : List ClassMap} {place : Nat} {map : ClassMap}
    (h : maps[place]? = some map) (entry : MemberMap) {element : String}
    (helement : entry.element = if element = "" then entry.member else element)
    {result : ClassMaps} :
    (Model.ofMaps maps).maps.mapMember (Model.ofMaps (maps.set place (map.append [entry]))).schema
        (encoderAt map.className place) entry.member (some entry.encoder) element = .ok result ↔
      entry.member ∉ map.names ∧
        result = (Model.ofMaps (maps.set place (map.append [entry]))).maps := by
  have hplace : place < maps.length := (List.getElem?_eq_some_iff.mp h).1
  have hset : (maps.set place (map.append [entry]))[place]? = some (map.append [entry]) := by
    simp [hplace]
  have htype : ((Model.ofMaps (maps.set place (map.append [entry]))).schema.memberType?
      (encoderAt map.className place).valueType entry.member).isNone = false := by
    rw [memberType?_ofMaps hset]
    simp
  have hfind : (Model.ofMaps maps).maps.find? (encoderAt map.className place) entry.member
      = map.members.find? (·.member == entry.member) := by
    rw [ClassMaps.find?, members_ofMaps h]
  have hadd : (Model.ofMaps maps).maps.add place entry
      = (Model.ofMaps (maps.set place (map.append [entry]))).maps := by
    simp [Model.ofMaps, ClassMaps.add, modify_of_getElem? h, ClassMap.append]
  have hcases : (Model.ofMaps maps).maps.mapMember
        (Model.ofMaps (maps.set place (map.append [entry]))).schema
        (encoderAt map.className place) entry.member (some entry.encoder) element
      = if (map.members.find? (·.member == entry.member)).isSome then
          .error (.alreadyMapped entry.member map.className)
        else .ok (Model.ofMaps (maps.set place (map.append [entry]))).maps := by
    rw [← hadd, ← hfind]
    refine (if_neg (ne_true_of_eq_false htype)).trans ?_
    rw [← helement]
  rw [hcases, ← find?_member_eq_none, ← Option.not_isSome_iff_eq_none]
  split
  · rename_i hmapped
    exact ⟨nofun, fun h => absurd hmapped h.1⟩
  · rename_i hfresh
    exact ⟨fun h => ⟨hfresh, (Except.ok.inj h).symm⟩, fun h => congrArg Except.ok h.2.symm⟩

theorem defineMember_eq_ok_iff {classes : DeclaredClasses} {maps : List ClassMap} {place : Nat}
    {map : ClassMap} (h : maps[place]? = some map) {node : Option Flow} {model : Model} :
    defineMember classes map.className (encoderAt map.className place) (.ofMaps maps) node
        = .ok model ↔
      ∃ entry, MemberOf classes map.className node entry ∧ entry.member ∉ map.names ∧
        model = .ofMaps (maps.set place (map.append [entry])) := by
  unfold defineMember
  rw [Flow.requiredText_eq_ok_iff]
  constructor
  · rintro ⟨member, hmember, hrest⟩
    obtain ⟨inner, hinner, hrest⟩ := bind_eq_ok.mp hrest
    dsimp only at hrest
    obtain ⟨result, hresult, ⟨⟩⟩ := bind_eq_ok.mp hrest
    let element := Flow.textOr "" ((node.getD .null).get? "element_name")
    let entry : MemberMap := ⟨member, if element = "" then member else element, inner⟩
    have hschema := addMember_ofMaps h map.className entry
    rw [mapError_eq_ok, hschema] at hresult
    obtain ⟨hfresh, rfl⟩ := (mapMember_eq_ok_iff h entry rfl).mp hresult
    refine ⟨entry, ⟨hmember, hinner, rfl⟩, hfresh, ?_⟩
    rw [hschema]
    rfl
  · rintro ⟨entry, hentry, hfresh, rfl⟩
    refine ⟨entry.member, hentry.named, bind_eq_ok.mpr ⟨entry.encoder, hentry.encoder, ?_⟩⟩
    dsimp only
    rw [addMember_ofMaps h map.className entry]
    have hresult := (mapMember_eq_ok_iff h entry hentry.element).mpr ⟨hfresh, rfl⟩
    exact bind_eq_ok.mpr ⟨_, mapError_eq_ok.mpr hresult, rfl⟩

/-- Members that are described under names of their own are added in order. -/
theorem foldlM_defineMember_eq_ok_iff {classes : DeclaredClasses} {maps : List ClassMap}
    {place : Nat} {map : ClassMap} (h : maps[place]? = some map) (hnodup : map.names.Nodup)
    {nodes : List (Option Flow)} {model : Model} :
    nodes.foldlM (defineMember classes map.className (encoderAt map.className place))
        (.ofMaps maps) = .ok model ↔
      ∃ entries, Forall₂ (MemberOf classes map.className) nodes entries ∧
        (map.append entries).names.Nodup ∧
        model = .ofMaps (maps.set place (map.append entries)) := by
  induction nodes generalizing maps map model with
  | nil =>
      simp only [List.forall₂_nil_left_iff, exists_eq_left, ClassMap.append_nil]
      have hsame : maps.set place map = maps := by
        obtain ⟨hplace, rfl⟩ := List.getElem?_eq_some_iff.mp h
        exact List.set_getElem_self hplace
      rw [hsame]
      exact ⟨fun h => ⟨hnodup, (Except.ok.inj h).symm⟩, fun h => congrArg Except.ok h.2.symm⟩
  | cons node nodes ih =>
      have hplace : place < maps.length := (List.getElem?_eq_some_iff.mp h).1
      have hset (entry : MemberMap) :
          (maps.set place (map.append [entry]))[place]? = some (map.append [entry]) := by
        simp [hplace]
      have hnames (entry : MemberMap) :
          (map.append [entry]).names.Nodup ↔ entry.member ∉ map.names := by
        simp [hnodup, nodup_concat_iff]
      rw [List.foldlM_cons, bind_eq_ok]
      simp only [defineMember_eq_ok_iff h, List.forall₂_cons_left_iff]
      constructor
      · rintro ⟨_, ⟨entry, hentry, hfresh, rfl⟩, hrest⟩
        obtain ⟨entries, hentries, hall, rfl⟩ :=
          (ih (hset entry) ((hnames entry).mpr hfresh)).mp hrest
        rw [ClassMap.append_append, List.singleton_append] at hall
        rw [ClassMap.append_append, List.singleton_append, List.set_set]
        exact ⟨entry :: entries, ⟨entry, entries, hentry, hentries, rfl⟩, hall, rfl⟩
      · rintro ⟨_, ⟨entry, entries, hentry, hentries, rfl⟩, hall, rfl⟩
        rw [← List.singleton_append, ← ClassMap.append_append] at hall ⊢
        have hfirst : (map.append [entry]).names.Nodup := by
          rw [ClassMap.names_append] at hall
          exact (List.nodup_append.mp hall).1
        refine ⟨_, ⟨entry, hentry, (hnames entry).mp hfirst, rfl⟩,
          (ih (hset entry) hfirst).mpr ⟨entries, hentries, hall, ?_⟩⟩
        rw [List.set_set]

/-- What a described class comes to: a map of its name and of all its members,
each under a name of its own. -/
structure Defines (classes : DeclaredClasses) (node : Option Flow) (map : ClassMap) : Prop where
  named : Flow.textUnder? node "name" = some map.className
  members : Forall₂ (MemberOf classes map.className) (membersOf node) map.members
  distinct : map.names.Nodup

theorem defineClass_eq_ok_iff {classes : DeclaredClasses} {maps : List ClassMap} {place : Nat}
    {name : String} {node : Option Flow} (hname : Flow.textUnder? node "name" = some name)
    (hclass : classes.lookup name = some (encoderAt name place))
    (hplace : maps[place]? = some (.empty name)) {model : Model} :
    defineClass classes (.ofMaps maps) node = .ok model ↔
      ∃ map, Defines classes node map ∧ map.className = name ∧
        model = .ofMaps (maps.set place map) := by
  have hfold : defineClass classes (.ofMaps maps) node
      = (membersOf node).foldlM (defineMember classes name (encoderAt name place))
          (.ofMaps maps) := by
    obtain ⟨found, hfound, htext⟩ := Option.bind_eq_some_iff.mp hname
    unfold defineClass
    rw [Flow.requiredEntry_eq_ok_iff.mpr hfound, ok_bind, Flow.scalarText_eq_ok_iff.mpr htext,
      ok_bind, Flow.entry_of_textUnder? hname, ok_bind, hclass, membersOf]
    cases node.bind (·.get? "members") <;> rfl
  rw [hfold]
  refine (foldlM_defineMember_eq_ok_iff hplace List.nodup_nil).trans ⟨?_, ?_⟩
  · rintro ⟨entries, hentries, hdistinct, rfl⟩
    exact ⟨_, ⟨hname, hentries, hdistinct⟩, rfl, rfl⟩
  · rintro ⟨map, hmap, rfl, rfl⟩
    exact ⟨map.members, hmap.members, hmap.distinct, rfl⟩

/-- The classes are defined in the order in which they were declared. -/
theorem foldlM_defineClass_eq_ok_iff {classes : DeclaredClasses} (done : List ClassMap)
    {names : List String} {nodes : List (Option Flow)}
    (hnames : Forall₂ (fun node name => Flow.textUnder? node "name" = some name) nodes names)
    (hclasses : ∀ place name, names[place]? = some name →
      classes.lookup name = some (encoderAt name (done.length + place)))
    {model : Model} :
    nodes.foldlM (defineClass classes) (.ofMaps (done ++ names.map .empty)) = .ok model ↔
      ∃ maps, Forall₂ (Defines classes) nodes maps ∧ maps.map ClassMap.className = names ∧
        model = .ofMaps (done ++ maps) := by
  induction hnames generalizing done model with
  | nil =>
      simp only [List.forall₂_nil_left_iff, List.map_nil, List.append_nil, exists_eq_left]
      exact ⟨fun h => ⟨trivial, (Except.ok.inj h).symm⟩, fun h => congrArg Except.ok h.2.symm⟩
  | @cons node name nodes names hname hnames ih =>
      have hplace : (done ++ (name :: names).map ClassMap.empty)[done.length]?
          = some (.empty name) := by
        simp
      have hset (map : ClassMap) : (done ++ (name :: names).map ClassMap.empty).set done.length map
          = (done ++ [map]) ++ names.map ClassMap.empty := by
        simp
      have hrest (map : ClassMap) : ∀ place other, names[place]? = some other →
          classes.lookup other = some (encoderAt other ((done ++ [map]).length + place)) := by
        intro place other hother
        rw [List.length_append, List.length_singleton, Nat.add_assoc, Nat.add_comm 1]
        exact hclasses (place + 1) other hother
      rw [List.foldlM_cons, bind_eq_ok]
      simp only [defineClass_eq_ok_iff hname (hclasses 0 name rfl) hplace, Nat.add_zero, hset,
        List.forall₂_cons_left_iff]
      constructor
      · rintro ⟨_, ⟨map, hmap, rfl, rfl⟩, h⟩
        obtain ⟨maps, hmaps, rfl, rfl⟩ := (ih _ (hrest map)).mp h
        exact ⟨map :: maps, ⟨map, maps, hmap, hmaps, rfl⟩, rfl, by simp⟩
      · rintro ⟨_, ⟨map, maps, hmap, hmaps, rfl⟩, hnames, rfl⟩
        obtain ⟨rfl, rfl⟩ := List.cons.inj hnames
        exact ⟨_, ⟨map, hmap, rfl, rfl⟩, (ih _ (hrest map)).mpr ⟨maps, hmaps, rfl, by simp⟩⟩

/-! ### Registration -/

@[simp] theorem map_name_classesOf (names : List String) :
    ((classesOf names).map Prod.snd).map (·.valueType.name) = names := by
  apply List.ext_getElem?
  intro place
  simp [classesOf, Function.comp_def, encoderAt, Encoder.valueType, Ty.name]

/-- Encoders of types with names of their own can all be registered. -/
theorem foldlM_register_eq_ok {registry : Registry} {classes : DeclaredClasses}
    (hnodup : ((registry.encoders ++ classes.map Prod.snd).map (·.valueType.name)).Nodup) :
    classes.foldlM (fun registry entry =>
        (registry.register (some entry.2)).mapError ModelError.encoder) registry
      = .ok ⟨registry.encoders ++ classes.map Prod.snd⟩ := by
  induction classes generalizing registry with
  | nil => simp [pure, Except.pure]
  | cons entry classes ih =>
      obtain ⟨name, encoder⟩ := entry
      rw [List.map_cons, List.append_cons] at hnodup ⊢
      have hfresh : registry.findByName? encoder.valueType.name = none := by
        rw [Registry.findByName?_eq_none]
        rw [List.map_append, List.nodup_append] at hnodup
        have hfirst := hnodup.1
        rw [List.map_append, List.map_singleton, nodup_concat_iff] at hfirst
        exact hfirst.2
      have hregister : registry.register (some encoder) = .ok ⟨registry.encoders ++ [encoder]⟩ := by
        simp [Registry.register, hfresh]
      rw [List.foldlM_cons]
      refine bind_eq_ok.mpr ⟨_, mapError_eq_ok.mpr hregister, ?_⟩
      exact ih hnodup

theorem registerAll_eq_ok {names : List String} (hnodup : names.Nodup) {model : Model}
    (hempty : model.registry = .empty) :
    registerAll (classesOf names) model
      = .ok { model with registry := ⟨(classesOf names).map Prod.snd⟩ } := by
  have hnames : ((model.registry.encoders ++ (classesOf names).map Prod.snd).map
      (·.valueType.name)).Nodup := by
    rwa [hempty, Registry.empty, List.nil_append, map_name_classesOf]
  refine bind_eq_ok.mpr ⟨_, foldlM_register_eq_ok hnames, ?_⟩
  rw [hempty]
  rfl

/-- The graph of the references of the classes of some names. -/
def graphOf (names : List String) (references : List (List String)) : ReferenceGraph :=
  names.zip (references.map ReferenceGraph.ordered)

/-- What a list of descriptions comes to: a model of the class maps that they
define, if no class reaches itself by their references. -/
structure Describes (descriptions : List (Option Flow)) (maps : List ClassMap) : Prop where
  distinct : (maps.map ClassMap.className).Nodup
  acyclic : ∃ references, Forall₂ (classReferences · = .ok ·) descriptions references ∧
    (graphOf (maps.map ClassMap.className) references).Acyclic
  defines : Forall₂ (Defines (classesOf (maps.map ClassMap.className))) descriptions maps

/-- The model of some class maps, with the encoders of their classes. -/
def ofMaps (maps : List ClassMap) : Model :=
  { Model.ofMaps maps with
    registry := ⟨(classesOf (maps.map ClassMap.className)).map Prod.snd⟩ }

theorem modelOf_eq_ok_iff {descriptions : List (Option Flow)} {model : Model} :
    modelOf descriptions = .ok model ↔
      ∃ maps, Describes descriptions maps ∧ model = ofMaps maps := by
  unfold modelOf
  simp only [bind_eq_ok, mapM_eq_ok_iff]
  constructor
  · rintro ⟨⟨classes, bare⟩, hdeclare, references, hreferences, ⟨⟩, hacyclic, defined, hdefine,
      hregister⟩
    obtain ⟨names, hnames, hnodup, heq⟩ := (foldlM_declareClass_eq_ok_iff .nil).mp hdeclare
    obtain ⟨rfl, rfl⟩ := Prod.mk.inj heq
    rw [List.nil_append] at *
    rw [map_fst_classesOf, ReferenceGraph.checkAcyclic_eq_ok_iff] at hacyclic
    obtain ⟨maps, hmaps, rfl, rfl⟩ :=
      (foldlM_defineClass_eq_ok_iff [] hnames (lookup_place hnodup)).mp hdefine
    rw [registerAll_eq_ok hnodup rfl] at hregister
    exact ⟨maps, ⟨hnodup, ⟨references, hreferences, hacyclic⟩, hmaps⟩,
      (Except.ok.inj hregister).symm⟩
  · rintro ⟨maps, ⟨hnodup, ⟨references, hreferences, hacyclic⟩, hmaps⟩, rfl⟩
    have hnames : Forall₂ (fun node name => Flow.textUnder? node "name" = some name)
        descriptions (maps.map ClassMap.className) :=
      List.forall₂_map_right_iff.mpr (hmaps.imp fun _ _ h => h.named)
    refine ⟨declared _, (foldlM_declareClass_eq_ok_iff .nil).mpr ⟨_, hnames, hnodup, rfl⟩,
      references, hreferences, (), ?_, Model.ofMaps maps, ?_, registerAll_eq_ok hnodup rfl⟩
    · rw [declared, map_fst_classesOf, ReferenceGraph.checkAcyclic_eq_ok_iff]
      exact hacyclic
    · exact (foldlM_defineClass_eq_ok_iff [] hnames (lookup_place hnodup)).mpr
        ⟨maps, hmaps, rfl, rfl⟩

theorem mem_registered_iff {maps : List ClassMap} {encoder : Encoder} :
    encoder ∈ (ofMaps maps).registry.encoders ↔
      ∃ (place : Nat) (map : ClassMap), maps[place]? = some map ∧
        encoder = encoderAt map.className place := by
  constructor
  · intro h
    obtain ⟨⟨name, _⟩, hmem, rfl⟩ := List.mem_map.mp h
    obtain ⟨place, hplace⟩ := List.mem_iff_getElem?.mp hmem
    rw [getElem?_classesOf, Option.map_eq_some_iff] at hplace
    obtain ⟨_, hname, ⟨⟩⟩ := hplace
    obtain ⟨map, hmap, rfl⟩ : ∃ map, maps[place]? = some map ∧ map.className = name := by
      simpa using hname
    exact ⟨place, map, hmap, rfl⟩
  · rintro ⟨place, map, hmap, rfl⟩
    refine List.mem_map.mpr ⟨(map.className, encoderAt map.className place), ?_, rfl⟩
    refine List.mem_of_getElem? (i := place) ?_
    simp [getElem?_classesOf, hmap]

/-- A registered encoder is found by its type. -/
theorem find?_registered {maps : List ClassMap} {encoder : Encoder}
    (h : encoder ∈ (ofMaps maps).registry.encoders) :
    (ofMaps maps).registry.find? encoder.valueType = some encoder := by
  obtain ⟨place, map, hmap, rfl⟩ := mem_registered_iff.mp h
  have hfind : ((ofMaps maps).registry.encoders.find?
      (·.valueType == (encoderAt map.className place).valueType))
        = some (encoderAt map.className place) := by
    cases hfound : (ofMaps maps).registry.encoders.find?
        (·.valueType == (encoderAt map.className place).valueType) with
    | none => simpa using List.find?_eq_none.mp hfound _ h
    | some other =>
        obtain ⟨_, _, _, rfl⟩ := mem_registered_iff.mp (List.mem_of_find?_eq_some hfound)
        have htype := List.find?_some hfound
        simp [encoderAt, Encoder.valueType] at htype
        simp [htype, encoderAt]
  rw [Registry.find?, hfind, Option.some_or]

theorem distinct_ofMaps {maps : List ClassMap} (hdistinct : (maps.map ClassMap.className).Nodup) :
    (ofMaps maps).registry.Distinct := by
  rw [Registry.Distinct, ofMaps, map_name_classesOf]
  exact hdistinct

/-- A registered encoder is found by the name of its class. -/
theorem findByName?_registered {maps : List ClassMap}
    (hdistinct : (maps.map ClassMap.className).Nodup) {encoder : Encoder}
    (h : encoder ∈ (ofMaps maps).registry.encoders) :
    (ofMaps maps).registry.findByName? encoder.valueType.name = some encoder :=
  Registry.findByName?_of_mem (distinct_ofMaps hdistinct) h

theorem findByName?_ofMaps {maps : List ClassMap}
    (hdistinct : (maps.map ClassMap.className).Nodup) (name : String) :
    (ofMaps maps).registry.findByName? name =
      (classesOf (maps.map ClassMap.className)).lookup name := by
  cases hlookup : (classesOf (maps.map ClassMap.className)).lookup name with
  | none =>
      rw [Registry.findByName?_eq_none, ofMaps, map_name_classesOf]
      exact lookup_classesOf_eq_none.mp hlookup
  | some encoder =>
      obtain ⟨place, hplace, rfl⟩ := (lookup_classesOf hdistinct).mp hlookup
      obtain ⟨map, hmap, rfl⟩ : ∃ map, maps[place]? = some map ∧ map.className = name := by
        simpa using hplace
      exact findByName?_registered hdistinct (mem_registered_iff.mpr ⟨place, map, hmap, rfl⟩)

theorem find?_ofMaps {maps : List ClassMap} (hdistinct : (maps.map ClassMap.className).Nodup)
    (t : Ty) : (ofMaps maps).registry.find? t = (ofMaps maps).registry.findByName? t.name :=
  Registry.find?_eq_findByName? (distinct_ofMaps hdistinct) t

end Declaration

theorem Configuration.modelOf_of_ofText {reader : Reader} {text : String} {config : Configuration}
    (h : ofText reader text = .ok config) :
    ∃ descriptions, Declaration.modelOf descriptions = .ok config.model := by
  unfold ofText at h
  split at h
  · obtain ⟨translation, -, h⟩ := bind_eq_ok.mp h
    obtain ⟨settings, -, h⟩ := bind_eq_ok.mp h
    obtain ⟨classes, -, h⟩ := bind_eq_ok.mp h
    obtain ⟨model, hmodel, ⟨⟩⟩ := bind_eq_ok.mp h
    exact ⟨_, hmodel⟩
  · cases h

/-- The model of a configuration that is accepted is that of some class maps. -/
theorem Configuration.describes_of_ofText {reader : Reader} {text : String}
    {config : Configuration} (h : ofText reader text = .ok config) :
    ∃ descriptions maps, Declaration.Describes descriptions maps ∧
      config.model = Declaration.ofMaps maps := by
  obtain ⟨descriptions, hmodel⟩ := modelOf_of_ofText h
  obtain ⟨maps, hmaps, hmodel⟩ := Declaration.modelOf_eq_ok_iff.mp hmodel
  exact ⟨descriptions, maps, hmaps, hmodel⟩

/-- Its class maps say all of a model. -/
theorem Configuration.model_of_maps {reader : Reader} {text : String} {maps : List ClassMap}
    (h : (fun config : Configuration => config.model.maps.maps) <$> ofText reader text = .ok maps) :
    ∃ config, ofText reader text = .ok config ∧ config.model = Declaration.ofMaps maps := by
  obtain ⟨config, hconfig, rfl⟩ := map_eq_ok.mp h
  obtain ⟨descriptions, maps, -, hmodel⟩ := describes_of_ofText hconfig
  exact ⟨config, hconfig, by rw [hmodel]; rfl⟩

end QueryFilter
