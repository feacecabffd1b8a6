import Mathlib.Data.List.Basic
import Mathlib.Data.List.Nodup
import Mathlib.Data.List.Perm.Subperm
import Mathlib.Logic.Relation
import QueryFilter.Encoding.Default
import QueryFilter.Proofs.Loaded

/-!
Encoders by default. What stands in the way of one is found by a walk over the
type that does not enter a class it is inside of; it finds nothing exactly if
no class that is met contains itself or has two members of one name, and no
function is met. The encoder is then made, after the pattern of the type, with
a new class map for each class; otherwise the first obstacle is the error.
-/

namespace QueryFilter

open Relation

/-- The place of a class in the schema. -/
def Ty.place? : Ty → Option Nat
  | .cls _ place => place
  | _ => none

namespace Schema

/-- The types that a type is made of. -/
def parts (schema : Schema) : Ty → List Ty
  | .array element => [element]
  | .dictionary key value => [key, value]
  | .cls name place => (schema.members (.cls name place)).map (·.2)
  | _ => []

def Contains (schema : Schema) (t u : Ty) : Prop := u ∈ schema.parts t

/-- A type is met somewhere inside another, or is that type. -/
abbrev Reaches (schema : Schema) : Ty → Ty → Prop := ReflTransGen schema.Contains

/-- One class lies at each place: class types met in a type that have the same
place are the same type. -/
def Placed (schema : Schema) (t : Ty) : Prop :=
  ∀ name other place, schema.Reaches t (.cls name (some place)) →
    schema.Reaches t (.cls other (some place)) → name = other

variable {schema : Schema} {name : String} {place : Option Nat}

theorem contains_element (element : Ty) : schema.Contains (.array element) element :=
  List.mem_singleton_self _

theorem contains_key (key value : Ty) : schema.Contains (.dictionary key value) key :=
  List.mem_cons_self

theorem contains_value (key value : Ty) : schema.Contains (.dictionary key value) value :=
  List.mem_cons_of_mem _ (List.mem_singleton_self _)

theorem contains_member {member : String × Ty}
    (h : member ∈ schema.members (.cls name place)) :
    schema.Contains (.cls name place) member.2 := List.mem_map_of_mem h

/-- Only a declared class has members. -/
theorem place_of_members_ne_nil (h : schema.members (.cls name place) ≠ []) :
    ∃ declared, place = some declared ∧ declared < schema.classes.length := by
  cases place with
  | none => exact absurd rfl h
  | some declared =>
      refine ⟨declared, rfl, ?_⟩
      by_contra hout
      have hnone := List.getElem?_eq_none (Nat.le_of_not_lt hout)
      simp [members, hnone] at h

end Schema

namespace Encoder

/-! ### What stands in the way -/

/-- The order in which the parts of a dictionary are walked. -/
inductive DictionaryOrder where
  | keyFirst | valueFirst

def DictionaryOrder.join {α : Type} : DictionaryOrder → List α → List α → List α
  | .keyFirst, ofKey, ofValue => ofKey ++ ofValue
  | .valueFirst, ofKey, ofValue => ofValue ++ ofKey

/-- Obstacles among the members of a class, given those that are `met` in the
type of each: a member that has the name of an `earlier` one is an obstacle,
after those in its type. -/
def inMembers (className : String) (met : Ty → List DefaultError) :
    List String → List (String × Ty) → List DefaultError
  | _, [] => []
  | earlier, member :: rest =>
    met member.2
      ++ (if member.1 ∈ earlier then [.mapping (.alreadyMapped member.1 className)] else [])
      ++ inMembers className met (earlier ++ [member.1]) rest

/-- The obstacles in a type, in the order in which a walk meets them that is
inside the classes on `path`. -/
inductive Obstacles (schema : Schema) (order : DictionaryOrder) :
    List Ty → Ty → List DefaultError → Prop where
  | scalar {path : List Ty} {t : Ty} : t.isScalar = true → Obstacles schema order path t []
  | function {path : List Ty} {parameter result : Ty} :
      Obstacles schema order path (.function parameter result)
        [.unsupported (Ty.function parameter result).name]
  | array {path : List Ty} {element : Ty} {obstacles : List DefaultError} :
      Obstacles schema order path element obstacles →
      Obstacles schema order path (.array element) obstacles
  | dictionary {path : List Ty} {key value : Ty} {ofKey ofValue : List DefaultError} :
      Obstacles schema order path key ofKey → Obstacles schema order path value ofValue →
      Obstacles schema order path (.dictionary key value) (order.join ofKey ofValue)
  | again {path : List Ty} {name : String} {place : Option Nat} :
      .cls name place ∈ path → Obstacles schema order path (.cls name place) [.recursive name]
  | enter {path : List Ty} {name : String} {place : Option Nat} {met : Ty → List DefaultError} :
      .cls name place ∉ path →
      (∀ member ∈ schema.members (.cls name place),
        Obstacles schema order (.cls name place :: path) member.2 (met member.2)) →
      Obstacles schema order path (.cls name place)
        (inMembers name met [] (schema.members (.cls name place)))

variable {schema : Schema} {order : DictionaryOrder} {path : List Ty} {root t : Ty}
  {obstacles : List DefaultError}

theorem DictionaryOrder.join_eq_nil_iff {ofKey ofValue : List DefaultError} :
    order.join ofKey ofValue = [] ↔ ofKey = [] ∧ ofValue = [] := by
  cases order with
  | keyFirst => exact List.append_eq_nil_iff
  | valueFirst => exact List.append_eq_nil_iff.trans And.comm

theorem inMembers_eq_nil_iff {className : String} {met : Ty → List DefaultError}
    {earlier : List String} {members : List (String × Ty)} :
    inMembers className met earlier members = [] ↔
      (∀ member ∈ members, met member.2 = []) ∧ (∀ member ∈ members, member.1 ∉ earlier) ∧
        (members.map (·.1)).Nodup := by
  induction members generalizing earlier with
  | nil => simp [inMembers]
  | cons member rest ih =>
      simp only [inMembers, List.append_eq_nil_iff, ih, ite_eq_right_iff, List.cons_ne_nil,
        imp_false, List.mem_append, List.mem_singleton, not_or, List.forall_mem_cons,
        List.map_cons, List.nodup_cons, List.mem_map, not_exists, not_and]
      constructor
      · rintro ⟨⟨hmet, hnew⟩, hrest, hfresh, hnodup⟩
        exact ⟨⟨hmet, hrest⟩, ⟨hnew, fun other hother => (hfresh other hother).1⟩,
          fun other hother => (hfresh other hother).2, hnodup⟩
      · rintro ⟨⟨hmet, hrest⟩, ⟨hnew, hfresh⟩, hother, hnodup⟩
        exact ⟨⟨hmet, hnew⟩, hrest, fun other h => ⟨hfresh other h, hother other h⟩, hnodup⟩

/-! ### When there are none -/

/-- What a type may be that is met inside the classes on `path`. -/
def Harmless (schema : Schema) (path : List Ty) : Ty → Prop
  | .function .. => False
  | .cls name place => .cls name place ∉ path ∧
      ((schema.members (.cls name place)).map (·.1)).Nodup ∧
      ¬ TransGen schema.Contains (.cls name place) (.cls name place)
  | _ => True

/-- A walk that has come to `t` through the classes on its path meets nothing
if all that is inside is harmless: a class that is met again is a cycle. -/
theorem Obstacles.eq_nil (h : Obstacles schema order path t obstacles)
    (hpath : ∀ c ∈ path, TransGen schema.Contains c t)
    (hharmless : ∀ u, schema.Reaches t u → Harmless schema [] u) : obstacles = [] := by
  induction h with
  | scalar => rfl
  | function => exact (hharmless _ .refl).elim
  | @array path element _ _ ih =>
      have hstep := schema.contains_element element
      exact ih (fun c hc => (hpath c hc).tail hstep) fun u hu => hharmless u (.head hstep hu)
  | @dictionary path key value _ _ _ _ ihkey ihvalue =>
      have hkey := schema.contains_key key value
      have hvalue := schema.contains_value key value
      refine DictionaryOrder.join_eq_nil_iff.mpr ⟨?_, ?_⟩
      · exact ihkey (fun c hc => (hpath c hc).tail hkey) fun u hu => hharmless u (.head hkey hu)
      · exact ihvalue (fun c hc => (hpath c hc).tail hvalue) fun u hu =>
          hharmless u (.head hvalue hu)
  | again hmem => exact absurd (hpath _ hmem) (hharmless _ .refl).2.2
  | enter _ _ ih =>
      refine inMembers_eq_nil_iff.mpr ⟨fun member hmember => ?_, by simp, (hharmless _ .refl).2.1⟩
      have hstep := Schema.contains_member hmember
      refine ih member hmember (fun c hc => ?_) fun u hu => hharmless u (.head hstep hu)
      rcases List.mem_cons.mp hc with rfl | hc
      · exact .single hstep
      · exact (hpath c hc).tail hstep

/-- The classes that a walk from `root` is inside of: declared ones, all
different. -/
structure Inside (schema : Schema) (root : Ty) (path : List Ty) : Prop where
  nodup : path.Nodup
  declared : ∀ c ∈ path, schema.Reaches root c ∧
    ∃ name place, c = .cls name (some place) ∧ place < schema.classes.length

/-- A walk is inside no more classes than there are. -/
theorem Inside.length_le (hplaced : schema.Placed root) (h : Inside schema root path) :
    path.length ≤ schema.classes.length := by
  have hsubset : path.map Ty.place? ⊆ (List.range schema.classes.length).map some := by
    intro place hplace
    obtain ⟨c, hc, rfl⟩ := List.mem_map.mp hplace
    obtain ⟨-, name, place, rfl, hlt⟩ := h.declared c hc
    exact List.mem_map_of_mem (List.mem_range.mpr hlt)
  have hnodup : (path.map Ty.place?).Nodup := by
    refine (List.nodup_map_iff_inj_on h.nodup).mpr ?_
    intro c hc d hd hsame
    obtain ⟨hreach, name, place, rfl, -⟩ := h.declared c hc
    obtain ⟨hother, other, placed, rfl, -⟩ := h.declared d hd
    obtain rfl := Option.some.inj hsame
    rw [hplaced name other place hreach hother]
  simpa using (List.subperm_of_subset hnodup hsubset).length_le

theorem Inside.enter (h : Inside schema root path) {name : String} {place : Option Nat}
    (hreach : schema.Reaches root (.cls name place)) (hfresh : .cls name place ∉ path)
    {member : String × Ty} (hmember : member ∈ schema.members (.cls name place)) :
    Inside schema root (.cls name place :: path) := by
  obtain ⟨declared, rfl, hlt⟩ := Schema.place_of_members_ne_nil (List.ne_nil_of_mem hmember)
  exact ⟨List.nodup_cons.mpr ⟨hfresh, h.nodup⟩,
    List.forall_mem_cons.mpr ⟨⟨hreach, name, declared, rfl, hlt⟩, h.declared⟩⟩

/-- Entries of a class map under which the members keep their names. -/
def ownEntries (members : List (String × Ty)) (encoders : List Encoder) : List MemberMap :=
  List.zipWith (fun member e => ⟨member.1, member.1, e⟩) members encoders

/-- An encoder after the pattern of a type. The map of a class lies at `base`
or later and has an entry for each member, in order, under its own name. -/
inductive Mirrors (schema : Schema) (maps : ClassMaps) (base : Nat) : Ty → Encoder → Prop where
  | boolean : Mirrors schema maps base .boolean .boolean
  | string : Mirrors schema maps base .string .string
  | double : Mirrors schema maps base .double .double
  | int32 : Mirrors schema maps base .int32 (.integer .int32 .int32)
  | int64 : Mirrors schema maps base .int64 (.integer .int64 .int64)
  | enumeration {name : String} {values : List String} :
      Mirrors schema maps base (.enumeration name values) (.enumeration name values .int32)
  | array {element : Ty} {item : Encoder} :
      Mirrors schema maps base element item → Mirrors schema maps base (.array element) (.array item)
  | dictionary {key value : Ty} {ofKey ofValue : Encoder} :
      Mirrors schema maps base key ofKey → Mirrors schema maps base value ofValue →
      Mirrors schema maps base (.dictionary key value) (.dictionary .document ofKey ofValue)
  | document {name : String} {place : Option Nat} {map : Nat} {encoders : List Encoder} :
      base ≤ map → encoders.length = (schema.members (.cls name place)).length →
      maps.maps[map]? = some ⟨name, ownEntries (schema.members (.cls name place)) encoders⟩ →
      (∀ pair ∈ (schema.members (.cls name place)).zip encoders,
        Mirrors schema maps base pair.1.2 pair.2) →
      Mirrors schema maps base (.cls name place) (.document name place map)

variable {maps next : ClassMaps} {base : Nat} {e : Encoder}

/-- Maps that are made before `base` or after all others do not matter. -/
theorem Mirrors.mono (h : Mirrors schema maps base t e) {lower : Nat} (hlower : lower ≤ base)
    (hkept : ∀ place map, base ≤ place → maps.maps[place]? = some map →
      next.maps[place]? = some map) : Mirrors schema next lower t e := by
  induction h with
  | boolean => exact .boolean
  | string => exact .string
  | double => exact .double
  | int32 => exact .int32
  | int64 => exact .int64
  | enumeration => exact .enumeration
  | array _ ih => exact .array ih
  | dictionary _ _ ihkey ihvalue => exact .dictionary ihkey ihvalue
  | document hbase hlength hmap _ ih =>
      exact .document (Nat.le_trans hlower hbase) hlength (hkept _ _ hbase hmap) ih

theorem Mirrors.of_prefix (h : Mirrors schema maps base t e) (hkept : maps.maps <+: next.maps) :
    Mirrors schema next base t e := by
  obtain ⟨more, hmore⟩ := hkept
  refine h.mono (Nat.le_refl _) fun place map _ hmap => ?_
  rw [← hmore, List.getElem?_append_left (List.getElem?_eq_some_iff.mp hmap).1, hmap]

theorem ownEntries_concat {members : List (String × Ty)} {encoders : List Encoder}
    (hlength : encoders.length = members.length) (member : String × Ty) (e : Encoder) :
    ownEntries (members ++ [member]) (encoders ++ [e]) =
      ownEntries members encoders ++ [⟨member.1, member.1, e⟩] :=
  List.zipWith_append hlength.symm

theorem map_member_ownEntries {members : List (String × Ty)} {encoders : List Encoder}
    (hlength : encoders.length = members.length) :
    (ownEntries members encoders).map (·.member) = members.map (·.1) := by
  induction members generalizing encoders with
  | nil => rfl
  | cons member members ih =>
      cases encoders with
      | nil => cases hlength
      | cons e encoders =>
          have hrest := ih (Nat.succ.inj hlength)
          simpa [ownEntries] using hrest

/-! ### The run -/

/-- A result that is as required if nothing stood in the way, and otherwise
the first obstacle. -/
def Ends {α : Type} (Required : α → Prop) (result : Except DefaultError α) :
    List DefaultError → Prop
  | [] => ∃ a, result = .ok a ∧ Required a
  | error :: _ => result = .error error

theorem Ends.bind {α β : Type} {P : α → Prop} {Q : β → Prop} {x : Except DefaultError α}
    {f : α → Except DefaultError β} {first rest : List DefaultError} (hx : Ends P x first)
    (hf : ∀ a, P a → Ends Q (f a) rest) : Ends Q (x >>= f) (first ++ rest) := by
  cases first with
  | nil =>
      obtain ⟨a, rfl, ha⟩ := hx
      exact hf a ha
  | cons error _ => exact bind_eq_error.mpr (.inl hx)

theorem Ends.map {α β : Type} {P : α → Prop} {Q : β → Prop} {x : Except DefaultError α}
    {f : α → β} {obstacles : List DefaultError} (hx : Ends P x obstacles)
    (hf : ∀ a, P a → Q (f a)) : Ends Q (x >>= fun a => .ok (f a)) obstacles := by
  have h : Ends Q (x >>= fun a => .ok (f a)) (obstacles ++ []) :=
    hx.bind fun a ha => ⟨f a, rfl, hf a ha⟩
  rwa [List.append_nil] at h

/-- An encoder after the pattern of a type, all of whose maps are new. -/
structure Made (schema : Schema) (maps : ClassMaps) (t : Ty) (made : Encoder × ClassMaps) :
    Prop where
  kept : maps.maps <+: made.2.maps
  mirrors : Mirrors schema made.2 maps.maps.length t made.1

/-- The map of a class while its members are gone through: it comes after the
`old` maps, and has the entries of those that are `done`. -/
def Filled (schema : Schema) (old : List ClassMap) (className : String)
    (done : List (String × Ty)) (maps : ClassMaps) : Prop :=
  ∃ encoders newer, maps = ⟨old ++ ⟨className, ownEntries done encoders⟩ :: newer⟩ ∧
    encoders.length = done.length ∧
    ∀ pair ∈ done.zip encoders, Mirrors schema maps (old.length + 1) pair.1.2 pair.2

theorem run_array (encoderOf : Ty → Defaulting Encoder) (element : Ty) :
    (ofType encoderOf (.array element)).run maps =
      (ofType encoderOf element).run maps >>= fun made => .ok (.array made.1, made.2) := rfl

theorem run_dictionary (encoderOf : Ty → Defaulting Encoder) (key value : Ty) :
    (ofType encoderOf (.dictionary key value)).run maps =
      (ofType encoderOf value).run maps >>= fun ofValue =>
        (ofType encoderOf key).run ofValue.2 >>= fun ofKey =>
          .ok (.dictionary .document ofKey.1 ofValue.1, ofKey.2) := rfl

/-- What is done for a member of a class. -/
def mapByDefault (schema : Schema) (encoderOf : Ty → Defaulting Encoder) (whole : Encoder)
    (member : String × Ty) : Defaulting Unit := do
  let encoder ← encoderOf member.2
  let maps ← liftMapping ((← get).mapMember schema whole member.1 (some encoder) "")
  set maps

theorem run_mapByDefault (encoderOf : Ty → Defaulting Encoder) (whole : Encoder)
    (member : String × Ty) :
    (mapByDefault schema encoderOf whole member).run maps =
      (encoderOf member.2).run maps >>= fun made =>
        (liftMapping (made.2.mapMember schema whole member.1 (some made.1) "")).map ((), ·) := by
  simp [mapByDefault]
  rfl

theorem run_ofClass (depth : Nat) (name : String) (place : Option Nat) :
    (ofClass schema (depth + 1) path (.cls name place)).run maps =
      if .cls name place ∈ path then .error (.recursive name)
      else ((schema.members (.cls name place)).forM (mapByDefault schema
          (ofType (ofClass schema depth (.cls name place :: path)))
          (.document name place maps.maps.length))).run ⟨maps.maps ++ [⟨name, []⟩]⟩
        >>= fun filled => .ok (.document name place maps.maps.length, filled.2) := by
  rw [ofClass]
  split <;> rfl

theorem mapMember_ownEntries {old newer : List ClassMap} {name : String} {place : Option Nat}
    {done : List (String × Ty)} {encoders : List Encoder} (hlength : encoders.length = done.length)
    {member : String × Ty} (hmember : member ∈ schema.members (.cls name place)) (e : Encoder) :
    (⟨old ++ ⟨name, ownEntries done encoders⟩ :: newer⟩ : ClassMaps).mapMember schema
        (.document name place old.length) member.1 (some e) "" =
      if member.1 ∈ done.map (·.1) then .error (.alreadyMapped member.1 name)
      else .ok ⟨old ++ ⟨name, ownEntries (done ++ [member]) (encoders ++ [e])⟩ :: newer⟩ := by
  have hdeclared : schema.memberType? (.cls name place) member.1 ≠ none := by
    rw [Schema.memberType?_cls, Ne, List.lookup_eq_none_iff]
    exact fun h => absurd (h member hmember) (by simp)
  have hfound : ((⟨old ++ ⟨name, ownEntries done encoders⟩ :: newer⟩ : ClassMaps).find?
      (.document name place old.length) member.1).isSome = true ↔ member.1 ∈ done.map (·.1) := by
    rw [← map_member_ownEntries hlength]
    simp [ClassMaps.find?, ClassMaps.members]
  have hadd : (old ++ (⟨name, ownEntries done encoders⟩ : ClassMap) :: newer).modify old.length
      (fun m => { m with members := m.members ++ [⟨member.1, member.1, e⟩] }) =
        old ++ ⟨name, ownEntries (done ++ [member]) (encoders ++ [e])⟩ :: newer := by
    have hmap : (old ++ (⟨name, ownEntries done encoders⟩ : ClassMap) :: newer)[old.length]? =
        some ⟨name, ownEntries done encoders⟩ := by simp
    rw [modify_of_getElem? hmap, ownEntries_concat hlength]
    simp
  simp only [ClassMaps.mapMember, Option.isNone_iff_eq_none, hdeclared, hfound, if_false, if_true,
    ClassMaps.add, hadd]

/-- What lies after the map of a class stays while that map is filled. -/
theorem getElem?_after {old newer : List ClassMap} {filled map : ClassMap} (refilled : ClassMap)
    (more : List ClassMap) {place : Nat} (hplace : old.length + 1 ≤ place)
    (hmap : (old ++ filled :: newer)[place]? = some map) :
    (old ++ refilled :: (newer ++ more))[place]? = some map := by
  obtain ⟨after, rfl⟩ := Nat.exists_eq_add_of_le hplace
  rw [List.getElem?_append_right (by omega)] at hmap ⊢
  have hindex : old.length + 1 + after - old.length = after + 1 := by omega
  rw [hindex, List.getElem?_cons_succ] at hmap ⊢
  rw [List.getElem?_append_left (List.getElem?_eq_some_iff.mp hmap).1]
  exact hmap

/-- A member that is gone through adds its entry, or its obstacles. -/
theorem ends_mapByDefault {old : List ClassMap} {name : String} {place : Option Nat}
    {done : List (String × Ty)} (hfilled : Filled schema old name done maps)
    {member : String × Ty} (hmember : member ∈ schema.members (.cls name place))
    {encoderOf : Ty → Defaulting Encoder}
    (hends : ∀ maps, Ends (Made schema maps member.2) ((encoderOf member.2).run maps) obstacles) :
    Ends (fun filled => Filled schema old name (done ++ [member]) filled.2)
      ((mapByDefault schema encoderOf (.document name place old.length) member).run maps)
      (obstacles ++ if member.1 ∈ done.map (·.1) then [.mapping (.alreadyMapped member.1 name)]
        else []) := by
  rw [run_mapByDefault]
  refine (hends maps).bind fun made hmade => ?_
  obtain ⟨e, next⟩ := made
  obtain ⟨encoders, newer, rfl, hlength, hmirrors⟩ := hfilled
  obtain ⟨more, hmore⟩ := hmade.kept
  obtain rfl : next = ⟨old ++ ⟨name, ownEntries done encoders⟩ :: (newer ++ more)⟩ :=
    congrArg ClassMaps.mk (hmore.symm.trans (by simp))
  rw [mapMember_ownEntries hlength hmember]
  split
  · rfl
  · refine ⟨_, rfl, encoders ++ [e], newer ++ more, rfl, by simp [hlength], fun pair hpair => ?_⟩
    rw [List.zip_append hlength.symm, List.mem_append] at hpair
    rcases hpair with hpair | hpair
    · exact (hmirrors pair hpair).mono (Nat.le_refl _) fun _ _ => getElem?_after _ _
    · obtain rfl := List.mem_singleton.mp hpair
      refine hmade.mirrors.mono (by simp) fun place map hplace hmap => ?_
      have hafter : old.length + 1 ≤ place := Nat.le_trans (by simp) hplace
      have hkept := getElem?_after ⟨name, ownEntries (done ++ [member]) (encoders ++ [e])⟩ []
        hafter hmap
      rwa [List.append_nil] at hkept

/-- The members of a class, one after the other. -/
theorem ends_members {old : List ClassMap} {name : String} {place : Option Nat}
    {encoderOf : Ty → Defaulting Encoder} {met : Ty → List DefaultError}
    {done rest : List (String × Ty)} (hfilled : Filled schema old name done maps)
    (hmembers : ∀ member ∈ rest, member ∈ schema.members (.cls name place))
    (hends : ∀ member ∈ rest, ∀ maps,
      Ends (Made schema maps member.2) ((encoderOf member.2).run maps) (met member.2)) :
    Ends (fun filled => Filled schema old name (done ++ rest) filled.2)
      ((rest.forM (mapByDefault schema encoderOf (.document name place old.length))).run maps)
      (inMembers name met (done.map (·.1)) rest) := by
  induction rest generalizing done maps with
  | nil => exact ⟨((), maps), rfl, by simpa using hfilled⟩
  | cons member rest ih =>
      rw [List.forall_mem_cons] at hmembers hends
      have hfirst := ends_mapByDefault hfilled hmembers.1 hends.1
      refine hfirst.bind fun filled hfilled => ?_
      have hrest := ih hfilled hmembers.2 hends.2
      rwa [List.append_assoc, List.map_append] at hrest

/-- The encoder of a type is made after its pattern, or the first obstacle in
the type is the error; no walk is cut short. -/
theorem Obstacles.ends (h : Obstacles schema .valueFirst path t obstacles)
    (hplaced : schema.Placed root) (hinside : Inside schema root path)
    (hreach : schema.Reaches root t) {depth : Nat}
    (hdepth : schema.classes.length < depth + path.length) (maps : ClassMaps) :
    Ends (Made schema maps t) ((ofType (ofClass schema depth path) t).run maps) obstacles := by
  induction h generalizing depth maps with
  | @scalar path t hscalar =>
      have hmade {e : Encoder} (he : Mirrors schema maps maps.maps.length t e) :
          Made schema maps t (e, maps) := ⟨List.prefix_rfl, he⟩
      cases t with
      | boolean => exact ⟨_, rfl, hmade .boolean⟩
      | int32 => exact ⟨_, rfl, hmade .int32⟩
      | int64 => exact ⟨_, rfl, hmade .int64⟩
      | double => exact ⟨_, rfl, hmade .double⟩
      | string => exact ⟨_, rfl, hmade .string⟩
      | enumeration => exact ⟨_, rfl, hmade .enumeration⟩
      | array | dictionary | cls | function => cases hscalar
  | function => rfl
  | @array path element _ _ ih =>
      rw [run_array]
      refine (ih hinside (hreach.tail (schema.contains_element element)) hdepth maps).map ?_
      exact fun made hmade => ⟨hmade.kept, .array hmade.mirrors⟩
  | @dictionary path key value _ _ _ _ ihkey ihvalue =>
      rw [run_dictionary]
      have hvalue := ihvalue hinside (hreach.tail (schema.contains_value key value)) hdepth maps
      refine hvalue.bind fun ofValue hofValue => ?_
      have hkey := ihkey hinside (hreach.tail (schema.contains_key key value)) hdepth ofValue.2
      refine hkey.map fun ofKey hofKey => ⟨hofValue.kept.trans hofKey.kept, .dictionary ?_ ?_⟩
      · exact hofKey.mirrors.mono hofValue.kept.length_le fun _ _ _ => id
      · exact hofValue.mirrors.of_prefix hofKey.kept
  | @again path name place hmem =>
      have hlength := hinside.length_le hplaced
      obtain ⟨depth, rfl⟩ := Nat.exists_eq_succ_of_ne_zero (by omega : depth ≠ 0)
      rw [ofType, run_ofClass, if_pos hmem]
      rfl
  | @enter path name place met hfresh _ ih =>
      have hlength := hinside.length_le hplaced
      obtain ⟨depth, rfl⟩ := Nat.exists_eq_succ_of_ne_zero (by omega : depth ≠ 0)
      rw [ofType, run_ofClass, if_neg hfresh]
      have hempty : Filled schema maps.maps name [] ⟨maps.maps ++ [⟨name, []⟩]⟩ :=
        ⟨[], [], rfl, rfl, by simp⟩
      refine (ends_members hempty (fun _ => id) fun member hmember maps => ?_).map
        fun filled hfilled => ?_
      · exact ih member hmember (hinside.enter hreach hfresh hmember)
          (hreach.tail (Schema.contains_member hmember)) (by simp only [List.length_cons]; omega) maps
      · obtain ⟨_, next⟩ := filled
        obtain ⟨encoders, newer, rfl, hencoders, hmirrors⟩ := hfilled
        refine ⟨List.prefix_append _ _, .document (Nat.le_refl _) hencoders (by simp) ?_⟩
        exact fun pair hpair => (hmirrors pair hpair).mono (Nat.le_succ _) fun _ _ _ => id

/-- A class with two members of one name. -/
def twice : Schema := ⟨[⟨"D", [("a", .string), ("a", .string)]⟩]⟩

end Encoder

end QueryFilter
