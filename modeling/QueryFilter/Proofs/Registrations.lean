import QueryFilter.Proofs.Depth
import QueryFilter.Proofs.Reordered

/-!
Registration, call by call. Encoders can be kept twice, by the place of their
type in memory and by its name, where types that were built apart have places
of their own and may have one name. The two indexes never disagree, a call that
fails changes neither, and they show what the registry shows. What is
registered stays, so predicates over a registered type compile alike ever
after.
-/

namespace QueryFilter

/-- Calls one after the other: what comes of each, and the state after all. -/
def runCalls {σ α β : Type} (call : α → σ → β × σ) : List α → σ → List β × σ
  | [], s => ([], s)
  | a :: calls, s =>
    let (b, s) := call a s
    let (bs, s) := runCalls call calls s
    (b :: bs, s)

section

variable {σ α β : Type} {call : α → σ → β × σ}

theorem runCalls_cons (a : α) (calls : List α) (s : σ) :
    runCalls call (a :: calls) s
      = ((call a s).1 :: (runCalls call calls (call a s).2).1,
          (runCalls call calls (call a s).2).2) := rfl

theorem runCalls_append (calls more : List α) (s : σ) :
    (runCalls call (calls ++ more) s).2 = (runCalls call more (runCalls call calls s).2).2 := by
  induction calls generalizing s with
  | nil => rfl
  | cons a calls ih => exact ih (call a s).2

end

/-! ### The registry -/

namespace Registry

/-- A call of `register`, which leaves the registry as it is when it fails. -/
def attempt (offer : Option Encoder) (r : Registry) : Except EncoderError Unit × Registry :=
  match r.register offer with
  | .ok r => (.ok (), r)
  | .error error => (.error error, r)

theorem attempt_of_new {r : Registry} {e : Encoder} (h : r.findByName? e.valueType.name = none) :
    r.attempt (some e) = (.ok (), ⟨r.encoders ++ [e]⟩) := by
  simp only [attempt, register, h, Option.isSome_none, Bool.false_eq_true, if_false]

theorem attempt_of_known {r : Registry} {e known : Encoder}
    (h : r.findByName? e.valueType.name = some known) :
    r.attempt (some e) = (.error (.alreadyRegistered e.valueType.name), r) := by
  simp only [attempt, register, h, Option.isSome_some, if_true]

/-- All that a call can do: to add an encoder with a new name, or to fail. -/
theorem attempt_cases (offer : Option Encoder) (r : Registry) :
    (∃ e, r.findByName? e.valueType.name = none ∧
      r.attempt offer = (.ok (), ⟨r.encoders ++ [e]⟩)) ∨
    ∃ error, r.attempt offer = (.error error, r) := by
  cases offer with
  | none => exact .inr ⟨.missingRegistration, rfl⟩
  | some e =>
      cases hfound : r.findByName? e.valueType.name with
      | none => exact .inl ⟨e, hfound, attempt_of_new hfound⟩
      | some known => exact .inr ⟨_, attempt_of_known hfound⟩

theorem findByName?_append (r : Registry) (e : Encoder) (name : String) :
    Registry.findByName? ⟨r.encoders ++ [e]⟩ name
      = (r.findByName? name).or (if e.valueType.name = name then some e else none) := by
  rw [findByName?, findByName?, List.find?_append, List.find?_singleton]
  simp only [beq_iff_eq]

theorem distinct_attempt {r : Registry} (h : r.Distinct) (offer : Option Encoder) :
    (r.attempt offer).2.Distinct := by
  rcases r.attempt_cases offer with ⟨e, hnew, hcall⟩ | ⟨error, hcall⟩
  · rw [hcall, Distinct, List.map_append, List.map_singleton, nodup_concat_iff]
    exact ⟨h, findByName?_eq_none.mp hnew⟩
  · rwa [hcall]

theorem distinct_runCalls (offers : List (Option Encoder)) {r : Registry} (h : r.Distinct) :
    (runCalls attempt offers r).2.Distinct := by
  induction offers generalizing r with
  | nil => exact h
  | cons offer offers ih => exact ih (distinct_attempt h offer)

/-- What is found under a name is the first encoder on offer of a type of that
name; later ones are refused. -/
theorem findByName?_runCalls (offers : List (Option Encoder)) (r : Registry) (name : String) :
    (runCalls attempt offers r).2.findByName? name
      = (r.findByName? name).or
        ((offers.filterMap id).find? (·.valueType.name == name)) := by
  induction offers generalizing r with
  | nil => exact (Option.or_none ..).symm
  | cons offer offers ih =>
      rw [runCalls_cons, ih]
      cases offer with
      | none => rfl
      | some e =>
          have hoffers : (some e :: offers).filterMap id = e :: offers.filterMap id := rfl
          rw [hoffers, List.find?_cons]
          cases hfound : r.findByName? e.valueType.name with
          | none =>
              rw [attempt_of_new hfound, findByName?_append, Option.or_assoc]
              by_cases hname : e.valueType.name = name
              · rw [if_pos hname, beq_iff_eq.mpr hname, Option.some_or]
              · rw [if_neg hname, beq_false_of_ne hname, Option.none_or]
          | some known =>
              rw [attempt_of_known hfound]
              by_cases hname : e.valueType.name = name
              · rw [← hname, hfound, Option.some_or, Option.some_or]
              · rw [beq_false_of_ne hname]

/-- As many encoders are added as calls succeed. -/
theorem size_runCalls (offers : List (Option Encoder)) (r : Registry) :
    (runCalls attempt offers r).2.size
      = r.size + (runCalls attempt offers r).1.countP Except.isOk := by
  induction offers generalizing r with
  | nil => rfl
  | cons offer offers ih =>
      rw [runCalls_cons, ih, List.countP_cons]
      rcases r.attempt_cases offer with ⟨e, -, hcall⟩ | ⟨error, hcall⟩
      · simp [hcall, size, Except.isOk, Except.toBool]
        omega
      · simp [hcall, Except.isOk, Except.toBool]

theorem mem_typeNames {r : Registry} {name : String} :
    name ∈ r.typeNames ↔ name ∈ r.encoders.map (·.valueType.name) :=
  (List.mergeSort_perm ..).mem_iff

theorem typeNames_ascending {r : Registry} (h : r.Distinct) :
    r.typeNames.Pairwise (· < ·) := by
  have hnodup : r.typeNames.Nodup := (List.mergeSort_perm ..).nodup_iff.mpr h
  exact ((pairwise_mergeSort _).and hnodup).imp fun ⟨hle, hne⟩ => Std.lt_of_le_of_ne hle hne

/-- The names are those under which an encoder is found. -/
theorem isSome_findByName?_iff {r : Registry} {name : String} :
    (r.findByName? name).isSome = true ↔ name ∈ r.typeNames := by
  rw [mem_typeNames, Option.isSome_iff_ne_none, ne_eq, findByName?_eq_none, not_not]

end Registry

/-! ### Encoders by place and by name -/

/-- An encoder on offer, and where its type lies among the types in memory. -/
structure Placed (types : Nat → Ty) where
  place : Nat
  encoder : Encoder
  lies : types place = encoder.valueType

/-- Encoders by the place of their type and by its name. -/
structure Indexes where
  byPlace : Std.HashMap Nat Encoder
  byName : Std.HashMap String Encoder

namespace Indexes

variable {types : Nat → Ty}

def empty : Indexes := ⟨∅, ∅⟩

def size (i : Indexes) : Nat := i.byName.size

def findByName? (i : Indexes) (name : String) : Option Encoder := i.byName[name]?

/-- The encoder of the type at a place, or else the one of a type of its name. -/
def find? (types : Nat → Ty) (i : Indexes) (place : Nat) : Option Encoder :=
  i.byPlace[place]?.or (i.findByName? (types place).name)

def typeNames (i : Indexes) : List String := i.byName.keys.mergeSort fun a b => decide (a ≤ b)

/-- A call: after the checks both indexes are written. -/
def attempt (offer : Option (Placed types)) (i : Indexes) : Except EncoderError Unit × Indexes :=
  match offer with
  | none => (.error .missingRegistration, i)
  | some e =>
    let name := e.encoder.valueType.name
    if i.byName.contains name then (.error (.alreadyRegistered name), i)
    else
      let i := { i with byPlace := i.byPlace.insert e.place e.encoder }
      let i := { i with byName := i.byName.insert name e.encoder }
      (.ok (), i)

theorem contains_byName (i : Indexes) (name : String) :
    i.byName.contains name = (i.findByName? name).isSome :=
  Std.HashMap.contains_eq_isSome_getElem?

theorem attempt_of_new {i : Indexes} {e : Placed types}
    (h : i.findByName? e.encoder.valueType.name = none) :
    attempt (some e) i = (.ok (), ⟨i.byPlace.insert e.place e.encoder,
      i.byName.insert e.encoder.valueType.name e.encoder⟩) := by
  simp only [attempt, contains_byName, h, Option.isSome_none, Bool.false_eq_true, if_false]

theorem attempt_of_known {i : Indexes} {e : Placed types} {known : Encoder}
    (h : i.findByName? e.encoder.valueType.name = some known) :
    attempt (some e) i = (.error (.alreadyRegistered e.encoder.valueType.name), i) := by
  simp only [attempt, contains_byName, h, Option.isSome_some, if_true]

/-- The two indexes agree with each other and with a registry: what is found by
name is what the registry finds, and under a place there is what is found under
the name of the type at that place. -/
structure Keeps (types : Nat → Ty) (i : Indexes) (r : Registry) : Prop where
  distinct : r.Distinct
  byName : ∀ name, i.findByName? name = r.findByName? name
  byPlace : ∀ place e, i.byPlace[place]? = some e → r.findByName? (types place).name = some e

theorem keeps_empty : Keeps types empty .empty where
  distinct := .nil
  byName name := Std.HashMap.getElem?_empty
  byPlace place e h := by
    rw [empty, Std.HashMap.getElem?_empty] at h
    cases h

/-- A call comes to the same, and the indexes agree after it. -/
theorem Keeps.attempt {i : Indexes} {r : Registry} (h : i.Keeps types r)
    (offer : Option (Placed types)) :
    (Indexes.attempt offer i).1 = (r.attempt (offer.map Placed.encoder)).1 ∧
      (Indexes.attempt offer i).2.Keeps types (r.attempt (offer.map Placed.encoder)).2 := by
  cases offer with
  | none => exact ⟨rfl, h⟩
  | some e =>
      cases hfound : r.findByName? e.encoder.valueType.name with
      | some known =>
          rw [attempt_of_known ((h.byName _).trans hfound), Option.map_some,
            Registry.attempt_of_known hfound]
          exact ⟨rfl, h⟩
      | none =>
          have hdistinct := Registry.distinct_attempt h.distinct (some e.encoder)
          rw [Registry.attempt_of_new hfound] at hdistinct
          rw [attempt_of_new ((h.byName _).trans hfound), Option.map_some,
            Registry.attempt_of_new hfound]
          refine ⟨rfl, hdistinct, fun name => ?_, fun place e' hplace => ?_⟩
          · rw [findByName?, Std.HashMap.getElem?_insert, Registry.findByName?_append]
            simp only [beq_iff_eq]
            split
            · rename_i hname
              rw [← hname, hfound, Option.none_or]
            · rw [Option.or_none]
              exact h.byName name
          · rw [Registry.findByName?_append]
            simp only [Std.HashMap.getElem?_insert, beq_iff_eq] at hplace
            split at hplace
            · rename_i hsame
              obtain rfl : e.encoder = e' := Option.some.inj hplace
              rw [← hsame, e.lies, hfound, Option.none_or, if_pos rfl]
            · rw [h.byPlace place e' hplace, Option.some_or]

theorem keeps_runCalls (offers : List (Option (Placed types))) {i : Indexes} {r : Registry}
    (h : i.Keeps types r) :
    (runCalls attempt offers i).1
        = (runCalls Registry.attempt (offers.map (Option.map Placed.encoder)) r).1 ∧
      (runCalls attempt offers i).2.Keeps types
        (runCalls Registry.attempt (offers.map (Option.map Placed.encoder)) r).2 := by
  induction offers generalizing i r with
  | nil => exact ⟨rfl, h⟩
  | cons offer offers ih =>
      obtain ⟨houtcome, hkeeps⟩ := h.attempt offer
      obtain ⟨houtcomes, hlast⟩ := ih hkeeps
      rw [List.map_cons, runCalls_cons, runCalls_cons, houtcome, houtcomes]
      exact ⟨rfl, hlast⟩

theorem Keeps.find? {i : Indexes} {r : Registry} (h : i.Keeps types r) (place : Nat) :
    i.find? types place = r.findByName? (types place).name := by
  unfold Indexes.find?
  cases hplace : i.byPlace[place]? with
  | none => rw [Option.none_or, h.byName]
  | some e => rw [Option.some_or, h.byPlace place e hplace]

theorem Keeps.keys_perm {i : Indexes} {r : Registry} (h : i.Keeps types r) :
    i.byName.keys.Perm (r.encoders.map (·.valueType.name)) := by
  refine (List.perm_ext_iff_of_nodup ?_ h.distinct).mpr fun name => ?_
  · exact Std.HashMap.nodup_keys
  · rw [← Registry.mem_typeNames, ← Registry.isSome_findByName?_iff, ← h.byName, ← contains_byName,
      Std.HashMap.mem_keys, Std.HashMap.mem_iff_contains]

theorem Keeps.size {i : Indexes} {r : Registry} (h : i.Keeps types r) : i.size = r.size := by
  rw [Indexes.size, ← Std.HashMap.length_keys, h.keys_perm.length_eq, List.length_map]
  rfl

theorem Keeps.typeNames {i : Indexes} {r : Registry} (h : i.Keeps types r) :
    i.typeNames = r.typeNames := mergeSort_eq_of_perm h.keys_perm

/-- Whether the same is seen of the indexes as of a registry. -/
structure Shows (types : Nat → Ty) (i : Indexes) (r : Registry) : Prop where
  find? : ∀ place, i.find? types place = r.find? (types place)
  findByName? : ∀ name, i.findByName? name = r.findByName? name
  size : i.size = r.size
  typeNames : i.typeNames = r.typeNames

theorem Keeps.shows {i : Indexes} {r : Registry} (h : i.Keeps types r) : i.Shows types r where
  find? place := (h.find? place).trans (r.find?_eq_findByName? h.distinct _).symm
  findByName? := h.byName
  size := h.size
  typeNames := h.typeNames

end Indexes

/-! ### What is compiled -/

namespace Compile

theorem expression_elsewhere (s : Scope) (registry : Registry) (e : Expr) :
    expression (s.elsewhere registry s.depth s.maxDepth) e = expression s e := by
  obtain heq | ⟨⟨hroom, -⟩, -⟩ := cut_expression s e registry s.depth s.maxDepth (Nat.le_refl _)
  · exact heq.symm
  · exact absurd ⟨rfl, rfl⟩ hroom

/-- Of the registry a predicate sees the encoder of its own type alone. -/
theorem predicate_registry {model : Model} {registry : Registry} (maxDepth : Nat) {p : Predicate}
    (h : registry.find? p.type = model.registry.find? p.type) :
    predicate { model with registry := registry } maxDepth p = predicate model maxDepth p := by
  unfold predicate predicateIn
  dsimp only [Scope.create]
  rw [h]
  cases model.registry.find? p.type with
  | none => rfl
  | some root =>
      dsimp only
      split
      · exact expression_elsewhere (Scope.document model maxDepth p.name root 0) registry p.body
      · rfl

end Compile

/-! ### All calls from the start -/

def Registry.after (offers : List (Option Encoder)) : Registry :=
  (runCalls Registry.attempt offers .empty).2

def Indexes.after {types : Nat → Ty} (offers : List (Option (Placed types))) : Indexes :=
  (runCalls Indexes.attempt offers .empty).2

def Indexes.outcomes {types : Nat → Ty} (offers : List (Option (Placed types))) :
    List (Except EncoderError Unit) :=
  (runCalls Indexes.attempt offers .empty).1

theorem Registry.findByName?_after (offers : List (Option Encoder)) (name : String) :
    (after offers).findByName? name
      = (offers.filterMap id).find? (·.valueType.name == name) :=
  (findByName?_runCalls offers empty name).trans (Option.none_or ..)

theorem Registry.isSome_findByName?_after {offers : List (Option Encoder)} {name : String} :
    ((after offers).findByName? name).isSome = true ↔
      ∃ e, some e ∈ offers ∧ e.valueType.name = name := by
  rw [findByName?_after, List.find?_isSome]
  simp only [List.mem_filterMap, id_eq, exists_eq_right, beq_iff_eq]

/-- Further calls rebind nothing. -/
theorem Registry.findByName?_after_append {offers : List (Option Encoder)} {name : String}
    {e : Encoder} (h : (after offers).findByName? name = some e) (more : List (Option Encoder)) :
    (after (offers ++ more)).findByName? name = some e := by
  rw [findByName?_after] at h ⊢
  rw [List.filterMap_append, List.find?_append, h, Option.some_or]

theorem Registry.find?_after (offers : List (Option Encoder)) (t : Ty) :
    (after offers).find? t = (after offers).findByName? t.name :=
  find?_eq_findByName? (distinct_runCalls (r := empty) offers .nil) t

theorem Indexes.keeps_after {types : Nat → Ty} (offers : List (Option (Placed types))) :
    (after offers).Keeps types (.after (offers.map (Option.map Placed.encoder))) :=
  (keeps_runCalls offers keeps_empty).2

theorem Indexes.attempt_of_error {types : Nat → Ty} {offer : Option (Placed types)} {i : Indexes}
    {error : EncoderError} (h : (attempt offer i).1 = .error error) : (attempt offer i).2 = i := by
  cases offer with
  | none => rfl
  | some e =>
      cases hfound : i.findByName? e.encoder.valueType.name with
      | some known => rw [attempt_of_known hfound]
      | none =>
          rw [attempt_of_new hfound] at h
          cases h

/-- Whatever calls are made, encoders kept by the place and by the name of their
type show what the registry shows, after the same outcomes. A call that fails
changes nothing, nothing is ever rebound, there are as many encoders as calls
that succeed, and the names are those of the types on offer in strictly
ascending order. A type is found as its name is, wherever it lies. So a
predicate over a registered type compiles alike after any further calls. -/
theorem registrations_agree {types : Nat → Ty} (offers : List (Option (Placed types))) :
    let encoders := offers.map (Option.map Placed.encoder)
    let indexes := Indexes.after offers
    let registry := Registry.after encoders
    (Indexes.outcomes offers = (runCalls Registry.attempt encoders .empty).1 ∧
      indexes.Shows types registry) ∧
    (∀ offer error, (Indexes.attempt offer indexes).1 = .error error →
      Indexes.after (offers ++ [offer]) = indexes) ∧
    (∀ (more : List (Option (Placed types))) name e, indexes.findByName? name = some e →
      (Indexes.after (offers ++ more)).findByName? name = some e) ∧
    indexes.size = (Indexes.outcomes offers).countP Except.isOk ∧
    indexes.typeNames.Pairwise (· < ·) ∧
    (∀ name, (name ∈ indexes.typeNames ↔ (indexes.findByName? name).isSome = true) ∧
      (name ∈ indexes.typeNames ↔ ∃ e, some e ∈ offers ∧ (types e.place).name = name)) ∧
    (∀ place, indexes.find? types place = indexes.findByName? (types place).name) ∧
    ∀ (more : List (Option Encoder)) (model : Model) (maxDepth : Nat) (p : Predicate),
      model.registry = registry → (registry.find? p.type).isSome = true →
        Compile.predicate { model with registry := .after (encoders ++ more) } maxDepth p
          = Compile.predicate model maxDepth p := by
  intro encoders indexes registry
  have houtcomes : Indexes.outcomes offers = (runCalls Registry.attempt encoders .empty).1 :=
    (Indexes.keeps_runCalls offers Indexes.keeps_empty).1
  have hkeeps : indexes.Keeps types registry := Indexes.keeps_after offers
  have hshows := hkeeps.shows
  refine ⟨⟨houtcomes, hshows⟩, fun offer error h => ?_, fun more name e h => ?_, ?_, ?_,
    fun name => ⟨?_, ?_⟩, fun place => ?_, fun more model maxDepth p hmodel hroot => ?_⟩
  · rw [Indexes.after, runCalls_append]
    exact Indexes.attempt_of_error h
  · rw [(Indexes.keeps_after _).byName, List.map_append]
    exact Registry.findByName?_after_append ((hshows.findByName? name).symm.trans h) _
  · rw [hshows.size, houtcomes]
    exact (Registry.size_runCalls encoders .empty).trans (Nat.zero_add _)
  · rw [hshows.typeNames]
    exact Registry.typeNames_ascending hkeeps.distinct
  · rw [hshows.typeNames, hshows.findByName?]
    exact Registry.isSome_findByName?_iff.symm
  · rw [hshows.typeNames, ← Registry.isSome_findByName?_iff, Registry.isSome_findByName?_after]
    constructor
    · rintro ⟨encoder, hmem, rfl⟩
      obtain ⟨offer, hoffer, hencoder⟩ := List.mem_map.mp hmem
      obtain ⟨e, rfl, rfl⟩ := Option.map_eq_some_iff.mp hencoder
      exact ⟨e, hoffer, congrArg Ty.name e.lies⟩
    · rintro ⟨e, hoffer, rfl⟩
      exact ⟨e.encoder, List.mem_map.mpr ⟨some e, hoffer, rfl⟩, congrArg Ty.name e.lies.symm⟩
  · rw [hshows.findByName?]
    exact hkeeps.find? place
  · refine Compile.predicate_registry maxDepth ?_
    obtain ⟨root, hroot⟩ := Option.isSome_iff_exists.mp hroot
    rw [hmodel, hroot, Registry.find?_after]
    rw [Registry.find?_after] at hroot
    exact Registry.findByName?_after_append hroot more

/-- Two arrays of numbers whose type was built twice, the second with another
encoder, a null and a string. -/
theorem registrations_agree_apart :
    let types : Nat → Ty := fun place => if place < 2 then .array .int32 else .string
    let numbers (representation : Representation) : Encoder :=
      .array (.integer .int32 representation)
    let offers : List (Option (Placed types)) :=
      [some ⟨0, numbers .int32, rfl⟩, none, some ⟨1, numbers .string, rfl⟩, some ⟨2, .string, rfl⟩]
    let indexes := Indexes.after offers
    let truth : Predicate := ⟨"s", .string, .const (.bool true) .boolean⟩
    indexes.find? types 1 = some (numbers .int32) ∧ indexes.size = 2 ∧
      indexes.typeNames.Pairwise (· < ·) ∧
      Indexes.after (offers ++ [none]) = indexes ∧
      Compile.predicate { Model.empty with
        registry := .after (offers.map (Option.map Placed.encoder) ++ [some .double]) } 64 truth
          = .ok .everything := by
  intro types numbers offers indexes truth
  obtain ⟨⟨-, hshows⟩, hfailed, -, -, hascending, -, -, hpredicate⟩ := registrations_agree offers
  have hencoders : (Registry.after (offers.map (Option.map Placed.encoder))).encoders
      = [numbers .int32, .string] := by
    decide +kernel
  have hregistry : Registry.after (offers.map (Option.map Placed.encoder))
      = ⟨[numbers .int32, .string]⟩ := congrArg Registry.mk hencoders
  have hfind : Registry.find? ⟨[numbers .int32, .string]⟩ (types 1) = some (numbers .int32) := by
    decide +kernel
  refine ⟨?_, ?_, hascending, hfailed none .missingRegistration rfl, ?_⟩
  · rw [hshows.find?, hregistry, hfind]
  · rw [hshows.size, hregistry]
    rfl
  · have hroot : (Registry.find? ⟨[numbers .int32, .string]⟩ truth.type).isSome = true := by
      decide +kernel
    refine (hpredicate [some .double] ⟨.empty, .empty, ⟨[numbers .int32, .string]⟩⟩ 64 truth
      hregistry.symm ?_).trans ?_
    · rw [hregistry, hroot]
    · rfl

end QueryFilter
