import QueryFilter.Proofs.Loaded

/-!
The classes that the encoders of a loaded model are made of. Each is a class of
the model, and one that the description refers to: the pass that collects the
references sees all that the pass that makes the encoders sees.
-/

namespace QueryFilter

open List (Forall₂)

/-- The encoders of classes in an encoder, or itself if it is one. Their members
are not looked into. -/
def Encoder.classes : Encoder → List Encoder
  | .array item => item.classes
  | .dictionary _ key value => key.classes ++ value.classes
  | .document className place map => [.document className place map]
  | _ => []

namespace Flow

theorem isScalar_of_scalarText? {node : Flow} {text : String} (h : node.scalarText? = some text) :
    node.isScalar = true := by
  cases node with
  | plain | quoted => rfl
  | null | sequence | mapping => cases h

theorem referencesUnder_eq_ok_iff {key : String} {entries : List (String × Flow)}
    {names : List String} :
    referencesUnder key entries = .ok names ↔
      ∃ node, entries.lookup key = some node ∧ references node = .ok names := by
  induction entries with
  | nil => exact ⟨nofun, nofun⟩
  | cons entry entries ih =>
      obtain ⟨k, node⟩ := entry
      rw [referencesUnder, List.lookup_cons]
      by_cases hkey : k = key
      · simp [hkey]
      · rw [if_neg hkey, beq_false_of_ne (Ne.symm hkey)]
        exact ih

theorem lookup_of_textUnder? {entries : List (String × Flow)} {key text : String}
    (h : textUnder? (some (.mapping entries)) key = some text) :
    ∃ node, entries.lookup key = some node ∧ node.scalarText? = some text :=
  Option.bind_eq_some_iff.mp h

theorem references_array {entries : List (String × Flow)}
    (h : textUnder? (some (.mapping entries)) "type" = some "array") :
    references (.mapping entries) = referencesUnder "element" entries := by
  obtain ⟨node, hnode, htext⟩ := lookup_of_textUnder? h
  have hscalar := isScalar_of_scalarText? htext
  simp [references, hnode, hscalar, htext]

theorem references_dictionary {entries : List (String × Flow)}
    (h : textUnder? (some (.mapping entries)) "type" = some "dictionary") :
    references (.mapping entries) =
      referencesUnder "key" entries >>= fun keys =>
        referencesUnder "value" entries >>= fun values => pure (keys ++ values) := by
  obtain ⟨node, hnode, htext⟩ := lookup_of_textUnder? h
  have hscalar := isScalar_of_scalarText? htext
  simp [references, hnode, hscalar, htext]

theorem references_class {entries : List (String × Flow)} {name : String}
    (h : textUnder? (some (.mapping entries)) "type" = some "class")
    (hname : textUnder? (some (.mapping entries)) "class" = some name) :
    references (.mapping entries) = .ok [name] := by
  obtain ⟨node, hnode, htext⟩ := lookup_of_textUnder? h
  obtain ⟨found, hfound, hname⟩ := lookup_of_textUnder? hname
  have hscalar := isScalar_of_scalarText? htext
  have hscalar' := isScalar_of_scalarText? hname
  simp [references, hnode, hscalar, htext, hfound, hscalar', hname, pure, Except.pure]

end Flow

namespace Declaration

variable {classes : DeclaredClasses} {member place : String}

theorem encoderUnder_eq_ok_iff {key : String} {entries : List (String × Flow)}
    {encoder : Encoder} :
    encoderUnder classes member key place entries = .ok encoder ↔
      ∃ node, entries.lookup key = some node ∧
        encoderOf classes member place node = .ok encoder := by
  induction entries with
  | nil => exact ⟨nofun, nofun⟩
  | cons entry entries ih =>
      obtain ⟨k, node⟩ := entry
      rw [encoderUnder, List.lookup_cons]
      by_cases hkey : k = key
      · simp [hkey]
      · rw [if_neg hkey, beq_false_of_ne (Ne.symm hkey)]
        exact ih

theorem enumerationOf_eq_ok {node : Flow} {encoder : Encoder}
    (h : enumerationOf node member place = .ok encoder) :
    ∃ name values representation, encoder = .enumeration name values representation := by
  obtain ⟨values, -, h⟩ := bind_eq_ok.mp h
  obtain ⟨values, -, h⟩ := bind_eq_ok.mp h
  obtain ⟨representation, -, h⟩ := bind_eq_ok.mp h
  rw [mapError_eq_ok, Encoder.enumerationOf] at h
  split at h
  · cases h
    exact ⟨_, _, _, rfl⟩
  · cases h

theorem classOf_eq_ok {node : Flow} {encoder : Encoder}
    (h : classOf classes node place = .ok encoder) :
    ∃ name, Flow.textUnder? (some node) "class" = some name ∧
      classes.lookup name = some encoder := by
  obtain ⟨name, hname, h⟩ := Flow.requiredText_eq_ok_iff.mp h
  split at h
  · cases h
    exact ⟨name, hname, by assumption⟩
  · cases h

/-- The ways in which an encoder comes out of a description with some entries. -/
inductive Made (classes : DeclaredClasses) (member place : String)
    (entries : List (String × Flow)) : Encoder → Prop where
  | string : Made classes member place entries .string
  | boolean : Made classes member place entries .boolean
  | double : Made classes member place entries .double
  | int32 {representation : Representation} :
      representationOf (.mapping entries) .int32 place = .ok representation →
      Made classes member place entries (.integer .int32 representation)
  | int64 {representation : Representation} :
      representationOf (.mapping entries) .int64 place = .ok representation →
      Made classes member place entries (.integer .int64 representation)
  | enumeration {name : String} {values : List String} {representation : Representation} :
      Made classes member place entries (.enumeration name values representation)
  | array {item : Encoder} :
      Flow.textUnder? (some (.mapping entries)) "type" = some "array" →
      encoderUnder classes member "element" (place ++ "[]") entries = .ok item →
      Made classes member place entries (.array item)
  | dictionary {layout : Layout} {key value : Encoder} :
      Flow.textUnder? (some (.mapping entries)) "type" = some "dictionary" →
      encoderUnder classes member "key" (place ++ ".key") entries = .ok key →
      encoderUnder classes member "value" (place ++ ".value") entries = .ok value →
      Made classes member place entries (.dictionary layout key value)
  | document {name : String} {encoder : Encoder} :
      Flow.textUnder? (some (.mapping entries)) "type" = some "class" →
      Flow.textUnder? (some (.mapping entries)) "class" = some name →
      classes.lookup name = some encoder →
      Made classes member place entries encoder

theorem made_of_encoderOf {entries : List (String × Flow)} {encoder : Encoder}
    (h : encoderOf classes member place (.mapping entries) = .ok encoder) :
    Made classes member place entries encoder := by
  rw [encoderOf, Flow.requiredText_eq_ok_iff] at h
  obtain ⟨type, htype, h⟩ := h
  split at h
  · cases h
    exact .string
  · cases h
    exact .boolean
  · cases h
    exact .boolean
  · cases h
    exact .double
  · obtain ⟨representation, hrepresentation, ⟨⟩⟩ := bind_eq_ok.mp h
    exact .int32 hrepresentation
  · obtain ⟨representation, hrepresentation, ⟨⟩⟩ := bind_eq_ok.mp h
    exact .int64 hrepresentation
  · obtain ⟨_, _, _, rfl⟩ := enumerationOf_eq_ok h
    exact .enumeration
  · obtain ⟨item, hitem, ⟨⟩⟩ := bind_eq_ok.mp h
    exact .array htype hitem
  · obtain ⟨key, hkey, h⟩ := bind_eq_ok.mp h
    obtain ⟨value, hvalue, h⟩ := bind_eq_ok.mp h
    obtain ⟨layout, -, ⟨⟩⟩ := bind_eq_ok.mp h
    exact .dictionary htype hkey hvalue
  · obtain ⟨name, hname, hlookup⟩ := classOf_eq_ok h
    exact .document htype hname hlookup
  · cases h

/-- The encoder of a class that is one of some references. -/
def Referred (names references : List String) (encoder : Encoder) : Prop :=
  ∃ name place, names[place]? = some name ∧ encoder = encoderAt name place ∧ name ∈ references

theorem Referred.mono {names references more : List String} {encoder : Encoder}
    (h : Referred names references encoder) (hsub : references ⊆ more) :
    Referred names more encoder := by
  obtain ⟨name, place, hplace, rfl, hreferred⟩ := h
  exact ⟨name, place, hplace, rfl, hsub hreferred⟩

mutual

/-- The two passes see the same classes. -/
theorem referred_encoderOf {names : List String} (hnodup : names.Nodup) {place : String}
    {encoder : Encoder} {references : List String} :
    (node : Flow) → encoderOf (classesOf names) member place node = .ok encoder →
      node.references = .ok references → ∀ c ∈ encoder.classes, Referred names references c
  | .null, h, _ | .plain _, h, _ | .quoted _, h, _ | .sequence _, h, _ => by cases h
  | .mapping entries, h, href => by
      intro c hc
      cases made_of_encoderOf h with
      | string | boolean | double | int32 | int64 | enumeration => cases hc
      | array htype hitem =>
          rw [Flow.references_array htype] at href
          exact referred_encoderUnder hnodup entries hitem href c hc
      | dictionary htype hkey hvalue =>
          rw [Flow.references_dictionary htype] at href
          obtain ⟨keys, hkeys, href⟩ := bind_eq_ok.mp href
          obtain ⟨values, hvalues, ⟨⟩⟩ := bind_eq_ok.mp href
          rcases List.mem_append.mp hc with hc | hc
          · exact (referred_encoderUnder hnodup entries hkey hkeys c hc).mono
              (List.subset_append_left _ _)
          · exact (referred_encoderUnder hnodup entries hvalue hvalues c hc).mono
              (List.subset_append_right _ _)
      | document htype hname hlookup =>
          rename_i name
          obtain ⟨position, hposition, rfl⟩ := (lookup_classesOf hnodup).mp hlookup
          rw [Flow.references_class htype hname] at href
          cases href
          exact ⟨name, position, hposition, List.mem_singleton.mp hc, List.mem_singleton_self name⟩

theorem referred_encoderUnder {names : List String} (hnodup : names.Nodup) {key place : String}
    {encoder : Encoder} {references : List String} :
    (entries : List (String × Flow)) →
      encoderUnder (classesOf names) member key place entries = .ok encoder →
      Flow.referencesUnder key entries = .ok references →
      ∀ c ∈ encoder.classes, Referred names references c
  | [], h, _ => by cases h
  | (k, node) :: rest, h, href => by
      rw [encoderUnder] at h
      rw [Flow.referencesUnder] at href
      split at h
      · rename_i hkey
        rw [if_pos hkey] at href
        exact referred_encoderOf hnodup node h href
      · rename_i hkey
        rw [if_neg hkey] at href
        exact referred_encoderUnder hnodup rest h href

end

/-- The classes of a described member are among its references. -/
theorem MemberOf.referred {names : List String} (hnodup : names.Nodup) {className : String}
    {node : Flow} {entry : MemberMap} (h : MemberOf (classesOf names) className (some node) entry)
    {references : List String} (href : node.references = .ok references) :
    ∀ c ∈ entry.encoder.classes, Referred names references c :=
  referred_encoderOf hnodup node h.encoder href

theorem MemberOf.isSome {classes : DeclaredClasses} {className : String} {node : Option Flow}
    {entry : MemberMap} (h : MemberOf classes className node entry) : ∃ found, node = some found := by
  cases node with
  | none => cases h.named
  | some found => exact ⟨found, rfl⟩

/-- The classes of all members of a described class are among its references. -/
theorem Defines.referred {names : List String} (hnodup : names.Nodup) {node : Option Flow}
    {map : ClassMap} (h : Defines (classesOf names) node map) {references : List String}
    (href : classReferences node = .ok references) {entry : MemberMap}
    (hentry : entry ∈ map.members) : ∀ c ∈ entry.encoder.classes, Referred names references c := by
  obtain ⟨part, hpart, hmember⟩ := exists_of_forall₂_mem h.members hentry
  obtain ⟨member, rfl⟩ := hmember.isSome
  unfold membersOf at hpart
  unfold classReferences at href
  cases hmembers : node.bind (·.get? "members") with
  | none => simp [hmembers] at hpart
  | some members =>
      rw [hmembers] at hpart href
      cases members with
      | sequence items =>
          obtain ⟨all, hall, ⟨⟩⟩ := bind_eq_ok.mp href
          have hitem : member ∈ items := by simpa [Flow.visited] using hpart
          obtain ⟨own, hown, hreferences⟩ :=
            exists_of_forall₂_mem (List.Forall₂.flip (mapM_eq_ok_iff.mp hall)) hitem
          exact fun c hc => (hmember.referred hnodup hreferences c hc).mono
            fun name hname => List.mem_flatten_of_mem hown hname
      | _ => simp [Flow.visited] at hpart

theorem mem_ordered {name : String} {names : List String} :
    name ∈ ReferenceGraph.ordered names ↔ name ∈ names := by
  simp [ReferenceGraph.ordered]

theorem refers_graphOf {names : List String} (hnodup : names.Nodup)
    {references : List (List String)} (hlength : references.length = names.length)
    (place : Nat) {className name : String} {own : List String}
    (hclass : names[place]? = some className) (hown : references[place]? = some own)
    (hname : name ∈ own) : (graphOf names references).Refers className name := by
  have hkeys : ((graphOf names references).map Prod.fst).Nodup := by
    rw [graphOf, List.map_fst_zip (by simp [hlength])]
    exact hnodup
  have hentry : (graphOf names references)[place]?
      = some (className, ReferenceGraph.ordered own) := by
    simp [graphOf, List.getElem?_zip_eq_some, hclass, hown]
  exact ⟨_, lookup_of_mem hkeys (List.mem_of_getElem? hentry), mem_ordered.mpr hname⟩

/-- The members of some class maps are made of classes of the maps, and these are
references in a graph. -/
def Linked (graph : ReferenceGraph) (maps : List ClassMap) : Prop :=
  ∀ map ∈ maps, ∀ entry ∈ map.members, ∀ c ∈ entry.encoder.classes,
    ∃ (position : Nat) (inner : ClassMap), maps[position]? = some inner ∧
      c = encoderAt inner.className position ∧ graph.Refers map.className inner.className

/-- The classes of a model are linked by a graph without cycles. -/
theorem Describes.linked {descriptions : List (Option Flow)} {maps : List ClassMap}
    (h : Describes descriptions maps) :
    ∃ graph : ReferenceGraph, graph.Acyclic ∧ Linked graph maps := by
  obtain ⟨references, hreferences, hacyclic⟩ := h.acyclic
  refine ⟨_, hacyclic, fun map hmem entry hentry c hc => ?_⟩
  obtain ⟨place, hmap⟩ := List.mem_iff_getElem?.mp hmem
  have hlength : references.length = (maps.map ClassMap.className).length := by
    rw [List.length_map, ← hreferences.length_eq, h.defines.length_eq]
  have hplace : place < maps.length := (List.getElem?_eq_some_iff.mp hmap).1
  have hdescribed : place < descriptions.length := by rwa [h.defines.length_eq]
  have hcollected : place < references.length := by rwa [← hreferences.length_eq]
  have hdefines : Defines (classesOf (maps.map ClassMap.className)) descriptions[place] map := by
    have hget := h.defines.get hdescribed hplace
    rwa [← (List.getElem?_eq_some_iff.mp hmap).2]
  have hcollects := hreferences.get hdescribed hcollected
  obtain ⟨name, position, hposition, rfl, hown⟩ :=
    hdefines.referred h.distinct hcollects hentry c hc
  obtain ⟨inner, hinner, rfl⟩ : ∃ inner, maps[position]? = some inner ∧ inner.className = name := by
    simpa using hposition
  refine ⟨position, inner, hinner, rfl, ?_⟩
  refine refers_graphOf h.distinct hlength place ?_ ?_ hown
  · simp [hmap]
  · simp [hcollected]

end Declaration

end QueryFilter
