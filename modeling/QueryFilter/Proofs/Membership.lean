import QueryFilter.Compile.Predicate
import QueryFilter.Proofs.Location
import QueryFilter.Proofs.Stored

/-!
Questions about the keys and the values of a dictionary. The filter of such a
question asks the stored dictionary for what an entry of the native one is
stored as, in each layout that can answer.
-/

namespace QueryFilter

/-- The layouts that store entries as the items of an array, with the step
from such an item to the value of the entry. -/
inductive Layout.ValueAt : Layout → String → Prop where
  | documents : ValueAt .arrayOfDocuments "v"
  | arrays : ValueAt .arrayOfArrays "1"

theorem Layout.valueStep?_of_valueAt {layout : Layout} {step : String}
    (h : layout.ValueAt step) : layout.valueStep? = some step := by
  cases h <;> rfl

theorem Layout.ValueAt.isPlain {layout : Layout} {step : String} (h : layout.ValueAt step) :
    IsPlain step := by
  cases h <;> exact ⟨by decide, by decide, by decide⟩

/-! ### Entries of stored dictionaries -/

namespace ClassMaps

open List

variable {maps : ClassMaps} {key value : Encoder} {v d : Json}

theorem isSome_eq_of_rel {α β : Type} {R : α → β → Prop} {x : Option α} {y : Option β}
    (h : Option.Rel R x y) : x.isSome = y.isSome := by
  cases h <;> rfl

theorem exists_mem_of_forall₂ {α β : Type} {R : α → β → Prop} {xs : List α} {ys : List β}
    (h : Forall₂ R xs ys) {p : α → Prop} {q : β → Prop} (hpq : ∀ x y, R x y → (p x ↔ q y)) :
    (∃ y ∈ ys, q y) ↔ ∃ x ∈ xs, p x := by
  induction h with
  | nil => simp
  | cons hxy _ ih => simp only [List.exists_mem_cons_iff, ih, hpq _ _ hxy]

/-- A stored document has an element for exactly the keys of the native
dictionary. -/
theorem isSome_step?_iff (h : maps.encode (.dictionary .document key value) v = .ok d)
    (text : String) :
    (d.step? text).isSome = true ↔
      ∃ entry ∈ v.entries, maps.keyText? key entry.1 = some text := by
  rw [← isSome_eq_of_rel (rel_entry h text), entry?, Option.isSome_map, List.find?_isSome]
  simp only [List.mem_reverse, beq_iff_eq]

/-- An entry of a dictionary and an item of an array that has its value at the
step. -/
def StoresValue (maps : ClassMaps) (value : Encoder) (step : String) (entry : Json × Json)
    (item : Json) : Prop :=
  ∃ u, maps.encode value entry.2 = .ok u ∧ item.step? step = some u

theorem forall₂_store_array {layout : Layout} {step : String} (hstep : layout.ValueAt step)
    {entries stored : List (Json × Json)}
    (h : Forall₂ (maps.StoresEntry layout key value) entries stored) :
    ∃ items, layout.store stored = .array items ∧
      Forall₂ (maps.StoresValue value step) entries items := by
  cases hstep with
  | documents =>
      refine ⟨_, rfl, forall₂_map_right_iff.mpr (h.imp fun entry element hentry => ?_)⟩
      exact ⟨element.2, hentry.2.2, rfl⟩
  | arrays =>
      refine ⟨_, rfl, forall₂_map_right_iff.mpr (h.imp fun entry element hentry => ?_)⟩
      exact ⟨element.2, hentry.2.2, Json.step?_array _ 1⟩

/-- Outside documents a dictionary is null or is stored entry by entry. -/
theorem encode_entries_eq_ok {layout : Layout} {step : String} (hstep : layout.ValueAt step)
    (h : maps.encode (.dictionary layout key value) v = .ok d) :
    (v = .null ∧ d = .null) ∨ ∃ items, d = .array items ∧
      Forall₂ (maps.StoresValue value step) v.entries items := by
  obtain hnull | ⟨stored, rfl, hstored⟩ := encode_dictionary_eq_ok h
  · exact .inl hnull
  · exact .inr (forall₂_store_array hstep hstored)

/-- Whether a native dictionary has an entry whose value is stored as `w`. -/
def HasValue (maps : ClassMaps) (value : Encoder) (v w : Json) : Prop :=
  ∃ entry ∈ v.entries, ∃ u, maps.encode value entry.2 = .ok u ∧ u.same w = true

/-- Some item of a stored dictionary has a value at its step exactly if some
entry of the native one has a value that is stored as such. -/
theorem exists_walk_iff {layout : Layout} {step : String} (hstep : layout.ValueAt step)
    (h : maps.encode (.dictionary layout key value) v = .ok d) (w : Json) :
    (∃ (n : Nat) (u : Json), d.walk [toString n, step] = some u ∧ u.same w = true) ↔
      maps.HasValue value v w := by
  obtain ⟨rfl, rfl⟩ | ⟨items, rfl, hitems⟩ := encode_entries_eq_ok hstep h
  · simp [Json.walk, Json.step?, HasValue, Json.entries]
  · have hwalk (n : Nat) : (Json.array items).walk [toString n, step]
        = items[n]?.bind (·.step? step) := by
      rw [Json.walk_cons, Json.step?_array]
      simp only [Json.walk_singleton]
    have hitem : (∃ item ∈ items, ∃ u, item.step? step = some u ∧ u.same w = true) ↔
        maps.HasValue value v w := by
      refine exists_mem_of_forall₂ hitems fun entry item => ?_
      rintro ⟨u, hu, hitem⟩
      simp only [hu, hitem, Option.some.injEq, Except.ok.injEq]
    simp only [hwalk, Option.bind_eq_some_iff]
    rw [← hitem]
    constructor
    · rintro ⟨n, u, ⟨item, hn, hu⟩, hsame⟩
      exact ⟨item, List.mem_of_getElem? hn, u, hu, hsame⟩
    · rintro ⟨item, hmem, u, hu, hsame⟩
      obtain ⟨n, hn⟩ := List.mem_iff_getElem?.mp hmem
      exact ⟨n, u, ⟨item, hn, hu⟩, hsame⟩

end ClassMaps

/-! ### Filters about stored dictionaries -/

/-- A test of the values of a stored dictionary holds exactly if some entry of
the native one has the value. -/
theorem Interpretation.Reads.holds_values {I : Interpretation Json} (hI : I.Reads)
    {maps : ClassMaps} {layout : Layout} {step : String} (hstep : layout.ValueAt step)
    {key value : Encoder} {v d : Json}
    (h : maps.encode (.dictionary layout key value) v = .ok d) {path : Path} {document : Json}
    (hat : document.at? path.field = some d) (w : Json) :
    (Filter.elemMatch path (.test ⟨[step]⟩ (.eq w))).holds I document = true ↔
      maps.HasValue value v w := by
  have hplain : Path.Plain ⟨[step]⟩ := Path.plain_child Path.plain_root hstep.isPlain
  have hvalue (item : Json) : (Filter.test ⟨[step]⟩ (.eq w)).holds I item
      = ((item.step? step).getD .null).same w := by
    change (I.holds item (Path.field ⟨[step]⟩) (.eq w) == true) = _
    rw [hI.equality, Json.at?_field item hplain, Json.walk_singleton, beq_true]
  rw [Filter.holds, List.any_eq_true]
  simp only [hvalue]
  obtain ⟨rfl, rfl⟩ | ⟨items, rfl, hitems⟩ := ClassMaps.encode_entries_eq_ok hstep h
  · rw [hI.noItems document path.field (by rw [hat]; rfl)]
    simp [ClassMaps.HasValue, Json.entries]
  · rw [hI.items document path.field items hat]
    refine ClassMaps.exists_mem_of_forall₂ hitems fun entry item => ?_
    rintro ⟨u, hu, hitem⟩
    simp only [hu, hitem, Option.getD_some, Except.ok.injEq, exists_eq_left']

/-! ### Questions about dictionaries -/

namespace Compile

variable {s : Scope}

theorem keyText_eq_ok_iff (s : Scope) (c : Call) (k : Json) (type : Ty) (encoder : Encoder)
    (text : String) :
    keyText s c (.const k type) encoder = .ok text ↔
      s.model.maps.keyText? encoder k = some text := by
  unfold keyText ClassMaps.keyText?
  dsimp only [Expr.const?]
  cases s.model.maps.encode encoder k with
  | error error => exact iff_of_false (by rintro ⟨⟩) (by rintro ⟨⟩)
  | ok stored =>
      cases stored with
      | string key => exact ⟨fun h => by cases h; rfl, fun h => by cases h; rfl⟩
      | _ => exact iff_of_false (by rintro ⟨⟩) (by rintro ⟨⟩)

/-- A document that is asked for a key is asked for the element that entries
with the key are stored as. -/
theorem containsKey_eq_ok_iff {receiver : Expr} {f : Field} (hfield : field s receiver = .ok f)
    {key value : Encoder} (hencoder : f.encoder = .dictionary .document key value) {m : Method}
    (hm : m.isContainsKey = true) (k : Json) (type : Ty) (g : Filter) :
    containsKey s ⟨some receiver, m, [.const k type]⟩ = .ok g ↔
      ∃ text, s.model.maps.keyText? key k = some text ∧
        g = .test (f.path.child text) (.presence true) := by
  have hcall : containsKey s ⟨some receiver, m, [.const k type]⟩
      = keyText s ⟨some receiver, m, [.const k type]⟩ (.const k type) key >>= fun text =>
          pure (.test (f.path.child text) (.presence true)) := by
    simp only [containsKey, hm, Call.operands?, hfield, ok_bind, hencoder]
  rw [hcall, bind_eq_ok]
  simp only [keyText_eq_ok_iff]
  exact exists_congr fun text => and_congr_right fun _ =>
    ⟨fun h => (Except.ok.inj h).symm, fun h => congrArg Except.ok h.symm⟩

theorem containsKey_of_valueAt {receiver : Expr} {f : Field} (hfield : field s receiver = .ok f)
    {layout : Layout} {step : String} (hstep : layout.ValueAt step) {key value : Encoder}
    (hencoder : f.encoder = .dictionary layout key value) {m : Method}
    (hm : m.isContainsKey = true) (arg : Expr) :
    containsKey s ⟨some receiver, m, [arg]⟩
      = (Expr.call (some receiver) m [arg]).refuse (.methodLayout "ContainsKey" layout) := by
  cases hstep <;>
    simp only [containsKey, hm, Call.operands?, hfield, ok_bind, hencoder] <;> rfl

/-- An array of entries that is asked for a value is asked for an item with the
stored value at the step. -/
theorem containsValue_of_valueAt {receiver : Expr} {f : Field}
    (hfield : field s receiver = .ok f) {layout : Layout} {step : String}
    (hstep : layout.ValueAt step) {key value : Encoder}
    (hencoder : f.encoder = .dictionary layout key value) {m : Method}
    (hm : m.isContainsValue = true) (c : Json) (type : Ty) :
    containsValue s ⟨some receiver, m, [.const c type]⟩
      = s.encode value c (some (.call (some receiver) m [.const c type])) >>= fun w =>
          pure (.elemMatch f.path (.test ⟨[step]⟩ (.eq w))) := by
  simp only [containsValue, hm, Call.operands?, hfield, ok_bind, hencoder,
    Layout.valueStep?_of_valueAt hstep]
  rfl

theorem containsValue_of_document {receiver : Expr} {f : Field}
    (hfield : field s receiver = .ok f) {key value : Encoder}
    (hencoder : f.encoder = .dictionary .document key value) {m : Method}
    (hm : m.isContainsValue = true) (arg : Expr) :
    containsValue s ⟨some receiver, m, [arg]⟩
      = (Expr.call (some receiver) m [arg]).refuse (.methodLayout "ContainsValue" .document) := by
  simp only [containsValue, hm, Call.operands?, hfield, ok_bind, hencoder]
  rfl

/-- A question about the keys of a dictionary, where it is not too deep. -/
theorem expression_containsKey (hdepth : s.depth < s.maxDepth) {m : Method}
    (hm : m.isContainsKey = true) (receiver arg : Expr) :
    expression s (.call (some receiver) m [arg])
      = containsKey s.descend ⟨some receiver, m, [arg]⟩ := by
  rw [expression_call hdepth, call, Method.shape?_of_isContainsKey hm]

theorem expression_containsValue (hdepth : s.depth < s.maxDepth) {m : Method}
    (hm : m.isContainsValue = true) (receiver arg : Expr) :
    expression s (.call (some receiver) m [arg])
      = containsValue s.descend ⟨some receiver, m, [arg]⟩ := by
  rw [expression_call hdepth, call, Method.shape?_of_isContainsValue hm]

/-- The filter of a question about a dictionary asks the stored dictionary for
what an entry of the native one is stored as. A document is asked for keys, and
only for those that are stored as strings; an array of entries is asked for
values, and only for those that the encoder accepts. The other questions are
refused, whatever they ask for. -/
theorem membership_asks_stored (hdepth : s.depth < s.maxDepth) {receiver : Expr} {f : Field}
    (hfield : field s receiver = .ok f) {layout : Layout} {key value : Encoder}
    (hencoder : f.encoder = .dictionary layout key value) {keys values : Method}
    (hkeys : keys.isContainsKey = true) (hvalues : values.isContainsValue = true) {v d : Json}
    (hstored : s.model.maps.encode f.encoder v = .ok d) :
    (layout = .document →
      (∀ k type g, expression s (.call (some receiver) keys [.const k type]) = .ok g ↔
        ∃ text, s.model.maps.keyText? key k = some text ∧
          g = .test (f.path.child text) (.presence true)) ∧
      (∀ text, (d.step? text).isSome = true ↔
        ∃ entry ∈ v.entries, s.model.maps.keyText? key entry.1 = some text) ∧
      ∀ arg, ∃ e, expression s (.call (some receiver) values [arg]) = .error e ∧
        e.kind = .unsupportedRepresentation) ∧
    ∀ step, layout.ValueAt step →
      (∀ c type g, expression s (.call (some receiver) values [.const c type]) = .ok g ↔
        ∃ w, s.model.maps.encode value c = .ok w ∧
          g = .elemMatch f.path (.test ⟨[step]⟩ (.eq w))) ∧
      (∀ w, (∃ (n : Nat) (u : Json), d.walk [toString n, step] = some u ∧ u.same w = true) ↔
        s.model.maps.HasValue value v w) ∧
      (∀ (I : Interpretation Json) (document w : Json), I.Reads →
        document.at? f.path.field = some d →
        ((Filter.elemMatch f.path (.test ⟨[step]⟩ (.eq w))).holds I document = true ↔
          s.model.maps.HasValue value v w)) ∧
      ∀ arg, ∃ e, expression s (.call (some receiver) keys [arg]) = .error e ∧
        e.kind = .unsupportedRepresentation := by
  rw [← field_descend] at hfield
  rw [hencoder] at hstored
  refine ⟨?document, fun step hstep => ⟨fun c type g => ?_, ?_, ?_, fun arg => ?_⟩⟩
  case document =>
    rintro rfl
    refine ⟨fun k type g => ?_, ClassMaps.isSome_step?_iff hstored, fun arg => ?_⟩
    · rw [expression_containsKey hdepth hkeys]
      exact containsKey_eq_ok_iff hfield hencoder hkeys k type g
    · rw [expression_containsValue hdepth hvalues,
        containsValue_of_document hfield hencoder hvalues]
      exact ⟨_, rfl, rfl⟩
  · rw [expression_containsValue hdepth hvalues,
      containsValue_of_valueAt hfield hstep hencoder hvalues, bind_eq_ok]
    simp only [Scope.encode, mapError_eq_ok]
    exact exists_congr fun w => and_congr_right fun _ =>
      ⟨fun h => (Except.ok.inj h).symm, fun h => congrArg Except.ok h.symm⟩
  · exact ClassMaps.exists_walk_iff hstep hstored
  · intro I document w hI hat
    exact hI.holds_values hstep hstored hat w
  · rw [expression_containsKey hdepth hkeys,
      containsKey_of_valueAt hfield hstep hencoder hkeys]
    exact ⟨_, rfl, rfl⟩

/-- A class with a dictionary of numbers, which are stored as text in pairs. -/
def counted : Model where
  schema := .empty
  maps := ⟨[⟨"Post", [⟨"Counts", "c",
    .dictionary .arrayOfArrays .string (.integer .int32 .string)⟩]⟩]⟩
  registry := .empty

theorem membership_asks_stored_counted :
    let root : Encoder := .document "Post" none 0
    let s := Scope.document counted 64 "x" root 0
    let receiver : Expr := .member (.param "x" root.valueType) "Counts" none
    let question := Method.containsValue (.dictionary .string .int32)
    let v : Json := .array [.array [.string "a", .int 1], .array [.string "a", .int 2]]
    let d : Json := .array [.array [.string "a", .string "1"], .array [.string "a", .string "2"]]
    let g : Filter := .elemMatch ⟨["c"]⟩ (.test ⟨["1"]⟩ (.eq (.string "2")))
    expression s (.call (some receiver) question [.const (.int 2) .int32]) = .ok g ∧
      s.model.maps.encode (.dictionary .arrayOfArrays .string (.integer .int32 .string)) v
        = .ok d ∧
      g.holds .ofStored (.object [("c", d)]) = true := by
  intro root s receiver question v d g
  let f : Field := ⟨⟨["c"]⟩, .dictionary .arrayOfArrays .string (.integer .int32 .string)⟩
  have hfield : field s receiver = .ok f := rfl
  have hstored : s.model.maps.encode f.encoder v = .ok d := rfl
  have hkeys : (Method.containsKey (.dictionary .string .int32)).isContainsKey = true := by decide
  have hvalues : question.isContainsValue = true := by decide
  have hmembership :=
    (membership_asks_stored (by decide) hfield rfl hkeys hvalues hstored).2 "1" .arrays
  have hplain : f.path.Plain :=
    Path.plain_child Path.plain_root ⟨by decide, by decide, by decide⟩
  have hat : (Json.object [("c", d)]).at? f.path.field = some d := Json.at?_field _ hplain
  have hvalue : s.model.maps.HasValue (.integer .int32 .string) v (.string "2") :=
    ⟨(.string "a", .int 2), by simp [v, Json.entries, Json.pair?], .string "2", rfl, rfl⟩
  refine ⟨(hmembership.1 _ _ g).mpr ⟨.string "2", rfl, rfl⟩, hstored, ?_⟩
  exact (hmembership.2.2.1 .ofStored _ _ Interpretation.reads_ofStored hat).mpr hvalue

end Compile

end QueryFilter
