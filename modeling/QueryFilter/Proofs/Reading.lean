import QueryFilter.Json.Fields
import QueryFilter.Proofs.Query

/-!
Rendering keeps the meaning of filters: the query document of a filter holds
of exactly the items that the filter holds of. The operator documents of tests
are read first, then their unions inside `$elemMatch`, then whole filters.
-/

namespace QueryFilter

namespace Filter

mutual

/-- The paths of all field operations, also inside `elemMatch`. -/
def paths : Filter → List Path
  | .test path _ => [path]
  | .elemMatch path body => path :: paths body
  | .and filters => allPaths filters
  | .or filters => allPaths filters
  | .nor filters => allPaths filters
  | .not filter => paths filter
  | .everything => []
  | .nothing => []

def allPaths : List Filter → List Path
  | [] => []
  | f :: fs => paths f ++ allPaths fs

end

end Filter

namespace Query

variable {Item : Type} (I : Interpretation Item)

/-! Operator documents. -/

theorem operatorsHold_eq (x : Item) (field : Option String) (whole fields : Fields) :
    operatorsHold I x field whole fields
      = fields.all fun f => operatorHolds I x field whole f.1 f.2 := by
  induction fields with
  | nil => rfl
  | cons f fs ih => simp [operatorsHold, ih]

theorem operatorHolds_atom (x : Item) (field : Option String) (whole : Fields) {key : String}
    (value : Json) (hnot : key ≠ "$not") (helem : key ≠ "$elemMatch") :
    operatorHolds I x field whole key value = atomHolds I x field whole key value := by
  cases value <;> simp [operatorHolds, hnot, helem]

/-- A document of one operator that asks for a test. -/
theorem operatorsHold_single (x : Item) (field : Option String) {key : String} {value : Json}
    {expected : Bool} {t : Test} (hplain : key ∉ ["$not", "$elemMatch", "$options"])
    (h : atom? "" key value = some (expected, t)) :
    operatorsHold I x field [(key, value)] [(key, value)] = (I.holds x field t == expected) := by
  simp only [List.mem_cons, List.not_mem_nil, or_false, not_or] at hplain
  obtain ⟨hnot, helem, hoptions⟩ := hplain
  have hkey : ("$options" == key) = false := by simpa using Ne.symm hoptions
  have hnone : options [(key, value)] = "" := by
    simp [options, Fields.get?, List.lookup_cons, hkey]
  rw [operatorsHold_eq, List.all_cons, List.all_nil, Bool.and_true,
    operatorHolds_atom I x field _ value hnot helem]
  simp [atomHolds, hnone, h]

theorem operatorsHold_negatedFields (x : Item) (field : Option String) (fields : Fields) :
    operatorsHold I x field (Test.negatedFields fields) (Test.negatedFields fields)
      = !operatorsHold I x field fields fields := by
  simp [Test.negatedFields, operatorsHold, operatorHolds]

/-- The operator document of a test says what the test says. -/
theorem operatorsHold_document (x : Item) (field : Option String) (t : Test) :
    operatorsHold I x field t.document t.document = Filter.testHolds I x field t := by
  cases t with
  | compare how value => cases how <;> exact operatorsHold_single I x field (by decide) rfl
  | regex pattern o =>
      by_cases h : o = ""
      · subst h
        exact operatorsHold_single I x field (by decide) rfl
      · -- the options are an operator of their own, which says nothing here
        simp [Test.document, h, operatorsHold, operatorHolds, atomHolds, atom?, options,
          Fields.get?, Filter.testHolds, Test.polarity]
  | size length =>
      have hatom : atom? "" "$size" (.int length) = some (true, .size length) := by simp [atom?]
      exact operatorsHold_single I x field (by decide) hatom
  | presence | oneOf | noneOf | mod => exact operatorsHold_single I x field (by decide) rfl

/-- The negated operator document of a test says the opposite. -/
theorem operatorsHold_negated (x : Item) (field : Option String) (t : Test) :
    operatorsHold I x field t.negated t.negated = !Filter.testHolds I x field t := by
  have hflip (a b : Bool) : (a == !b) = !(a == b) := by cases a <;> cases b <;> rfl
  -- tests without an opposite of their own are put under `$not`
  have hdefault : operatorsHold I x field (Test.negatedFields t.document)
      (Test.negatedFields t.document) = !Filter.testHolds I x field t := by
    rw [operatorsHold_negatedFields, operatorsHold_document]
  cases t with
  | presence | oneOf | noneOf =>
      rw [Filter.testHolds, ← hflip]
      exact operatorsHold_single I x field (by decide) rfl
  | compare how value =>
      cases how with
      | eq | ne =>
          rw [Filter.testHolds, ← hflip]
          exact operatorsHold_single I x field (by decide) rfl
      | lt | le | gt | ge => exact hdefault
  | regex | size | mod => exact hdefault

/-- What an item of an array must satisfy under `$elemMatch`. -/
def elementHolds (y : Item) (fields : Fields) : Bool :=
  if isOperatorDocument fields then operatorsHold I y none fields fields else fieldsHold I y fields

theorem operatorsHold_elemMatchFields (x : Item) (field : Option String) (fields : Fields) :
    operatorsHold I x field (Filter.elemMatchFields (.object fields))
        (Filter.elemMatchFields (.object fields))
      = (I.items x field).any fun y => elementHolds I y fields := by
  simp [Filter.elemMatchFields, operatorsHold, operatorHolds, elementHolds]

/-! Operator documents are told from queries by their keys. -/

theorem isOperatorDocument_single {key : String} (value : Json) (h : isOperator key = true) :
    isOperatorDocument [(key, value)] = true := by
  simp [isOperatorDocument, h]

theorem isOperatorDocument_document (t : Test) : isOperatorDocument t.document = true := by
  cases t with
  | compare how value => cases how <;> exact isOperatorDocument_single _ (by decide)
  | regex pattern o =>
      have hregex : isOperator "$regex" = true := by decide
      have hoptions : isOperator "$options" = true := by decide
      by_cases h : o = "" <;> simp [Test.document, h, isOperatorDocument, hregex, hoptions]
  | presence | oneOf | noneOf | size | mod => exact isOperatorDocument_single _ (by decide)

theorem isOperatorDocument_negatedFields (fields : Fields) :
    isOperatorDocument (Test.negatedFields fields) = true :=
  isOperatorDocument_single _ (by decide)

theorem isOperatorDocument_negated (t : Test) : isOperatorDocument t.negated = true := by
  cases t with
  | compare how value => cases how <;> exact isOperatorDocument_single _ (by decide)
  | presence | oneOf | noneOf => exact isOperatorDocument_single _ (by decide)
  | regex | size | mod => exact isOperatorDocument_negatedFields _

theorem isOperatorDocument_elemMatchFields (body : Json) :
    isOperatorDocument (Filter.elemMatchFields body) = true :=
  isOperatorDocument_single _ (by decide)

/-! Fields with their conditions. -/

theorem fieldHolds_value (x : Item) {key : String} {value : Json} (hkey : isReserved key = false)
    (hvalue : value.isObject = false) :
    fieldHolds I x key value = I.holds x (some key) (.eq value) := by
  have hne {other : String} (h : isReserved other = true) : key ≠ other := by
    rintro rfl
    simp [h] at hkey
  cases value with
  | array parts =>
      have hand : key ≠ "$and" := hne (by decide)
      have hor : key ≠ "$or" := hne (by decide)
      have hnor : key ≠ "$nor" := hne (by decide)
      simp [fieldHolds, hkey, hand, hor, hnor]
  | object fields => simp [Json.isObject] at hvalue
  | null | bool | int | float | string => simp [fieldHolds, hkey]

theorem fieldHolds_operators (x : Item) {key : String} {operators : Fields}
    (hkey : isReserved key = false) (hop : isOperatorDocument operators = true) :
    fieldHolds I x key (.object operators) = operatorsHold I x (some key) operators operators := by
  simp [fieldHolds, hkey, hop]

/-- The short form of an equality is never taken for an operator document. -/
theorem fieldHolds_shortForm (x : Item) {key : String} {operators : Fields}
    (hkey : isReserved key = false) (hop : isOperatorDocument operators = true)
    (heq : ∀ value, operators.get? "$eq" = some value → operators = [("$eq", value)]) :
    fieldHolds I x key (Filter.shortForm operators)
      = operatorsHold I x (some key) operators operators := by
  unfold Filter.shortForm
  split
  · rename_i value hvalue
    split
    · exact fieldHolds_operators I x hkey hop
    · rename_i hobject
      rw [heq value hvalue, operatorsHold_single I x (some key) (by decide) rfl,
        fieldHolds_value I x hkey (by simpa using hobject)]
      exact (beq_true _).symm
  · exact fieldHolds_operators I x hkey hop

theorem document_of_get?_eq (t : Test) (value : Json)
    (h : Fields.get? t.document "$eq" = some value) : t.document = [("$eq", value)] := by
  cases t with
  | compare how stored =>
      cases how <;>
        simp_all [Test.document, Fields.get?, List.lookup_cons, Comparison.operator]
  | regex pattern o =>
      by_cases ho : o = "" <;>
        simp [Test.document, ho, Fields.get?, List.lookup_cons] at h
  | presence | oneOf | noneOf | size | mod =>
      simp [Test.document, Fields.get?, List.lookup_cons] at h

theorem negated_of_get?_eq (t : Test) (value : Json)
    (h : Fields.get? t.negated "$eq" = some value) : t.negated = [("$eq", value)] := by
  cases t with
  | compare how stored =>
      cases how <;> simp_all [Test.negated, Test.negatedFields, Fields.get?, List.lookup_cons]
  | presence | oneOf | noneOf | regex | size | mod =>
      simp [Test.negated, Test.negatedFields, Fields.get?, List.lookup_cons] at h

/-! Unions of operator documents. -/

/-- Options stand beside a regular expression only. -/
def Closed (operators : Fields) : Prop :=
  operators.get? "$regex" = none → operators.get? "$options" = none

theorem joinFields_eq_some {left right merged : Fields}
    (h : Filter.joinFields left right = some merged) :
    (∀ f ∈ right, left.get? f.1 = none) ∧
      merged = right.foldl (fun fields field => fields.insert field.1 field.2) left := by
  unfold Filter.joinFields at h
  split at h
  · contradiction
  · rename_i hany
    refine ⟨fun f hf => ?_, (Option.some.inj h).symm⟩
    have hf' : ¬(left.get? f.1).isSome = true := fun hs => hany (List.any_eq_true.mpr ⟨f, hf, hs⟩)
    simpa using hf'

theorem joinFields_perm {left right merged : Fields}
    (h : Filter.joinFields left right = some merged) (hright : (right.map (·.1)).Nodup) :
    merged.Perm (left ++ right) := by
  obtain ⟨hnew, rfl⟩ := joinFields_eq_some h
  exact Fields.foldl_insert_perm right left hright hnew

theorem all_joinFields {left right merged : Fields} (h : Filter.joinFields left right = some merged)
    (hright : (right.map (·.1)).Nodup) (p : String × Json → Bool) :
    merged.all p = (left.all p && right.all p) := by
  rw [(joinFields_perm h hright).all_eq, List.all_append]

theorem get?_joinFields {left right merged : Fields}
    (h : Filter.joinFields left right = some merged) (hright : (right.map (·.1)).Nodup)
    (key : String) : merged.get? key = (right.get? key).or (left.get? key) := by
  obtain ⟨-, rfl⟩ := joinFields_eq_some h
  rw [Fields.get?_foldl_insert, Fields.last?_eq_get? right key hright]

theorem closed_joinFields {left right merged : Fields}
    (h : Filter.joinFields left right = some merged) (hright : (right.map (·.1)).Nodup)
    (hl : Closed left) (hr : Closed right) : Closed merged := by
  intro hnone
  rw [get?_joinFields h hright, Option.or_eq_none_iff] at hnone ⊢
  exact ⟨hr hnone.1, hl hnone.2⟩

theorem atom?_congr (o o' : String) {key : String} (value : Json) (h : key ≠ "$regex") :
    atom? o key value = atom? o' key value := by
  unfold atom?
  split <;> first | rfl | contradiction

/-- Of the rest of its document only the options matter to an operator, and
only to a regular expression. -/
theorem operatorHolds_congr (x : Item) (field : Option String) {whole other : Fields}
    {key : String} (value : Json)
    (hregex : key = "$regex" → whole.get? "$options" = other.get? "$options")
    (hoptions : key = "$options" → (whole.get? "$regex").isSome = (other.get? "$regex").isSome) :
    operatorHolds I x field whole key value = operatorHolds I x field other key value := by
  have hatom : atom? (options whole) key value = atom? (options other) key value := by
    by_cases hr : key = "$regex"
    · rw [options, options, hregex hr]
    · exact atom?_congr _ _ value hr
  have hnone : (key == "$options" && (whole.get? "$regex").isSome)
      = (key == "$options" && (other.get? "$regex").isSome) := by
    by_cases ho : key = "$options"
    · rw [hoptions ho]
    · have hne : (key == "$options") = false := by simpa using ho
      simp [hne]
  cases value <;> simp only [operatorHolds, atomHolds, hatom, hnone]

theorem all_congr_mem {fields : Fields} {p q : String × Json → Bool}
    (h : ∀ f ∈ fields, p f = q f) : fields.all p = fields.all q := by
  rw [Bool.eq_iff_iff, List.all_eq_true, List.all_eq_true]
  exact forall₂_congr fun f hf => by rw [h f hf]

/-- The union of two operator documents says what both say: an operator keeps
its options, since options come with their regular expression. -/
theorem operatorsHold_joinFields (x : Item) (field : Option String) {left right merged : Fields}
    (h : Filter.joinFields left right = some merged) (hright : (right.map (·.1)).Nodup)
    (hl : Closed left) (hr : Closed right) :
    operatorsHold I x field merged merged
      = (operatorsHold I x field left left && operatorsHold I x field right right) := by
  have hget := get?_joinFields h hright
  have hnew := (joinFields_eq_some h).1
  have hleft : ∀ f ∈ left, operatorHolds I x field merged f.1 f.2
      = operatorHolds I x field left f.1 f.2 := by
    intro f hf
    have hmem := Fields.get?_ne_none_of_mem hf
    refine operatorHolds_congr I x field f.2 (fun hkey => ?_) fun hkey => ?_
    · -- the regular expression is on the left, so the right has no options
      have hnone : right.get? "$regex" = none :=
        Fields.get?_eq_none fun g hg he => hmem (by rw [hkey, ← he]; exact hnew g hg)
      rw [hget, hr hnone, Option.none_or]
    · have hregex : left.get? "$regex" ≠ none := fun hno => hmem (hkey ▸ hl hno)
      rw [hget, Option.isSome_or, Option.isSome_iff_ne_none.mpr hregex, Bool.or_true]
  have hright' : ∀ f ∈ right, operatorHolds I x field merged f.1 f.2
      = operatorHolds I x field right f.1 f.2 := by
    intro f hf
    refine operatorHolds_congr I x field f.2 (fun hkey => ?_) fun hkey => ?_
    · -- the left has no regular expression, hence no options that could join this one
      rw [hget, hl (hkey ▸ hnew f hf), Option.or_none]
    · have hregex : right.get? "$regex" ≠ none :=
        fun hno => Fields.get?_ne_none_of_mem hf (hkey ▸ hr hno)
      rw [hget, Option.isSome_or, Option.isSome_iff_ne_none.mpr hregex, Bool.true_or]
  rw [operatorsHold_eq, operatorsHold_eq, operatorsHold_eq, all_joinFields h hright,
    all_congr_mem hleft, all_congr_mem hright']

theorem isOperatorDocument_joinFields {left right merged : Fields}
    (h : Filter.joinFields left right = some merged) (hright : (right.map (·.1)).Nodup)
    (hl : left.all (fun f => isOperator f.1) = true) (hr : isOperatorDocument right = true) :
    isOperatorDocument merged = true := by
  simp only [isOperatorDocument, Bool.and_eq_true, Bool.not_eq_true'] at hr ⊢
  refine ⟨?_, by rw [all_joinFields h hright, hl, hr.2, Bool.and_true]⟩
  have hempty := all_joinFields h hright fun _ => false
  cases merged with
  | nil => cases right <;> simp at hr hempty
  | cons f fs => rfl

theorem closed_single {key : String} (value : Json) (h : key ≠ "$options") :
    Closed [(key, value)] :=
  fun _ => Fields.get?_eq_none fun f hf => by rw [List.mem_singleton.mp hf]; exact h

/-- Operations on an item have documents that may be joined to others. -/
theorem joinable_itemDocument {f : Filter} {operators : Fields} (hf : f.isItemOperation = true)
    (h : f.itemDocument = .ok operators) :
    (operators.map (·.1)).Nodup ∧ Closed operators := by
  have hsingle {key : String} (value : Json) (hkey : key ≠ "$options") :
      (List.map (·.1) [(key, value)]).Nodup ∧ Closed [(key, value)] :=
    ⟨by simp, closed_single value hkey⟩
  have hdocument (t : Test) : (t.document.map (·.1)).Nodup ∧ Closed t.document := by
    cases t with
    | compare how value => cases how <;> exact hsingle _ (by decide)
    | regex pattern o =>
        by_cases ho : o = ""
        · subst ho
          exact hsingle _ (by decide)
        · simp [Test.document, ho, Closed, Fields.get?, List.lookup_cons]
    | presence | oneOf | noneOf | size | mod => exact hsingle _ (by decide)
  have hnegated (t : Test) : (t.negated.map (·.1)).Nodup ∧ Closed t.negated := by
    cases t with
    | compare how value => cases how <;> exact hsingle _ (by decide)
    | presence | oneOf | noneOf | regex | size | mod => exact hsingle _ (by decide)
  cases f with
  | test path t =>
      simp only [Filter.itemDocument, pure, Except.pure, Except.ok.injEq] at h
      exact h ▸ hdocument t
  | elemMatch path body =>
      rw [Filter.itemDocument_elemMatch] at h
      obtain ⟨d, -, rfl⟩ := map_eq_ok.mp h
      exact hsingle d (by decide)
  | not filter =>
      cases filter with
      | test path t =>
          simp only [Filter.itemDocument, pure, Except.pure, Except.ok.injEq] at h
          exact h ▸ hnegated t
      | elemMatch path body =>
          rw [Filter.itemDocument_not_elemMatch] at h
          obtain ⟨d, -, rfl⟩ := map_eq_ok.mp h
          exact hsingle _ (by decide)
      | _ => simp [Filter.isItemOperation] at hf
  | _ => simp [Filter.isItemOperation] at hf

/-! Filters. -/

theorem isOperatorDocument_single_of_not {key : String} (value : Json)
    (h : isOperator key = false) : isOperatorDocument [(key, value)] = false := by
  simp [isOperatorDocument, h]

theorem atPath_eq_ok {path : Path} {operation d : Json}
    (h : Filter.atPath path operation = .ok d) :
    path.field = some path.text ∧ d = .object [(path.text, operation)] := by
  obtain ⟨hroot, rfl⟩ := Filter.atPath_eq_ok_iff.mp h
  exact ⟨by simp [Path.field, hroot], rfl⟩

/-- A body of `$elemMatch` is read as what it was rendered as: its operators
are about the item, and a query is about the fields of the item. -/
theorem elementHolds_elementDocument {body : Filter} {d : Json}
    (hrender : ∀ d, body.render = .ok d → ∃ fields, d = .object fields ∧
      isOperatorDocument fields = false ∧ ∀ x, fieldsHold I x fields = body.holds I x)
    (hitem : ∀ operators, body.mentionsItem = true → body.itemDocument = .ok operators →
      isOperatorDocument operators = true ∧
        ∀ x, operatorsHold I x none operators operators = body.holds I x)
    (h : body.elementDocument = .ok d) :
    ∃ fields, d = .object fields ∧ ∀ y, elementHolds I y fields = body.holds I y := by
  unfold Filter.elementDocument at h
  split at h
  · rename_i hmentions
    obtain ⟨operators, hoperators, rfl⟩ := map_eq_ok.mp h
    obtain ⟨hop, hholds⟩ := hitem operators hmentions hoperators
    exact ⟨operators, rfl, fun y => by rw [elementHolds, hop, if_pos rfl, hholds]⟩
  · obtain ⟨fields, rfl, hop, hholds⟩ := hrender d h
    exact ⟨fields, rfl, fun y => by rw [elementHolds, hop, if_neg (by simp), hholds]⟩

/-- The document of one field, whose condition is read as `meaning`. -/
theorem reads_atPath {path : Path} {operation d : Json} {meaning : Item → Bool}
    (h : Filter.atPath path operation = .ok d) (hpath : isReserved path.text = false)
    (hholds : path.field = some path.text →
      ∀ x, fieldHolds I x path.text operation = meaning x) :
    ∃ fields, d = .object fields ∧ isOperatorDocument fields = false ∧
      ∀ x, fieldsHold I x fields = meaning x := by
  obtain ⟨hfield, rfl⟩ := atPath_eq_ok h
  refine ⟨_, rfl, isOperatorDocument_single_of_not _ (by simp [isOperator, hpath]), fun x => ?_⟩
  rw [fieldsHold, fieldsHold, Bool.and_true]
  exact hholds hfield x

/-- The document of a combination. -/
theorem reads_combinator {key : String} {value : Json} {meaning : Item → Bool}
    (hkey : isOperator key = false) (hholds : ∀ x, fieldHolds I x key value = meaning x) :
    ∃ fields, Json.single key value = .object fields ∧ isOperatorDocument fields = false ∧
      ∀ x, fieldsHold I x fields = meaning x :=
  ⟨_, rfl, isOperatorDocument_single_of_not _ hkey, fun x => by
    rw [fieldsHold, fieldsHold, Bool.and_true, hholds x]⟩

/-- No operation has a path that a reader would take for an operator. -/
def Unreserved (paths : List Path) : Prop := ∀ p ∈ paths, isReserved p.text = false

theorem unreserved_cons {path : Path} {paths : List Path} :
    Unreserved (path :: paths) ↔ isReserved path.text = false ∧ Unreserved paths :=
  List.forall_mem_cons

theorem unreserved_append {left right : List Path} :
    Unreserved (left ++ right) ↔ Unreserved left ∧ Unreserved right :=
  List.forall_mem_append

mutual

theorem reads_render : ∀ (f : Filter) (d : Json), Unreserved f.paths → f.render = .ok d →
    ∃ fields, d = .object fields ∧ isOperatorDocument fields = false ∧
      ∀ x, fieldsHold I x fields = f.holds I x
  | .test path t, d, hp, h => by
      have hpath := (unreserved_cons.mp hp).1
      refine reads_atPath I h hpath fun hfield x => ?_
      rw [fieldHolds_shortForm I x hpath (isOperatorDocument_document t)
        (document_of_get?_eq t), operatorsHold_document, Filter.holds, hfield]
  | .elemMatch path body, d, hp, h => by
      rw [Filter.render_elemMatch] at h
      obtain ⟨document, hdocument, h⟩ := bind_eq_ok.mp h
      obtain ⟨hpath, hbody⟩ := unreserved_cons.mp hp
      obtain ⟨fields, rfl, hholds⟩ := elementHolds_elementDocument I
        (fun d hd => reads_render body d hbody hd)
        (fun operators hm ho => reads_itemDocument body operators hbody hm ho) hdocument
      refine reads_atPath I h hpath fun hfield x => ?_
      rw [fieldHolds_operators I x hpath (isOperatorDocument_elemMatchFields _),
        operatorsHold_elemMatchFields, Filter.holds, hfield]
      simp only [hholds]
  | .and filters, d, hp, h => by
      obtain ⟨children, hchildren, ⟨⟩⟩ := bind_eq_ok.mp h
      have hall := reads_renderAll filters children hp hchildren
      exact reads_combinator I (by decide) fun x => by simp [fieldHolds, Filter.holds, hall x]
  | .or filters, d, hp, h => by
      obtain ⟨children, hchildren, ⟨⟩⟩ := bind_eq_ok.mp h
      have hall := reads_renderAll filters children hp hchildren
      exact reads_combinator I (by decide) fun x => by simp [fieldHolds, Filter.holds, hall x]
  | .nor filters, d, hp, h => by
      obtain ⟨children, hchildren, ⟨⟩⟩ := bind_eq_ok.mp h
      have hall := reads_renderAll filters children hp hchildren
      exact reads_combinator I (by decide) fun x => by simp [fieldHolds, Filter.holds, hall x]
  | .not filter, d, hp, h => reads_renderNegation filter d hp h
  | .everything, d, hp, h => by
      cases h
      exact ⟨[], rfl, rfl, fun x => rfl⟩
  | .nothing, d, hp, h => by
      cases h
      exact reads_combinator I (by decide) fun x => by
        simp [fieldHolds, anyHolds, holds, fieldsHold, Filter.holds]

theorem reads_renderAll : ∀ (fs : List Filter) (ds : List Json),
    Unreserved (Filter.allPaths fs) → Filter.renderAll fs = .ok ds →
    ∀ x, allHold I x ds = Filter.allHold I x fs ∧ anyHolds I x ds = Filter.anyHolds I x fs
  | [], ds, hp, h => by
      cases h
      exact fun x => ⟨rfl, rfl⟩
  | f :: fs, ds, hp, h => by
      obtain ⟨d, hd, h⟩ := bind_eq_ok.mp h
      obtain ⟨rest, hrest, ⟨⟩⟩ := bind_eq_ok.mp h
      obtain ⟨hf, hfs⟩ := unreserved_append.mp hp
      obtain ⟨fields, rfl, -, hholds⟩ := reads_render f d hf hd
      have hall := reads_renderAll fs rest hfs hrest
      exact fun x => by
        simp [allHold, anyHolds, Filter.allHold, Filter.anyHolds, holds, hholds, hall x]

theorem reads_renderNegation : ∀ (f : Filter) (d : Json), Unreserved f.paths →
    f.renderNegation = .ok d →
    ∃ fields, d = .object fields ∧ isOperatorDocument fields = false ∧
      ∀ x, fieldsHold I x fields = !f.holds I x
  | .test path t, d, hp, h => by
      have hpath := (unreserved_cons.mp hp).1
      refine reads_atPath I h hpath fun hfield x => ?_
      rw [fieldHolds_shortForm I x hpath (isOperatorDocument_negated t)
        (negated_of_get?_eq t), operatorsHold_negated, Filter.holds, hfield]
  | .elemMatch path body, d, hp, h => by
      rw [Filter.renderNegation_elemMatch] at h
      obtain ⟨document, hdocument, h⟩ := bind_eq_ok.mp h
      obtain ⟨hpath, hbody⟩ := unreserved_cons.mp hp
      obtain ⟨fields, rfl, hholds⟩ := elementHolds_elementDocument I
        (fun d hd => reads_render body d hbody hd)
        (fun operators hm ho => reads_itemDocument body operators hbody hm ho) hdocument
      refine reads_atPath I h hpath fun hfield x => ?_
      rw [fieldHolds_operators I x hpath (isOperatorDocument_negatedFields _),
        operatorsHold_negatedFields, operatorsHold_elemMatchFields, Filter.holds, hfield]
      simp only [hholds]
  | .and filters, d, hp, h => by
      obtain ⟨children, hchildren, ⟨⟩⟩ := bind_eq_ok.mp h
      have hall := reads_renderAll filters children hp hchildren
      -- there is no `$nand`: the conjunction is the only part of a `$nor`
      exact reads_combinator I (by decide) fun x => by
        simp [Json.single, fieldHolds, anyHolds, holds, fieldsHold, Filter.holds, hall x]
  | .or filters, d, hp, h => by
      obtain ⟨children, hchildren, ⟨⟩⟩ := bind_eq_ok.mp h
      have hall := reads_renderAll filters children hp hchildren
      exact reads_combinator I (by decide) fun x => by simp [fieldHolds, Filter.holds, hall x]
  | .nor filters, d, hp, h => by
      obtain ⟨children, hchildren, ⟨⟩⟩ := bind_eq_ok.mp h
      have hall := reads_renderAll filters children hp hchildren
      exact reads_combinator I (by decide) fun x => by simp [fieldHolds, Filter.holds, hall x]
  | .not filter, d, hp, h => by
      obtain ⟨fields, rfl, hop, hholds⟩ := reads_render filter d hp h
      exact ⟨fields, rfl, hop, fun x => by simp [Filter.holds, hholds]⟩
  | .everything, d, hp, h => by
      cases h
      exact reads_combinator I (by decide) fun x => by
        simp [fieldHolds, anyHolds, holds, fieldsHold, Filter.holds]
  | .nothing, d, hp, h => by
      cases h
      exact ⟨[], rfl, rfl, fun x => rfl⟩

theorem reads_itemDocument : ∀ (f : Filter) (operators : Fields), Unreserved f.paths →
    f.mentionsItem = true → f.itemDocument = .ok operators →
    isOperatorDocument operators = true ∧
      ∀ x, operatorsHold I x none operators operators = f.holds I x
  | .test path t, operators, hp, hm, h => by
      cases h
      have hfield : path.field = none := if_pos hm
      exact ⟨isOperatorDocument_document t, fun x => by
        rw [operatorsHold_document, Filter.holds, hfield]⟩
  | .elemMatch path body, operators, hp, hm, h => by
      rw [Filter.itemDocument_elemMatch] at h
      obtain ⟨document, hdocument, rfl⟩ := map_eq_ok.mp h
      have hbody := (unreserved_cons.mp hp).2
      have hfield : path.field = none := if_pos hm
      obtain ⟨fields, rfl, hholds⟩ := elementHolds_elementDocument I
        (fun d hd => reads_render body d hbody hd)
        (fun operators hm ho => reads_itemDocument body operators hbody hm ho) hdocument
      exact ⟨isOperatorDocument_elemMatchFields _, fun x => by
        simp only [operatorsHold_elemMatchFields, Filter.holds, hfield, hholds]⟩
  | .not (.test path t), operators, hp, hm, h => by
      cases h
      have hfield : path.field = none := if_pos hm
      exact ⟨isOperatorDocument_negated t, fun x => by
        rw [operatorsHold_negated, Filter.holds, Filter.holds, hfield]⟩
  | .not (.elemMatch path body), operators, hp, hm, h => by
      rw [Filter.itemDocument_not_elemMatch] at h
      obtain ⟨document, hdocument, rfl⟩ := map_eq_ok.mp h
      have hbody := (unreserved_cons.mp hp).2
      have hfield : path.field = none := if_pos hm
      obtain ⟨fields, rfl, hholds⟩ := elementHolds_elementDocument I
        (fun d hd => reads_render body d hbody hd)
        (fun operators hm ho => reads_itemDocument body operators hbody hm ho) hdocument
      exact ⟨isOperatorDocument_negatedFields _, fun x => by
        simp only [operatorsHold_negatedFields, operatorsHold_elemMatchFields, Filter.holds,
          hfield, hholds]⟩
  | .and filters, operators, hp, hm, h => by
      obtain ⟨joined, hjoined, h⟩ := bind_eq_ok.mp h
      cases joined with
      | none => cases h
      | some joined =>
          cases h
          -- an empty conjunction asks nothing of the item
          have hne : filters ≠ [] := by
            rintro rfl
            simp [Filter.mentionsItem, Filter.mentionsItem.anyMentionsItem] at hm
          have hall := reads_itemOperations filters [] operators hp hjoined
            (fun _ => rfl) rfl (.inr hne)
          exact ⟨hall.1, fun x => by rw [hall.2 x, operatorsHold, Bool.true_and, Filter.holds]⟩
  | .not (.and _), _, _, _, h => by cases h
  | .not (.or _), _, _, _, h => by cases h
  | .not (.nor _), _, _, _, h => by cases h
  | .not (.not _), _, _, _, h => by cases h
  | .not .everything, _, _, _, h => by cases h
  | .not .nothing, _, _, _, h => by cases h
  | .or _, _, _, _, h => by cases h
  | .nor _, _, _, _, h => by cases h
  | .everything, _, _, _, h => by cases h
  | .nothing, _, _, _, h => by cases h

/-- Joining the operations of a conjunction adds their meaning to what is
joined already. -/
theorem reads_itemOperations : ∀ (fs : List Filter) (joined operators : Fields),
    Unreserved (Filter.allPaths fs) → Filter.itemOperations fs joined = .ok (some operators) →
    Closed joined → joined.all (fun f => isOperator f.1) = true → joined ≠ [] ∨ fs ≠ [] →
    isOperatorDocument operators = true ∧ ∀ x, operatorsHold I x none operators operators
      = (operatorsHold I x none joined joined && Filter.allHold I x fs)
  | [], joined, operators, hp, h, hclosed, hop, hne => by
      cases h
      have hne' : joined.isEmpty = false := by simpa using hne
      exact ⟨by simp only [isOperatorDocument, hne', hop]; rfl, fun x => by
        rw [Filter.allHold, Bool.and_true]⟩
  | f :: fs, joined, operators, hp, h, hclosed, hop, hne => by
      obtain ⟨hf, hfs⟩ := unreserved_append.mp hp
      rw [Filter.itemOperations] at h
      split at h
      · rename_i hitem
        obtain ⟨document, hdocument, h⟩ := bind_eq_ok.mp h
        obtain ⟨hdistinct, hdocclosed⟩ := joinable_itemDocument hitem hdocument
        obtain ⟨hdocop, hdocholds⟩ := reads_itemDocument f document hf
          (Filter.mentionsItem_of_isItemOperation hitem) hdocument
        split at h
        · rename_i merged hjoin
          have hmerged := isOperatorDocument_joinFields hjoin hdistinct hop hdocop
          have hrest := reads_itemOperations fs merged operators hfs h
            (closed_joinFields hjoin hdistinct hclosed hdocclosed)
            (by simp only [isOperatorDocument, Bool.and_eq_true] at hmerged; exact hmerged.2)
            (.inl (by rintro rfl; simp [isOperatorDocument] at hmerged))
          refine ⟨hrest.1, fun x => ?_⟩
          rw [hrest.2 x, operatorsHold_joinFields I x none hjoin hdistinct hclosed hdocclosed,
            hdocholds, Filter.allHold, Bool.and_assoc]
        · cases h
      · cases h

end

/-- A filter that renders, and whose paths nobody takes for operators, holds of
an item exactly when its query document does, whatever the tests of fields are
decided to be and whatever items the array fields have. -/
theorem holds_render_eq (f : Filter) (d : Json) (hpaths : Unreserved f.paths)
    (hrender : f.render = .ok d) (x : Item) : holds I x d = f.holds I x := by
  obtain ⟨fields, rfl, -, hholds⟩ := reads_render I f d hpaths hrender
  exact hholds x

/-- Integers with themselves and their successor as the items of every field. -/
def counting : Interpretation Int where
  holds n _ t :=
    match t with
    | .compare how (.int m) => how.holds n m
    | .regex _ options => options == "i"
    | _ => false
  items n _ := [n, n + 1]

theorem holds_render_counting :
    let f : Filter := .not (.or [
      .elemMatch ⟨["a"]⟩ (.and [.test .root (.compare .lt (.int 9)),
        .not (.test .root (.eq (.int 3))), .test .root (.regex "x" "i")]),
      .test ⟨["b", "c"]⟩ (.ne (.int 4))])
    let d : Json := .single "$nor" (.array [
      .single "a" (.single "$elemMatch" (.object [("$lt", .int 9), ("$ne", .int 3),
        ("$options", .string "i"), ("$regex", .string "x")])),
      .single "b.c" (.object [("$ne", .int 4)])])
    Unreserved f.paths ∧ f.render = .ok d ∧ holds counting 8 d = f.holds counting 8 := by
  intro f d
  have hpaths : Unreserved f.paths := by
    intro p hp
    simp only [f, Filter.paths, Filter.allPaths, List.mem_cons, List.not_mem_nil, or_false,
      List.cons_append, List.nil_append] at hp
    rcases hp with rfl | rfl | rfl | rfl | rfl <;> decide
  exact ⟨hpaths, rfl, holds_render_eq counting f d hpaths rfl 8⟩

end Query

end QueryFilter
